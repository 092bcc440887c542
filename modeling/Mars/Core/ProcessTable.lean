import Mathlib.Data.List.Nodup

/-! # Processes in groups, and who put them there

A process is in one group at a time and hands it on to its children. Everyone
who ever moved it, or one of its ancestors, into a group is remembered with it.
-/

namespace ProcessTable

structure Process (Group Owner : Type) where
  pid : Nat
  group : Group
  placedBy : List Owner
  deriving DecidableEq

/-- Two processes never have one pid. -/
structure Table (Group Owner : Type) where
  procs : List (Process Group Owner)
  distinct : (procs.map Process.pid).Nodup

variable {Group Owner : Type}

namespace Table

def find (t : Table Group Owner) (pid : Nat) : Option (Process Group Owner) :=
  t.procs.find? fun p => p.pid == pid

def isFree (t : Table Group Owner) (pid : Nat) : Prop := pid ∉ t.procs.map Process.pid

instance (t : Table Group Owner) (pid : Nat) : Decidable (t.isFree pid) :=
  inferInstanceAs (Decidable (pid ∉ t.procs.map Process.pid))

/-- A child may only take a pid that is free. -/
def spawn (t : Table Group Owner) (parent child : Nat) : Option (Table Group Owner) :=
  match t.find parent with
  | none => none
  | some p =>
      if hfree : t.isFree child then
        some ⟨{ p with pid := child } :: t.procs, List.nodup_cons.mpr ⟨hfree, t.distinct⟩⟩
      else none

def exit (t : Table Group Owner) (pid : Nat) : Table Group Owner :=
  ⟨t.procs.filter fun p => p.pid != pid, t.distinct.sublist (List.filter_sublist.map _)⟩

def move (pid : Nat) (group : Group) (owner : Owner) (p : Process Group Owner) :
    Process Group Owner :=
  if p.pid = pid then { p with group := group, placedBy := owner :: p.placedBy } else p

theorem move_pid {pid : Nat} {group : Group} {owner : Owner} {p : Process Group Owner} :
    (move pid group owner p).pid = p.pid := by
  unfold move
  split <;> rfl

def place (t : Table Group Owner) (pid : Nat) (group : Group) (owner : Owner) :
    Table Group Owner :=
  ⟨t.procs.map (move pid group owner), by
    have hpids : (t.procs.map (move pid group owner)).map Process.pid =
        t.procs.map Process.pid := by
      rw [List.map_map]
      exact List.map_congr_left fun p _ => move_pid
    rw [hpids]
    exact t.distinct⟩

def shift (pid : Nat) (group : Group) (p : Process Group Owner) : Process Group Owner :=
  if p.pid = pid then { p with group := group } else p

theorem shift_pid {pid : Nat} {group : Group} {p : Process Group Owner} :
    (shift pid group p).pid = p.pid := by
  unfold shift
  split <;> rfl

/-- A move that nobody is remembered for. -/
def migrate (t : Table Group Owner) (pid : Nat) (group : Group) : Table Group Owner :=
  ⟨t.procs.map (shift pid group), by
    have hpids : (t.procs.map (shift pid group)).map Process.pid = t.procs.map Process.pid := by
      rw [List.map_map]
      exact List.map_congr_left fun p _ => shift_pid
    rw [hpids]
    exact t.distinct⟩

variable [DecidableEq Group]

def members (t : Table Group Owner) (group : Group) : List (Process Group Owner) :=
  t.procs.filter fun p => decide (p.group = group)

end Table

/-- The owner has placed the process or one it descends from. -/
def Process.Of (p : Process Group Owner) (owner : Owner) : Prop := owner ∈ p.placedBy

/-- Every process of the group is the owner's. -/
def Table.Owned [DecidableEq Group] (t : Table Group Owner) (group : Group) (owner : Owner) :
    Prop :=
  ∀ p ∈ t.members group, p.Of owner

/-- Whatever process has the pid, if any has it, is the owner's. -/
def Table.Holds (t : Table Group Owner) (pid : Nat) (owner : Owner) : Prop :=
  ∀ p ∈ t.procs, p.pid = pid → p.Of owner

namespace Table
variable {t t' : Table Group Owner} {group other : Group} {owner o : Owner}
  {pid parent child : Nat} {p q : Process Group Owner}

theorem eq_of_pid (hp : p ∈ t.procs) (hq : q ∈ t.procs) (h : p.pid = q.pid) : p = q :=
  List.inj_on_of_nodup_map t.distinct hp hq h

theorem mem_of_find (h : t.find pid = some p) : p ∈ t.procs ∧ p.pid = pid :=
  ⟨List.mem_of_find?_eq_some h, by simpa using List.find?_some h⟩

theorem mem_members [DecidableEq Group] : p ∈ t.members group ↔ p ∈ t.procs ∧ p.group = group := by
  simp [members]

/-! ## One operation -/

/-- A process after a fork is its parent under a new pid, or was there before. -/
theorem mem_spawn (h : t.spawn parent child = some t') (hp : p ∈ t'.procs) :
    (∃ q ∈ t.procs, p = { q with pid := child }) ∨ p ∈ t.procs := by
  unfold spawn at h
  split at h
  next => cases h
  next q hfind =>
    split at h
    next =>
      cases h
      rcases List.mem_cons.mp hp with rfl | hold
      · exact Or.inl ⟨q, (mem_of_find hfind).1, rfl⟩
      · exact Or.inr hold
    next => cases h

theorem mem_exit (hp : p ∈ (t.exit pid).procs) : p ∈ t.procs :=
  List.mem_of_mem_filter hp

/-- A process after a placement was there before, and is where it was or has been moved. -/
theorem mem_place (hp : p ∈ (t.place pid group o).procs) :
    ∃ q ∈ t.procs, p.pid = q.pid ∧ (∀ owner, q.Of owner → p.Of owner) ∧
      (p.group = q.group ∨ p.group = group ∧ p.Of o) := by
  obtain ⟨q, hq, rfl⟩ := List.mem_map.mp hp
  refine ⟨q, hq, move_pid, ?_, ?_⟩
  · intro owner hof
    unfold move
    split
    next => exact List.mem_cons_of_mem o hof
    next => exact hof
  · unfold move
    split
    next => exact Or.inr ⟨rfl, List.mem_cons_self⟩
    next => exact Or.inl rfl

/-- A process after a move is where it was or has been moved. -/
theorem mem_migrate (hp : p ∈ (t.migrate pid group).procs) :
    ∃ q ∈ t.procs, p.pid = q.pid ∧ p.placedBy = q.placedBy ∧
      (p.group = q.group ∨ p.group = group ∧ q.pid = pid) := by
  obtain ⟨q, hq, rfl⟩ := List.mem_map.mp hp
  refine ⟨q, hq, shift_pid, ?_⟩
  unfold shift
  split
  next hpid => exact ⟨rfl, Or.inr ⟨rfl, hpid⟩⟩
  next => exact ⟨rfl, Or.inl rfl⟩

/-! ## What stays owned -/

theorem Holds.spawn (h : t.Holds pid owner) (hspawn : t.spawn parent child = some t')
    (hchild : child ≠ pid) : t'.Holds pid owner := by
  intro p hp hpid
  rcases mem_spawn hspawn hp with ⟨q, -, rfl⟩ | hold
  · exact absurd hpid hchild
  · exact h p hold hpid

theorem Holds.exit {gone : Nat} (h : t.Holds pid owner) : (t.exit gone).Holds pid owner :=
  fun p hp hpid => h p (mem_exit hp) hpid

theorem Holds.place {moved : Nat} (h : t.Holds pid owner) :
    (t.place moved group o).Holds pid owner := by
  intro p hp hpid
  obtain ⟨q, hq, hsame, hkept, -⟩ := mem_place hp
  exact hkept owner (h q hq (hsame ▸ hpid))

theorem Holds.migrate {moved : Nat} (h : t.Holds pid owner) :
    (t.migrate moved group).Holds pid owner := by
  intro p hp hpid
  obtain ⟨q, hq, hsame, howners, -⟩ := mem_migrate hp
  rw [Process.Of, howners]
  exact h q hq (hsame ▸ hpid)

theorem Holds.find (h : t.Holds pid owner) (hfind : t.find pid = some p) : p.Of owner :=
  h p (mem_of_find hfind).1 (mem_of_find hfind).2

variable [DecidableEq Group]

theorem owned_of_empty (h : t.members group = []) : t.Owned group owner := by
  intro p hp
  rw [h] at hp
  cases hp

theorem Owned.holds (h : t.Owned group owner) (hp : p ∈ t.members group) :
    t.Holds p.pid owner := by
  intro q hq hpid
  rw [eq_of_pid hq (mem_members.mp hp).1 hpid]
  exact h p hp

theorem Owned.spawn (h : t.Owned group owner) (hspawn : t.spawn parent child = some t') :
    t'.Owned group owner := by
  intro p hp
  obtain ⟨hmem, hgroup⟩ := mem_members.mp hp
  rcases mem_spawn hspawn hmem with ⟨q, hq, rfl⟩ | hold
  · exact h q (mem_members.mpr ⟨hq, hgroup⟩)
  · exact h p (mem_members.mpr ⟨hold, hgroup⟩)

theorem Owned.exit (h : t.Owned group owner) : (t.exit pid).Owned group owner := by
  intro p hp
  obtain ⟨hmem, hgroup⟩ := mem_members.mp hp
  exact h p (mem_members.mpr ⟨mem_exit hmem, hgroup⟩)

/-- Only the owner may move processes into the group, and anyone into others. -/
theorem Owned.place (h : t.Owned group owner) (hown : other = group → o = owner) :
    (t.place pid other o).Owned group owner := by
  intro p hp
  obtain ⟨hmem, hgroup⟩ := mem_members.mp hp
  obtain ⟨q, hq, -, hkept, hsame | ⟨hmoved, hof⟩⟩ := mem_place hmem
  · exact hkept owner (h q (mem_members.mpr ⟨hq, hsame ▸ hgroup⟩))
  · exact hown (hmoved ▸ hgroup) ▸ hof

/-- Into a group that is owned, only what is the owner's may be moved. -/
theorem Owned.migrate (h : t.Owned group owner) (hown : other = group → t.Holds pid owner) :
    (t.migrate pid other).Owned group owner := by
  intro p hp
  obtain ⟨hmem, hgroup⟩ := mem_members.mp hp
  obtain ⟨q, hq, -, howners, hsame | ⟨hmoved, hpid⟩⟩ := mem_migrate hmem
  · rw [Process.Of, howners]
    exact h q (mem_members.mpr ⟨hq, hsame ▸ hgroup⟩)
  · rw [Process.Of, howners]
    exact hown (hmoved ▸ hgroup) q hq hpid

end Table

end ProcessTable
