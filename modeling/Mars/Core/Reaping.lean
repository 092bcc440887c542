import Mathlib.Data.List.Nodup

/-! # Processes as the one that waits for them sees them

Which processes are one's children, and which of them have ended and not been
waited for. A pid is free again once its process has been waited for, an ident
is never used twice.
-/

namespace Reaping

inductive Life (Status : Type) where
  | living
  | zombie (status : Status)
  deriving DecidableEq

structure Proc (Status : Type) where
  pid : Nat
  ident : Nat
  child : Bool
  life : Life Status
  deriving DecidableEq

/-- The processes there are and those that have been waited for. -/
structure Table (Status : Type) where
  procs : List (Proc Status)
  gone : List (Proc Status)
  next : Nat
  pids : (procs.map Proc.pid).Nodup
  idents : ((procs ++ gone).map Proc.ident).Nodup
  used : ∀ p ∈ procs ++ gone, p.ident < next

variable {Status : Type}

def Proc.amend (p : Proc Status) (child : Bool) (life : Life Status) : Proc Status :=
  { p with child, life }

namespace Table

def empty : Table Status := ⟨[], [], 0, List.nodup_nil, List.nodup_nil, by simp⟩

def find (t : Table Status) (pid : Nat) : Option (Proc Status) :=
  t.procs.find? fun p => p.pid == pid

theorem find_eq_some {t : Table Status} {pid : Nat} {p : Proc Status} :
    t.find pid = some p ↔ p ∈ t.procs ∧ p.pid = pid := by
  constructor
  · intro h
    exact ⟨List.mem_of_find?_eq_some h, by simpa using List.find?_some h⟩
  · rintro ⟨hmem, hpid⟩
    cases hfind : t.find pid with
    | none => exact absurd hpid (by simpa using List.find?_eq_none.mp hfind p hmem)
    | some q =>
        have hq : q ∈ t.procs ∧ q.pid = pid :=
          ⟨List.mem_of_find?_eq_some hfind, by simpa using List.find?_some hfind⟩
        rw [List.inj_on_of_nodup_map t.pids hq.1 hmem (hq.2.trans hpid.symm)]

theorem find_eq_none {t : Table Status} {pid : Nat} :
    t.find pid = none ↔ ∀ p ∈ t.procs, p.pid ≠ pid := by
  simp [find]

/-! ## Operations -/

/-- A new process, under a pid that is free. -/
def appear (t : Table Status) (pid : Nat) (child : Bool) : Option (Table Status) :=
  if h : t.find pid = none then
    some
      { procs := ⟨pid, t.next, child, .living⟩ :: t.procs
        gone := t.gone
        next := t.next + 1
        pids := List.nodup_cons.mpr ⟨by simpa using find_eq_none.mp h, t.pids⟩
        idents := by
          refine List.nodup_cons.mpr ⟨fun hmem => ?_, t.idents⟩
          obtain ⟨p, hp, hident⟩ := List.mem_map.mp hmem
          exact absurd (t.used p hp) (by simp [hident])
        used := by
          intro p hp
          rcases List.mem_cons.mp hp with rfl | hold
          · exact Nat.lt_succ_self _
          · exact Nat.lt_succ_of_lt (t.used p hold) }
  else none

/-- The process that has the pid becomes a child, or not, and ends, or not. -/
def amendAt (pid : Nat) (child : Bool) (life : Life Status) (p : Proc Status) : Proc Status :=
  if p.pid = pid then p.amend child life else p

theorem amendAt_pid {pid : Nat} {child : Bool} {life : Life Status} {p : Proc Status} :
    (amendAt pid child life p).pid = p.pid := by
  unfold amendAt
  split <;> rfl

theorem amendAt_ident {pid : Nat} {child : Bool} {life : Life Status} {p : Proc Status} :
    (amendAt pid child life p).ident = p.ident := by
  unfold amendAt
  split <;> rfl

def amend (t : Table Status) (pid : Nat) (child : Bool) (life : Life Status) : Table Status :=
  have hpids : (t.procs.map (amendAt pid child life)).map Proc.pid = t.procs.map Proc.pid := by
    rw [List.map_map]
    exact List.map_congr_left fun p _ => amendAt_pid
  have hidents : (t.procs.map (amendAt pid child life)).map Proc.ident =
      t.procs.map Proc.ident := by
    rw [List.map_map]
    exact List.map_congr_left fun p _ => amendAt_ident
  { procs := t.procs.map (amendAt pid child life)
    gone := t.gone
    next := t.next
    pids := by rw [hpids]; exact t.pids
    idents := by rw [List.map_append, hidents, ← List.map_append]; exact t.idents
    used := by
      intro p hp
      rcases List.mem_append.mp hp with hmap | hgone
      · obtain ⟨q, hq, rfl⟩ := List.mem_map.mp hmap
        rw [amendAt_ident]
        exact t.used q (List.mem_append_left _ hq)
      · exact t.used p (List.mem_append_right _ hgone) }

/-- The process becomes a child. -/
def adopt (t : Table Status) (p : Proc Status) : Table Status := t.amend p.pid true p.life

def die (t : Table Status) (p : Proc Status) (status : Status) : Table Status :=
  t.amend p.pid p.child (.zombie status)

/-- The process has been waited for. -/
def bury (t : Table Status) (p : Proc Status) (h : p ∈ t.procs) : Table Status :=
  have hperm : (p :: t.procs.filter fun q => q.pid != p.pid).Perm t.procs := by
    refine (List.perm_ext_iff_of_nodup ?_ t.pids.of_map).mpr ?_
    · exact List.nodup_cons.mpr ⟨by simp, t.pids.of_map.filter _⟩
    · intro q
      simp only [List.mem_cons, List.mem_filter, bne_iff_ne, ne_eq]
      constructor
      · rintro (rfl | hq)
        · exact h
        · exact hq.1
      · intro hq
        by_cases hpid : q.pid = p.pid
        · exact .inl (List.inj_on_of_nodup_map t.pids hq h hpid)
        · exact .inr ⟨hq, hpid⟩
  have hall : ((t.procs.filter fun q => q.pid != p.pid) ++ p :: t.gone).Perm
      (t.procs ++ t.gone) :=
    List.perm_middle.trans (hperm.append_right t.gone)
  { procs := t.procs.filter fun q => q.pid != p.pid
    gone := p :: t.gone
    next := t.next
    pids := t.pids.sublist (List.filter_sublist.map _)
    idents := (hall.map Proc.ident).nodup_iff.mpr t.idents
    used := fun q hq => t.used q (hall.mem_iff.mp hq) }

/-! ## What an operation leaves -/

variable {t t' : Table Status} {pid other : Nat} {child : Bool} {life : Life Status}
  {p q : Proc Status}

theorem find_appear (h : t.appear pid child = some t') :
    t'.find other = if other = pid then some ⟨pid, t.next, child, .living⟩ else t.find other := by
  unfold appear at h
  split at h
  next =>
    cases h
    by_cases heq : other = pid
    · rw [if_pos heq, find, List.find?_cons_of_pos (by simp [heq])]
    · rw [if_neg heq, find, List.find?_cons_of_neg (by simpa using Ne.symm heq)]
      rfl
  next => cases h

theorem free_of_appear (h : t.appear pid child = some t') : t.find pid = none := by
  unfold appear at h
  split at h
  next hfree => exact hfree
  next => cases h

/-- A process that is there stays as it is when another one comes. -/
theorem find_of_appear (h : t.appear pid child = some t') (hp : t.find other = some p) :
    t'.find other = some p := by
  have hne : other ≠ pid := by
    rintro rfl
    rw [free_of_appear h] at hp
    cases hp
  rw [find_appear h, if_neg hne, hp]

theorem find_amend (hp : t.find other = some p) :
    (t.amend pid child life).find other = some (amendAt pid child life p) := by
  obtain ⟨hmem, hpid⟩ := find_eq_some.mp hp
  exact find_eq_some.mpr ⟨List.mem_map_of_mem hmem, amendAt_pid.trans hpid⟩

theorem find_amend_self (hp : t.find pid = some p) :
    (t.amend pid child life).find pid = some (p.amend child life) := by
  rw [find_amend hp, amendAt, if_pos (find_eq_some.mp hp).2]

theorem find_amend_other (hne : other ≠ pid) (hp : t.find other = some p) :
    (t.amend pid child life).find other = some p := by
  rw [find_amend hp, amendAt, if_neg ((find_eq_some.mp hp).2 ▸ hne)]

theorem find_bury (h : q ∈ t.procs) (hne : other ≠ q.pid) (hp : t.find other = some p) :
    (t.bury q h).find other = some p := by
  obtain ⟨hmem, hpid⟩ := find_eq_some.mp hp
  refine find_eq_some.mpr ⟨List.mem_filter.mpr ⟨hmem, ?_⟩, hpid⟩
  rw [hpid]
  exact bne_iff_ne.mpr hne

theorem mem_gone_bury (h : p ∈ t.procs) : p ∈ (t.bury p h).gone := List.mem_cons_self

theorem gone_bury (h : q ∈ t.procs) (hp : p ∈ t.gone) : p ∈ (t.bury q h).gone :=
  List.mem_cons_of_mem _ hp

theorem gone_appear (h : t.appear pid child = some t') : t'.gone = t.gone := by
  unfold appear at h
  split at h
  next =>
    cases h
    rfl
  next => cases h

/-! ## Children that have ended -/

def endedChild (p : Proc Status) : Bool :=
  p.child && match p.life with
    | .living => false
    | .zombie _ => true

def endedChildren (t : Table Status) : List (Proc Status) := t.procs.filter endedChild

theorem endedChild_iff : endedChild p ↔ p.child ∧ ∃ status, p.life = .zombie status := by
  unfold endedChild
  cases hlife : p.life <;> simp

theorem mem_endedChildren : p ∈ t.endedChildren ↔ p ∈ t.procs ∧ endedChild p := List.mem_filter

/-- Waiting for an ended child leaves fewer of them. -/
theorem length_endedChildren_bury (h : p ∈ t.procs) (hended : endedChild p) :
    (t.bury p h).endedChildren.length < t.endedChildren.length := by
  have hfilter : (t.bury p h).endedChildren = t.endedChildren.filter fun q => q.pid != p.pid :=
    List.filter_comm _ _ _
  rw [hfilter]
  exact List.length_filter_lt_length_iff_exists.mpr
    ⟨p, mem_endedChildren.mpr ⟨h, hended⟩, by simp⟩

end Table
end Reaping
