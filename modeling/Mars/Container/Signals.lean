import Mars.Container.Ownership
import Mathlib.Data.Fintype.Sum

/-! # A cgroup of its own

Where each create finds its cgroup empty and in nobody's use, the cgroup holds
the container's processes and no others, and so does every list a killer reads.
-/

namespace Mars.Ownership
open UnixPath Paths V2 State ProcessTable

variable {κ γ : Type} (request : κ → Request)

/-! ## The condition -/

/-- A container in use whose cgroup this is has placed the process there already,
or one it descends from. -/
def World.Keeps (w : World κ γ) (pid : Nat) (group : List Component) : Prop :=
  ∀ k, w.Uses k → group = (request k).group → w.table.Holds pid k

/-- Where the next step of a command moves a process to without placing it. -/
def World.migrates (w : World κ γ) (i : Inside κ) : Option (List Component) :=
  match i.ops with
  | .write file _ :: _ => w.migratesTo i.cgroup file
  | _ => none

/-- A create that gets its cgroup finds no process in it, and no container that
is in use has the same one. No pid that a killer has yet to come to is given away,
and neither a limit nor anybody else moves a process into a cgroup in use. -/
def Careful (w : World κ γ) : Event κ γ → Prop
  | .createCgroup k fails =>
      (Cgroup.create fails w.hierarchy (request k).relative).2.isOk = true →
        w.table.members (request k).group = [] ∧
          ∀ k', w.Uses k' → (request k').group = (request k).group → k' = k
  | .spawn _ child => ¬ w.Awaited child
  | .migrate pid group => w.Keeps request pid group
  | .act p false pid =>
      ∀ i ∈ (w.party p).inside?, ∀ group ∈ w.migrates i, w.Keeps request pid group
  | _ => True

section decidable
variable [DecidableEq κ] [Fintype κ] [Fintype γ]

instance (w : World κ γ) (k : κ) : Decidable (w.Uses k) :=
  inferInstanceAs (Decidable (_ ∨ _))

instance (w : World κ γ) (pid : Nat) : Decidable (w.Awaited pid) :=
  have : ∀ p, Decidable (∃ i ∈ (w.party p).inside?, Op.signal pid ∈ i.ops) := fun p =>
    match (w.party p).inside? with
    | none => isFalse (by simp)
    | some i => decidable_of_iff (Op.signal pid ∈ i.ops) (by simp)
  inferInstanceAs (Decidable (∃ _, _))

instance (t : Table (List Component) κ) (pid : Nat) (k : κ) : Decidable (t.Holds pid k) :=
  inferInstanceAs (Decidable (∀ p ∈ t.procs, p.pid = pid → k ∈ p.placedBy))

instance (w : World κ γ) (pid : Nat) (group : List Component) :
    Decidable (w.Keeps request pid group) :=
  inferInstanceAs (Decidable (∀ _, _ → _ → _))

instance (w : World κ γ) (e : Event κ γ) : Decidable (Careful request w e) :=
  match e with
  | .createCgroup _ _ => inferInstanceAs (Decidable (_ → _ ∧ _))
  | .spawn _ _ => inferInstanceAs (Decidable (¬ _))
  | .migrate _ _ => inferInstanceAs (Decidable (World.Keeps _ _ _ _))
  | .act _ false _ => inferInstanceAs (Decidable (∀ _ ∈ _, ∀ _ ∈ _, World.Keeps _ _ _ _))
  | .act _ true _ => isTrue trivial
  | .exit _ => isTrue trivial
  | .hierarchy _ _ => isTrue trivial
  | .check _ => isTrue trivial
  | .planFails _ => isTrue trivial
  | .call .. => isTrue trivial
  | .die _ => isTrue trivial

end decidable

/-! ## The invariant -/

/-- A handle on the container's cgroup, under either copy of the path. -/
def Fits (cgroup : Cgroup) (k : κ) : Prop :=
  components cgroup.path = (request k).group ∧
    components (Cgroup.attach cgroup.relative).path = (request k).group

/-- A command holds the right cgroup, and what it is about to kill is the container's. -/
structure Sound (table : Table (List Component) κ) (i : Inside κ) : Prop where
  fits : Fits request i.cgroup i.container
  listed : ∀ pid, Op.signal pid ∈ i.ops → table.Holds pid i.container

structure Inv (w : World κ γ) : Prop where
  sound : ∀ p i, (w.party p).inside? = some i → Sound request w.table i
  recorded : ∀ r ∈ w.records, components (Cgroup.attach r.cgroup).path = (request r.container).group
  owned : ∀ k, w.Uses k → w.table.Owned (request k).group k
  apart : ∀ k k', w.Uses k → w.Uses k' → (request k).group = (request k').group → k = k'
  signalled : ∀ s ∈ w.signalled, s.container ∈ s.placedBy

theorem inv_start (hierarchy : Hierarchy) (host : Host κ) :
    Inv request (start hierarchy host : World κ γ) := by
  have hnone : ∀ k, ¬ (start hierarchy host : World κ γ).Uses k := by
    rintro k (⟨p, hp⟩ | hr)
    · cases hp
    · exact List.not_mem_nil hr
  constructor
  case sound =>
    intro p i hi
    cases hi
  case recorded => exact fun r hr => absurd hr List.not_mem_nil
  case owned => exact fun k hk => absurd hk (hnone k)
  case apart => exact fun k _ hk => absurd hk (hnone k)
  case signalled => exact fun s hs => absurd hs List.not_mem_nil

/-- The path a create asks for leads to one directory from either constructor. -/
theorem fits_create {fails : Access → Bool} {h h' : Hierarchy} {k : κ} {cgroup : Cgroup}
    (hrun : Cgroup.create fails h (request k).relative = (h', .ok cgroup)) :
    Fits request cgroup k := by
  obtain ⟨names, hrelative, -⟩ := relativePath_eq (request k).cgroupsPath (request k).valid
  have hpush : (request k).relative = pushAll "" names := hrelative
  rw [hpush] at hrun
  obtain ⟨hsame, hcopy⟩ := create_attach_agree hrun
  rw [Fits, Request.group, hcopy, hpush]
  exact ⟨hsame, rfl⟩

/-! ## What one change to the world preserves -/

section changes
variable {request} {w : World κ γ} {p q : κ ⊕ γ} {i j : Inside κ} {k : κ} {ops : List Op}

theorem uses_of_inside (hp : (w.party p).inside? = some i) : w.Uses i.container :=
  Or.inl ⟨p, by rw [hp]; rfl⟩

/-- Processes may come, go and move as long as nobody gains a stranger. -/
theorem Inv.withTable {table : Table (List Component) κ} (h : Inv request w)
    (howned : ∀ k, w.Uses k → table.Owned (request k).group k)
    (hlisted : ∀ p i, (w.party p).inside? = some i → ∀ pid, Op.signal pid ∈ i.ops →
      table.Holds pid i.container) :
    Inv request { w with table := table } :=
  { sound := fun p i hi => ⟨(h.sound p i hi).fits, hlisted p i hi⟩
    recorded := h.recorded
    owned := howned
    apart := h.apart
    signalled := h.signalled }

/-- A state file may be written for a container that is in use, and any may be removed. -/
theorem Inv.withRecords {records : List (Record κ)} (h : Inv request w)
    (hnew : ∀ r ∈ records, w.Uses r.container ∧
      components (Cgroup.attach r.cgroup).path = (request r.container).group) :
    Inv request { w with records := records } := by
  have huses : ∀ k, World.Uses { w with records := records } k → w.Uses k := by
    rintro k (hparty | hmem)
    · exact Or.inl hparty
    · obtain ⟨r, hr, rfl⟩ := List.mem_map.mp hmem
      exact (hnew r hr).1
  exact {
    sound := h.sound
    recorded := fun r hr => (hnew r hr).2
    owned := fun k hk => h.owned k (huses k hk)
    apart := fun k k' hk hk' => h.apart k k' (huses k hk) (huses k' hk')
    signalled := h.signalled }

theorem Inv.withHierarchy {hierarchy : Hierarchy}
    {procsAt : List Component → Option (List Component)} (h : Inv request w) :
    Inv request { w with hierarchy := hierarchy, procsAt := procsAt } :=
  ⟨h.sound, h.recorded, h.owned, h.apart, h.signalled⟩

theorem uses_of_record {r : Record κ} (hr : r ∈ w.records) : w.Uses r.container :=
  Or.inr (List.mem_map_of_mem hr)

theorem Inv.without (h : Inv request w) (dir : List Component) :
    Inv request { w with records := w.without request dir } :=
  h.withRecords fun r hr =>
    ⟨uses_of_record (List.mem_of_mem_filter hr), h.recorded r (List.mem_of_mem_filter hr)⟩

/-- The cgroup's list names processes of the container only. -/
theorem Inv.list (h : Inv request w) (hp : (w.party p).inside? = some i) {pid : Nat}
    (hpid : pid ∈ (w.table.members (components i.cgroup.path)).map Process.pid) :
    w.table.Holds pid i.container := by
  obtain ⟨process, hmem, rfl⟩ := List.mem_map.mp hpid
  rw [(h.sound p i hp).fits.1] at hmem
  exact (h.owned _ (uses_of_inside hp)).holds hmem

/-- A placement goes into the cgroup of the party's own container. -/
theorem Inv.place (h : Inv request w) (hp : (w.party p).inside? = some i) (pid : Nat) :
    Inv request { w with
      table := w.table.place pid (components i.cgroup.path) i.container } := by
  rw [(h.sound p i hp).fits.1]
  apply h.withTable
  · intro k hk
    apply (h.owned k hk).place
    intro hsame
    exact h.apart i.container k (uses_of_inside hp) hk hsame
  · intro q j hj listed hlisted
    exact ((h.sound q j hj).listed listed hlisted).place

/-- A move that is not a command's own keeps every cgroup in use to its container. -/
theorem Inv.migrate {pid : Nat} {group : List Component} (h : Inv request w)
    (hkeeps : w.Keeps request pid group) :
    Inv request { w with table := w.table.migrate pid group } := by
  apply h.withTable
  · exact fun k hk => (h.owned k hk).migrate (hkeeps k hk)
  · intro q j hj listed hlisted
    exact ((h.sound q j hj).listed listed hlisted).migrate

theorem Inv.save (h : Inv request w) (hp : (w.party p).inside? = some i) :
    Inv request { w with
      records := { container := i.container, cgroup := i.cgroup.relative } ::
        w.without request (request i.container).dir } := by
  apply h.withRecords
  intro r hr
  rcases List.mem_cons.mp hr with rfl | hold
  · exact ⟨uses_of_inside hp, (h.sound p i hp).fits.2⟩
  · have hmem := List.mem_of_mem_filter hold
    exact ⟨uses_of_record hmem, h.recorded r hmem⟩

theorem Inv.signal (h : Inv request w) (hp : (w.party p).inside? = some i) {pid : Nat}
    (hlisted : Op.signal pid ∈ i.ops) {process : Process (List Component) κ}
    (hfind : w.table.find pid = some process) :
    Inv request { w with
      signalled := { container := i.container, pid := pid, placedBy := process.placedBy } ::
        w.signalled } := by
  have hown : process.Of i.container := ((h.sound p i hp).listed pid hlisted).find hfind
  refine ⟨h.sound, h.recorded, h.owned, h.apart, ?_⟩
  intro s hs
  rcases List.mem_cons.mp hs with rfl | hold
  · exact hown
  · exact h.signalled s hold

variable [DecidableEq κ] [DecidableEq γ]

theorem setParty_self {stage : Stage κ} : (w.setParty p stage).party p = stage := by
  simp [World.setParty]

theorem setParty_other {stage : Stage κ} (hq : q ≠ p) :
    (w.setParty p stage).party q = w.party q := by
  simp [World.setParty, hq]

/-- A party may stop, or go on for a container that is in use. -/
theorem Inv.setParty {stage : Stage κ} (h : Inv request w)
    (hstage : ∀ i, stage.inside? = some i → w.Uses i.container ∧ Sound request w.table i) :
    Inv request (w.setParty p stage) := by
  have huses : ∀ k, (w.setParty p stage).Uses k → w.Uses k := by
    rintro k (⟨q, hq⟩ | hmem)
    · by_cases hqp : q = p
      · subst hqp
        rw [setParty_self] at hq
        obtain ⟨i, hi, rfl⟩ := Option.map_eq_some_iff.mp hq
        exact (hstage i hi).1
      · rw [setParty_other hqp] at hq
        exact Or.inl ⟨q, hq⟩
    · exact Or.inr hmem
  constructor
  case sound =>
    intro q i hi
    by_cases hqp : q = p
    · subst hqp
      rw [setParty_self] at hi
      exact (hstage i hi).2
    · rw [setParty_other hqp] at hi
      exact h.sound q i hi
  case recorded => exact h.recorded
  case owned => exact fun k hk => h.owned k (huses k hk)
  case apart => exact fun k k' hk hk' => h.apart k k' (huses k hk) (huses k' hk')
  case signalled => exact h.signalled

theorem Inv.stop {stage : Stage κ} (h : Inv request w) (hstage : stage.inside? = none) :
    Inv request (w.setParty p stage) :=
  h.setParty fun i hi => by rw [hstage] at hi; cases hi

theorem Inv.goOn (h : Inv request w) (huses : w.Uses i.container)
    (hfits : Fits request i.cgroup i.container)
    (hlisted : ∀ pid, Op.signal pid ∈ ops → w.table.Holds pid i.container) :
    Inv request (w.goOn p i ops) := by
  cases ops with
  | nil => exact h.stop rfl
  | cons op rest =>
      apply h.setParty
      intro j hj
      obtain rfl := Option.some.inj hj
      exact ⟨huses, hfits, hlisted⟩

end changes

/-! ## One event -/

section step
variable {request} [DecidableEq κ] [DecidableEq γ] {w w' : World κ γ} {p : κ ⊕ γ} {i : Inside κ}
  {k : κ}

theorem signal_mem_afterFault {pid : Nat} {rest : List Op} {command : Command} {op : Op}
    (h : Op.signal pid ∈ afterFault rest command op) : Op.signal pid ∈ rest := by
  cases command with
  | create =>
      cases op <;> simp_all [afterFault, createAfterFault, teardownProgram]
  | call c =>
      simp only [afterFault] at h
      unfold callAfterFault at h
      split at h
      all_goals first
        | exact h
        | exact (List.dropWhile_suffix _).mem h
        | cases h

theorem Inv.perform {op : Op} {rest : List Op} {pid : Nat} (h : Inv request w)
    (hp : (w.party p).inside? = some i) (hops : i.ops = op :: rest)
    (hkeeps : ∀ group ∈ w.migrates i, w.Keeps request pid group)
    (hdone : perform request w p i rest pid op = some w') : Inv request w' := by
  have hsound := h.sound p i hp
  have hrest : ∀ pid, Op.signal pid ∈ rest → w.table.Holds pid i.container := by
    intro pid hmem
    exact hsound.listed pid (hops ▸ List.mem_cons_of_mem op hmem)
  have hinside : ∀ {v : World κ γ}, v.party = w.party → v.Uses i.container := by
    intro v hv
    exact uses_of_inside (hv ▸ hp)
  cases op with
  | write file value =>
      simp only [Ownership.perform] at hdone
      split at hdone
      next group hmoves =>
        cases hdone
        have hgroup : group ∈ w.migrates i := by
          rw [World.migrates, hops]
          exact hmoves
        exact (h.migrate (hkeeps group hgroup)).goOn (hinside rfl) hsound.fits
          fun pid hmem => (hrest pid hmem).migrate
      next =>
        cases hdone
        exact h.goOn (hinside rfl) hsound.fits hrest
  | place =>
      simp only [Ownership.perform] at hdone
      split at hdone
      next =>
        cases hdone
        exact (h.place hp pid).goOn (hinside rfl) hsound.fits fun pid hmem => (hrest pid hmem).place
      next => cases hdone
  | save =>
      cases hdone
      exact (h.save hp).goOn (hinside rfl) hsound.fits hrest
  | list =>
      cases hdone
      apply h.goOn (hinside rfl) hsound.fits
      intro pid hmem
      rcases List.mem_append.mp hmem with hnew | hold
      · obtain ⟨listed, hlisted, heq⟩ := List.mem_map.mp hnew
        cases heq
        exact h.list hp hlisted
      · exact hrest pid hold
  | signal pid =>
      obtain ⟨process, hfind, rfl⟩ := Option.map_eq_some_iff.mp hdone
      have hlisted : Op.signal pid ∈ i.ops := hops ▸ List.mem_cons_self
      exact (h.signal hp hlisted hfind).goOn (hinside rfl) hsound.fits hrest
  | removeDir =>
      cases hdone
      exact (h.without _).goOn (hinside rfl) hsound.fits hrest
  | _ =>
      cases hdone
      exact h.goOn (hinside rfl) hsound.fits hrest

theorem Inv.act {fault : Bool} {pid : Nat} (h : Inv request w)
    (hp : (w.party p).inside? = some i) (hcareful : Careful request w (.act p fault pid)) :
    Inv request (act request w p i fault pid) := by
  unfold Ownership.act
  split
  next => exact h.stop rfl
  next op rest hops =>
    have hfault : Inv request (w.goOn p i (afterFault rest i.command op)) := by
      apply h.goOn (uses_of_inside hp) (h.sound p i hp).fits
      intro pid hmem
      exact (h.sound p i hp).listed pid
        (hops ▸ List.mem_cons_of_mem op (signal_mem_afterFault hmem))
    cases fault with
    | true => exact hfault
    | false =>
        simp only [Bool.false_eq_true, ↓reduceIte]
        cases hdone : Ownership.perform request w p i rest pid op with
        | none => exact hfault
        | some w' => exact h.perform hp hops (hcareful i hp) hdone

theorem no_signal_in_applyProgram {resources : LinuxResources} {pid : Nat} :
    Op.signal pid ∉ applyProgram resources := by
  simp [applyProgram]

theorem no_signal_in_createProgram {r : Request} {pid : Nat} :
    Op.signal pid ∉ createProgram r := by
  rw [createProgram]
  cases r.resources <;> simp [no_signal_in_applyProgram]

theorem no_signal_in_callProgram {status : Status} {frozen : Bool} {call : Call} {ops : List Op}
    {pid : Nat} (h : callProgram status frozen call = some ops) : Op.signal pid ∉ ops := by
  cases call with
  | killAll =>
      simp only [callProgram] at h
      split at h
      next => cases frozen <;> cases h <;> simp
      next => cases h
  | delete force =>
      simp only [callProgram] at h
      split at h
      next => cases h; simp
      next =>
        split at h
        next => cases frozen <;> cases h <;> simp
        next => cases h
  | exec ignorePaused =>
      simp only [callProgram] at h
      split at h
      next => cases h
      next =>
        split at h
        next => cases h
        next => cases h; simp
  | update resources =>
      simp only [callProgram] at h
      split at h
      next => cases h; exact no_signal_in_applyProgram
      next => cases h
  | run keep => cases keep <;> cases h <;> simp

theorem Inv.beginCall {g : γ} {call : Call} {dir : List Component} {status : Status}
    {frozen : Bool} (h : Inv request w) :
    Inv request (beginCall request w g call dir status frozen) := by
  unfold Ownership.beginCall
  split
  next r ops hload hprogram =>
    have hr : r ∈ w.records := List.mem_of_find?_eq_some hload
    have hfits : Fits request (Cgroup.attach r.cgroup) r.container :=
      ⟨h.recorded r hr, h.recorded r hr⟩
    have hlisted : ∀ pid, Op.signal pid ∈ ops → w.table.Holds pid r.container :=
      fun pid hmem => absurd hmem (no_signal_in_callProgram hprogram)
    exact h.goOn (uses_of_record hr) hfits hlisted
  next => exact h.stop rfl

/-- A party may take up a cgroup that is empty and that nobody else uses. -/
theorem Inv.use (h : Inv request w) (hfits : Fits request i.cgroup i.container)
    (hops : ∀ pid, Op.signal pid ∉ i.ops)
    (hempty : w.table.members (request i.container).group = [])
    (halone : ∀ k, w.Uses k → (request k).group = (request i.container).group →
      k = i.container) :
    Inv request (w.setParty p (.inside i)) := by
  have huses : ∀ {k}, (w.setParty p (.inside i)).Uses k → w.Uses k ∨ k = i.container := by
    rintro k (⟨q, hq⟩ | hmem)
    · by_cases hqp : q = p
      · subst hqp
        rw [setParty_self] at hq
        exact Or.inr (Option.some.inj hq).symm
      · rw [setParty_other hqp] at hq
        exact Or.inl (Or.inl ⟨q, hq⟩)
    · exact Or.inl (Or.inr hmem)
  constructor
  case sound =>
    intro q j hj
    by_cases hqp : q = p
    · subst hqp
      rw [setParty_self] at hj
      obtain rfl := Option.some.inj hj
      exact ⟨hfits, fun pid hmem => absurd hmem (hops pid)⟩
    · rw [setParty_other hqp] at hj
      exact h.sound q j hj
  case recorded => exact h.recorded
  case owned =>
    intro k hk
    rcases huses hk with hold | rfl
    · exact h.owned k hold
    · exact Table.owned_of_empty hempty
  case apart =>
    intro a b ha hb hsame
    rcases huses ha with ha | rfl
    · rcases huses hb with hb | rfl
      · exact h.apart a b ha hb hsame
      · exact halone a ha hsame
    · rcases huses hb with hb | rfl
      · exact (halone b hb hsame.symm).symm
      · rfl
  case signalled => exact h.signalled

theorem goOn_createProgram {r : Request} :
    w.goOn p i (createProgram r) = w.setParty p (.inside { i with ops := createProgram r }) := by
  have hne : createProgram r ≠ [] := by simp [createProgram]
  cases hops : createProgram r with
  | nil => exact absurd hops hne
  | cons op rest => rfl

theorem Inv.createCgroup {fails : Access → Bool} (h : Inv request w)
    (hcareful : Careful request w (.createCgroup k fails)) :
    Inv request (createCgroup request w k fails) := by
  unfold Ownership.createCgroup
  split
  next hierarchy error hrun =>
    have hremoved : Inv request { w with
        hierarchy := hierarchy, records := w.without request (request k).dir } :=
      (h.without (request k).dir).withHierarchy
    exact hremoved.stop rfl
  next hierarchy cgroup hrun =>
    obtain ⟨hempty, halone⟩ := hcareful (by rw [hrun]; rfl)
    have hlater : Inv request { w with hierarchy := hierarchy } := h.withHierarchy
    rw [goOn_createProgram]
    exact hlater.use (fits_create request hrun) (fun pid => no_signal_in_createProgram) hempty halone

theorem Inv.step {e : Event κ γ} (h : Inv request w) (hcareful : Careful request w e)
    (hstep : step request w e = some w') : Inv request w' := by
  cases e with
  | spawn parent child =>
      obtain ⟨table, hspawn, rfl⟩ := Option.map_eq_some_iff.mp hstep
      apply h.withTable
      · exact fun k hk => (h.owned k hk).spawn hspawn
      · intro p i hi pid hmem
        apply ((h.sound p i hi).listed pid hmem).spawn hspawn
        rintro rfl
        exact hcareful ⟨p, i, hi, hmem⟩
  | exit pid =>
      cases hstep
      apply h.withTable
      · exact fun k hk => (h.owned k hk).exit
      · exact fun p i hi listed hmem => ((h.sound p i hi).listed listed hmem).exit
  | migrate pid group =>
      cases hstep
      exact h.migrate hcareful
  | hierarchy hierarchy procsAt =>
      cases hstep
      exact h.withHierarchy
  | check k =>
      simp only [Ownership.step] at hstep
      split at hstep
      next =>
        split at hstep
        next => exact Option.some.inj hstep ▸ h.stop rfl
        next => exact Option.some.inj hstep ▸ h.stop rfl
      next => cases hstep
  | planFails k =>
      simp only [Ownership.step] at hstep
      split at hstep
      next => exact Option.some.inj hstep ▸ (h.without _).stop rfl
      next => cases hstep
  | createCgroup k fails =>
      simp only [Ownership.step] at hstep
      split at hstep
      next => exact Option.some.inj hstep ▸ h.createCgroup hcareful
      next => cases hstep
  | call g call layout id status frozen =>
      simp only [Ownership.step] at hstep
      split at hstep
      next => exact Option.some.inj hstep ▸ h.beginCall
      next => cases hstep
  | act p fault pid =>
      simp only [Ownership.step] at hstep
      split at hstep
      next i hi =>
        have hp : (w.party p).inside? = some i := by rw [hi]; rfl
        exact Option.some.inj hstep ▸ h.act hp hcareful
      next => cases hstep
  | die p =>
      simp only [Ownership.step] at hstep
      split at hstep
      next => exact Option.some.inj hstep ▸ h.stop rfl
      next => exact Option.some.inj hstep ▸ h.stop rfl
      next => cases hstep

end step

/-! ## Runs -/

/-- Where creates find their cgroups empty and unused, and no limit and nobody else
moves a stranger into one that is in use, every process that a command signals
through a cgroup was placed there for the command's own container, or descends
from one that was. -/
theorem careful_signals_own [DecidableEq κ] [DecidableEq γ] (hierarchy : Hierarchy)
    (host : Host κ) (events : List (Event κ γ)) (w : World κ γ)
    (hrun : Transition.run (step request) (start hierarchy host) events = some w)
    (hcareful : Transition.Along (step request) (Careful request) (start hierarchy host) events) :
    ∀ s ∈ w.signalled, s.container ∈ s.placedBy :=
  (Transition.run_invariant_along (fun _ _ _ h hok hstep => h.step hok hstep)
    (inv_start request hierarchy host) hrun hcareful).signalled

/-! ## Runs of two containers -/

def bare : Hierarchy where
  unified := true
  offered := []
  dirs := [components MOUNT_POINT]
  enabled := fun _ => []

/-- A path without links opens what its names say. -/
def plainProcsAt (path : List Component) : Option (List Component) :=
  match path.reverse with
  | .normal name :: dir => if name.text = "cgroup.procs" then some dir.reverse else none
  | _ => none

/-- A shell is all there is, in the root cgroup. -/
def shell (κ : Type) : Host κ where
  procsAt := plainProcsAt
  table := ⟨[⟨1, components MOUNT_POINT, []⟩], by simp⟩
  unplaced := by simp

/-- One create that succeeds, with this process as init. -/
def created {γ : Type} (k : Bool) (init : Nat) : List (Event Bool γ) :=
  [.check k, .createCgroup k fun _ => false, .act (.inl k) false 0, .spawn 1 init,
    .act (.inl k) false init, .act (.inl k) false 0, .act (.inl k) false 0, .act (.inl k) false 0]

/-- The freeze, the list and this many signals, with the first container on one root. -/
def killed (signals : Nat) : List (Event Bool Unit) :=
  .call () .killAll ⟨"/run/a"⟩ "c1" .running false ::
    List.replicate (2 + signals) (.act (.inr ()) false 0)

def apartRequest (k : Bool) : Request where
  layout := ⟨"/run/a"⟩
  id := if k then "c1" else "c2"
  cgroupsPath := none
  resources := none
  valid := by cases k <;> decide

/-- The first container forks once before it is killed. -/
def apartRun : List (Event Bool Unit) :=
  created true 10 ++ .spawn 10 11 :: created false 20 ++ killed 2

theorem apartRun_enabled :
    (Transition.run (step apartRequest) (start bare (shell Bool)) apartRun).isSome = true := by
  decide +kernel

theorem careful_signals_own_apart :
    ∃ w, Transition.run (step apartRequest) (start bare (shell Bool)) apartRun = some w ∧
      w.signalled = [⟨true, 10, [true]⟩, ⟨true, 11, [true]⟩] ∧
      ∀ s ∈ w.signalled, s.container ∈ s.placedBy :=
  ⟨_, (Option.some_get apartRun_enabled).symm, by decide +kernel,
    careful_signals_own apartRequest bare (shell Bool) apartRun _
      (Option.some_get apartRun_enabled).symm (by decide +kernel)⟩

/-- The same id on two runtime roots, and a path of separators. -/
def sameRequest (k : Bool) : Request where
  layout := ⟨if k then "/run/a" else "/run/b"⟩
  id := "c1"
  cgroupsPath := none
  resources := none
  valid := by decide

def slashRequest (_ : Bool) : Request where
  layout := ⟨"/run/a"⟩
  id := "c1"
  cgroupsPath := some "/"
  resources := none
  valid := by decide

def sameRun : List (Event Bool Unit) := created true 10 ++ created false 20 ++ killed 2

def slashRun : List (Event Bool Unit) := created true 10 ++ killed 2

/-- Killing one container reaches the init of another one with the same id, and
killing one whose path comes to nothing reaches the host's own processes. -/
theorem kill_reaches_another_container :
    (∃ w, Transition.run (step sameRequest) (start bare (shell Bool)) sameRun = some w ∧
      ∃ s ∈ w.signalled, s = ⟨true, 20, [false]⟩ ∧ s.container ∉ s.placedBy) ∧
    ∃ w, Transition.run (step slashRequest) (start bare (shell Bool)) slashRun = some w ∧
      ∃ s ∈ w.signalled, s = ⟨true, 1, []⟩ ∧ s.container ∉ s.placedBy := by
  have hsame : (Transition.run (step sameRequest) (start bare (shell Bool)) sameRun).any
      (fun w => decide (⟨true, 20, [false]⟩ ∈ w.signalled)) = true := by decide +kernel
  have hslash : (Transition.run (step slashRequest) (start bare (shell Bool)) slashRun).any
      (fun w => decide (⟨true, 1, []⟩ ∈ w.signalled)) = true := by decide +kernel
  obtain ⟨w, hw, hmem⟩ := (Option.any_eq_true _ _).mp hsame
  obtain ⟨v, hv, hhost⟩ := (Option.any_eq_true _ _).mp hslash
  exact ⟨⟨w, hw, _, of_decide_eq_true hmem, rfl, by simp⟩,
    ⟨v, hv, _, of_decide_eq_true hhost, rfl, by simp⟩⟩

end Mars.Ownership
