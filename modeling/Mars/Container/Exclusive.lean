import Mars.Core.Directory
import Mars.Core.Transition
import Mars.Error

/-! # Creates that share an id

The state file says that an id is taken, and it is written last. Several creates
on the same runtime root take their file-system steps in any order, and each
step may fail. A failing create cleans up by name.
-/

namespace Mars.Exclusive
open Directory

/-! ## Steps -/

/-- What a create puts into the container's directory. -/
inductive Entry where
  | stateFile
  | staged
  | execFifo
  deriving DecidableEq

instance : Fintype Entry := ⟨{.stateFile, .staged, .execFifo}, by rintro ⟨⟩ <;> simp⟩

/-- `build` and `spawn` without their file system are `plan`, `apply` and `fork`. -/
inductive CreateOp where
  | createDirAll
  | plan
  | createCgroup
  | apply
  | checkFifo
  | removeStale
  | mkfifo
  | chmod
  | openFifo
  | fork
  | handshake
  | saveDir
  | writeStaged
  | renameStaged
  | writePidFile
  deriving DecidableEq

inductive CleanupOp where
  | removeFifo
  | teardown
  | destroyCgroup
  | removeDirAll
  | unlink (entry : Entry)
  | rmdir
  deriving DecidableEq

inductive Op where
  | create (op : CreateOp)
  | cleanup (op : CleanupOp)
  deriving DecidableEq

def createProgram : List CreateOp :=
  [.createDirAll, .plan, .createCgroup, .apply, .checkFifo, .mkfifo, .chmod, .openFifo, .fork,
    .handshake, .saveDir, .writeStaged, .renameStaged, .writePidFile]

/-- The error paths of `create`, `build` and `spawn`. -/
def onError : CreateOp → List CleanupOp
  | .createDirAll => []
  | .plan => [.removeDirAll]
  | .createCgroup => [.removeDirAll]
  | .apply => [.destroyCgroup, .removeDirAll]
  | .checkFifo => [.destroyCgroup, .removeDirAll]
  | .removeStale => [.destroyCgroup, .removeDirAll]
  | .mkfifo => [.destroyCgroup, .removeDirAll]
  | .chmod => [.destroyCgroup, .removeDirAll]
  | .openFifo => [.destroyCgroup, .removeDirAll]
  | .fork => [.destroyCgroup, .removeDirAll]
  | .handshake => [.removeFifo, .teardown, .destroyCgroup, .removeDirAll]
  | .saveDir => [.removeFifo, .teardown, .destroyCgroup, .removeDirAll]
  | .writeStaged => [.removeFifo, .teardown, .destroyCgroup, .removeDirAll]
  | .renameStaged => [.removeFifo, .teardown, .destroyCgroup, .removeDirAll]
  | .writePidFile => [.removeFifo, .teardown, .destroyCgroup, .removeDirAll]

/-! ## The world -/

/-- Where one create stands. -/
inductive Create where
  | fresh
  | inside (ops : List Op) (error : Option Error)
  | returned (result : Except Error Unit)
  | died

def Create.IsInside (c : Create) : Prop := ∃ ops error, c = .inside ops error

instance (c : Create) : Decidable c.IsInside :=
  match c with
  | .fresh => isFalse nofun
  | .inside ops error => isTrue ⟨ops, error, rfl⟩
  | .returned _ => isFalse nofun
  | .died => isFalse nofun

/-- What a removal or a replacement took away: an entry, or the directory. -/
inductive Taken where
  | entry (entry : Entry)
  | directory
  deriving DecidableEq

structure Harm (ι : Type) where
  actor : ι
  owner : ι
  taken : Taken
  deriving DecidableEq

/-- What was there before has no owner. -/
structure World (ι : Type) where
  id : String
  dir : Dir Entry (Option ι)
  cgroup : Bool
  create : ι → Create
  harmed : List (Harm ι)

variable {ι : Type} [DecidableEq ι]

def World.setCreate (w : World ι) (i : ι) (c : Create) : World ι :=
  { w with create := Function.update w.create i c }

def harmOf (i : ι) (taken : Taken) (owners : List (Option ι)) : List (Harm ι) :=
  owners.filterMap fun owner => owner.map fun o => { actor := i, owner := o, taken := taken }

/-- The entry is taken away from whoever owns it. -/
def World.take (w : World ι) (i : ι) (entry : Entry) : World ι :=
  { w with harmed := harmOf i (.entry entry) (file w.dir entry).toList ++ w.harmed }

/-- What a step comes to: the steps that are left, or its failing. -/
inductive Outcome (ι : Type) where
  | done (w : World ι) (ops : List Op)
  | failed

def performCreate (w : World ι) (i : ι) (rest : List Op) : CreateOp → Outcome ι
  | .createDirAll => .done { w with dir := makeAll w.dir (some i) } rest
  | .createCgroup => .done { w with cgroup := true } rest
  | .checkFifo =>
      if (file w.dir .execFifo).isSome then .done w (.create .removeStale :: rest)
      else .done w rest
  | .removeStale =>
      if (file w.dir .execFifo).isSome then
        .done { w.take i .execFifo with dir := unlink w.dir .execFifo } rest
      else .failed
  | .mkfifo =>
      if w.dir.isSome ∧ (file w.dir .execFifo).isNone then
        .done { w with dir := put w.dir .execFifo (some i) } rest
      else .failed
  | .chmod => if (file w.dir .execFifo).isSome then .done w rest else .failed
  | .openFifo => if (file w.dir .execFifo).isSome then .done w rest else .failed
  | .saveDir => .done { w with dir := makeAll w.dir (some i) } rest
  | .writeStaged =>
      if w.dir.isSome then
        .done { w.take i .staged with dir := put w.dir .staged (some i) } rest
      else .failed
  | .renameStaged =>
      if (file w.dir .staged).isSome then
        .done { w.take i .stateFile with dir := rename w.dir .staged .stateFile } rest
      else .failed
  | _ => .done w rest

/-- `entries` is what the removal of the directory finds in it. -/
def performCleanup (w : World ι) (i : ι) (entries : List Entry) (rest : List Op) :
    CleanupOp → Outcome ι
  | .removeFifo => .done { w.take i .execFifo with dir := unlink w.dir .execFifo } rest
  | .destroyCgroup => .done { w with cgroup := false } rest
  | .removeDirAll =>
      if w.dir.isSome then
        .done w (entries.map (.cleanup ∘ .unlink) ++ .cleanup .rmdir :: rest)
      else .failed
  | .unlink entry => .done { w.take i entry with dir := unlink w.dir entry } rest
  | .rmdir =>
      if IsEmpty w.dir then
        .done { w with dir := none
                       harmed := harmOf i .directory (users w.dir) ++ w.harmed } rest
      else .failed
  | _ => .done w rest

/-! ## Runs -/

/-- `loaded` is the status of the container that has the id, if it loads. -/
inductive Event (ι : Type) where
  | check (i : ι) (loaded : Except Error Bool)
  | act (i : ι) (fault : Option Error) (entries : List Entry)
  | die (i : ι)

def takenError (id : String) (stopped : Bool) : Error :=
  if stopped then
    .alreadyExists (id ++ "; it is stopped but not deleted, run `mars delete " ++ id ++ "` first")
  else .alreadyExists id

def check (w : World ι) (i : ι) (loaded : Except Error Bool) : World ι :=
  if (file w.dir .stateFile).isSome then
    w.setCreate i (.returned (loaded.bind fun stopped => .error (takenError w.id stopped)))
  else w.setCreate i (.inside (createProgram.map .create) none)

/-- After an error of its own a create only cleans up, and an error of the
cleanup is ignored. One inside the removal of the directory ends the removal. -/
def fail (w : World ι) (i : ι) (rest : List Op) (failure : Error) (error : Option Error) :
    Op → World ι
  | .create op => w.setCreate i (.inside ((onError op).map .cleanup) (some failure))
  | .cleanup (.unlink _) => w.setCreate i (.inside [] error)
  | .cleanup _ => w.setCreate i (.inside rest error)

def act (w : World ι) (i : ι) (ops : List Op) (error : Option Error) (fault : Option Error)
    (entries : List Entry) : World ι :=
  match ops with
  | [] => w.setCreate i (.returned (match error with
      | some error => .error error
      | none => .ok ()))
  | op :: rest =>
      match fault with
      | some failure => fail w i rest failure error op
      | none =>
          match (match op with
            | .create op => performCreate w i rest op
            | .cleanup op => performCleanup w i entries rest op) with
          | .done next ops => next.setCreate i (.inside ops error)
          | .failed => fail w i rest .syscall error op

def step (w : World ι) : Event ι → Option (World ι)
  | .check i loaded =>
      match w.create i with
      | .fresh => some (check w i loaded)
      | _ => none
  | .act i fault entries =>
      match w.create i with
      | .inside ops error => some (act w i ops error fault entries)
      | _ => none
  | .die i =>
      match w.create i with
      | .inside _ _ => some (w.setCreate i .died)
      | _ => none

/-- Nobody has begun. Files may be left over from before. -/
def start (id : String) (left : Option (List Entry)) (cgroup : Bool) : World ι where
  id := id
  dir := left.map fun entries =>
    { users := [none], file := fun n => if n ∈ entries then some none else none }
  cgroup := cgroup
  create := fun _ => .fresh
  harmed := []

/-! ## What the creates do to one another -/

/-- At most one create succeeds, and one that fails has taken nothing from it. -/
structure Exclusion (w : World ι) : Prop where
  one : ∀ i j, w.create i = .returned (.ok ()) → w.create j = .returned (.ok ()) → i = j
  kept : ∀ harm ∈ w.harmed, ∀ error, w.create harm.actor = .returned (.error error) →
    w.create harm.owner ≠ .returned (.ok ())

/-- A create gets past its check only while no other is past its own and has
not returned. -/
def Careful (w : World ι) : Event ι → Prop
  | .check i _ =>
      (file w.dir .stateFile).isSome = true ∨ ∀ j, j ≠ i → ¬(w.create j).IsInside
  | _ => True

instance [Fintype ι] (w : World ι) (e : Event ι) : Decidable (Careful w e) := by
  cases e <;> unfold Careful <;> infer_instance

/-- A create that has come to nothing. -/
def Create.Failed (c : Create) : Prop := c = .died ∨ ∃ error, c = .returned (.error error)

structure Alone (w : World ι) : Prop where
  inside : ∀ i j, (w.create i).IsInside → (w.create j).IsInside → i = j
  one : ∀ i j, w.create i = .returned (.ok ()) → w.create j = .returned (.ok ()) → i = j
  taken : ∀ i, w.create i = .returned (.ok ()) →
    (file w.dir .stateFile).isSome = true ∧ ∀ j, ¬(w.create j).IsInside
  begun : ∀ o, Has w.dir (some o) → w.create o ≠ .fresh
  harm : ∀ harm ∈ w.harmed, harm.actor ≠ harm.owner → (w.create harm.owner).Failed
  saved : ∀ i ops, w.create i = .inside ops none →
    (∀ op ∈ ops, ∃ c, op = .create c) ∧
      (.create .renameStaged ∈ ops ∨ (file w.dir .stateFile).isSome = true)

omit [DecidableEq ι] in
theorem alone_start (id : String) (left : Option (List Entry)) (cgroup : Bool) :
    Alone (start id left cgroup : World ι) where
  inside := by
    rintro i j ⟨ops, error, h⟩
    cases h
  one := nofun
  taken := nofun
  begun := by
    rintro o (huser | ⟨n, hfile⟩)
    · cases left <;> simp [start, users] at huser
    · cases left with
      | none => cases hfile
      | some entries => simp [start, file] at hfile
  harm := nofun
  saved := nofun

omit [DecidableEq ι] in
theorem Alone.exclusion {w : World ι} (h : Alone w) : Exclusion w where
  one := h.one
  kept := by
    intro harm hmem error hactor howner
    by_cases hself : harm.actor = harm.owner
    · rw [hself, howner] at hactor
      cases hactor
    · rcases h.harm harm hmem hself with hdied | ⟨error, herror⟩
      · rw [hdied] at howner
        cases howner
      · rw [herror] at howner
        cases howner

/-! ## What a step does -/

/-- A step of `i` puts in place what is `i`'s, and takes from whoever has something. -/
structure Effect (w : World ι) (i : ι) (next : World ι) : Prop where
  create : next.create = w.create
  has : ∀ o, Has next.dir (some o) → Has w.dir (some o) ∨ o = i
  harm : ∀ harm ∈ next.harmed, harm ∈ w.harmed ∨ harm.actor = i ∧ Has w.dir (some harm.owner)

section effects
variable {w next : World ι} {i : ι} {rest ops : List Op} {entries : List Entry}

omit [DecidableEq ι] in
theorem mem_harmOf {taken : Taken} {owners : List (Option ι)} {harm : Harm ι}
    (h : harm ∈ harmOf i taken owners) : harm.actor = i ∧ some harm.owner ∈ owners := by
  obtain ⟨owner, howner, heq⟩ := List.mem_filterMap.mp h
  obtain ⟨o, rfl, rfl⟩ := Option.map_eq_some_iff.mp heq
  exact ⟨rfl, howner⟩

omit [DecidableEq ι] in
theorem mem_take {entry : Entry} {harm : Harm ι} (h : harm ∈ (w.take i entry).harmed) :
    harm ∈ w.harmed ∨ harm.actor = i ∧ Has w.dir (some harm.owner) := by
  rcases List.mem_append.mp h with hnew | hold
  · obtain ⟨hactor, howner⟩ := mem_harmOf hnew
    exact Or.inr ⟨hactor, has_of_file (Option.mem_toList.mp howner)⟩
  · exact Or.inl hold

omit [DecidableEq ι] in
theorem effect_self : Effect w i w := ⟨rfl, fun _ h => Or.inl h, fun _ h => Or.inl h⟩

omit [DecidableEq ι] in
theorem effect_makeAll : Effect w i { w with dir := makeAll w.dir (some i) } :=
  ⟨rfl, fun _ h => (has_makeAll h).imp_right Option.some.inj, fun _ h => Or.inl h⟩

omit [DecidableEq ι] in
theorem effect_unlink (entry : Entry) :
    Effect w i { w.take i entry with dir := unlink w.dir entry } :=
  ⟨rfl, fun _ h => Or.inl (has_unlink h), fun _ h => mem_take h⟩

omit [DecidableEq ι] in
theorem performCreate_done {op : CreateOp} (h : performCreate w i rest op = .done next ops) :
    Effect w i next := by
  cases op with
  | createDirAll =>
      cases h
      exact effect_makeAll
  | saveDir =>
      cases h
      exact effect_makeAll
  | createCgroup =>
      cases h
      exact ⟨rfl, fun _ h => Or.inl h, fun _ h => Or.inl h⟩
  | checkFifo =>
      simp only [performCreate] at h
      split at h <;> cases h <;> exact effect_self
  | removeStale =>
      simp only [performCreate] at h
      split at h <;> cases h
      exact effect_unlink .execFifo
  | mkfifo =>
      simp only [performCreate] at h
      split at h <;> cases h
      exact ⟨rfl, fun _ h => (has_put h).imp_right Option.some.inj, fun _ h => Or.inl h⟩
  | chmod =>
      simp only [performCreate] at h
      split at h <;> cases h
      exact effect_self
  | openFifo =>
      simp only [performCreate] at h
      split at h <;> cases h
      exact effect_self
  | writeStaged =>
      simp only [performCreate] at h
      split at h <;> cases h
      exact ⟨rfl, fun _ h => (has_put h).imp_right Option.some.inj, fun _ h => mem_take h⟩
  | renameStaged =>
      simp only [performCreate] at h
      split at h <;> cases h
      exact ⟨rfl, fun _ h => Or.inl (has_rename h), fun _ h => mem_take h⟩
  | _ =>
      cases h
      exact effect_self

omit [DecidableEq ι] in
theorem performCleanup_done {op : CleanupOp}
    (h : performCleanup w i entries rest op = .done next ops) : Effect w i next := by
  cases op with
  | removeFifo =>
      cases h
      exact effect_unlink .execFifo
  | destroyCgroup =>
      cases h
      exact ⟨rfl, fun _ h => Or.inl h, fun _ h => Or.inl h⟩
  | unlink entry =>
      cases h
      exact effect_unlink entry
  | removeDirAll =>
      simp only [performCleanup] at h
      split at h <;> cases h
      exact effect_self
  | rmdir =>
      simp only [performCleanup] at h
      split at h <;> cases h
      refine ⟨rfl, ?_, ?_⟩
      · rintro o (huser | ⟨n, hfile⟩)
        · cases huser
        · cases hfile
      · intro harm hmem
        rcases List.mem_append.mp hmem with hnew | hold
        · obtain ⟨hactor, howner⟩ := mem_harmOf hnew
          exact Or.inr ⟨hactor, Or.inl howner⟩
        · exact Or.inl hold
  | _ =>
      cases h
      exact effect_self

omit [DecidableEq ι] in
/-- A create that goes well keeps to its program and does not lose a state file. -/
theorem performCreate_saved {op : CreateOp} (h : performCreate w i rest op = .done next ops) :
    (∀ x ∈ ops, x ∈ rest ∨ ∃ c, x = .create c) ∧ (∀ x ∈ rest, x ∈ ops) ∧
      ((file w.dir .stateFile).isSome = true → (file next.dir .stateFile).isSome = true) ∧
      (op = .renameStaged → (file next.dir .stateFile).isSome = true) := by
  cases op with
  | checkFifo =>
      simp only [performCreate] at h
      split at h <;> cases h <;> simp +contextual
  | removeStale =>
      simp only [performCreate] at h
      split at h <;> cases h
      simp +contextual [file_unlink]
  | mkfifo =>
      simp only [performCreate] at h
      split at h <;> cases h
      simp +contextual [file_put]
  | chmod =>
      simp only [performCreate] at h
      split at h <;> cases h
      simp +contextual
  | openFifo =>
      simp only [performCreate] at h
      split at h <;> cases h
      simp +contextual
  | writeStaged =>
      simp only [performCreate] at h
      split at h <;> cases h
      simp +contextual [file_put]
  | renameStaged =>
      simp only [performCreate] at h
      split at h
      next hstaged =>
        cases h
        simp +contextual [file_rename, hstaged]
      next => cases h
  | _ =>
      cases h
      simp +contextual

end effects

/-! ## One event -/

section step
variable {w w' next : World ι} {i j : ι} {c : Create}

theorem setCreate_self : (w.setCreate i c).create i = c := by simp [World.setCreate]

theorem setCreate_other (h : j ≠ i) : (w.setCreate i c).create j = w.create j := by
  simp [World.setCreate, h]

omit [DecidableEq ι] in
/-- While one create is inside nobody else is, and nobody has succeeded. -/
theorem Alone.others (h : Alone w) (hi : (w.create i).IsInside) (hj : j ≠ i) :
    ¬(w.create j).IsInside ∧ w.create j ≠ .returned (.ok ()) :=
  ⟨fun hinside => hj (h.inside j i hinside hi), fun hok => (h.taken j hok).2 i hi⟩

omit [DecidableEq ι] in
theorem Alone.failed_of_begun (h : Alone w) (hi : (w.create i).IsInside) (hj : j ≠ i)
    (hbegun : w.create j ≠ .fresh) : (w.create j).Failed := by
  obtain ⟨hinside, hok⟩ := h.others hi hj
  cases hc : w.create j with
  | fresh => exact absurd hc hbegun
  | inside ops error => exact absurd ⟨ops, error, hc⟩ hinside
  | died => exact Or.inl rfl
  | returned result =>
      cases result with
      | ok => exact absurd hc hok
      | error error => exact Or.inr ⟨error, rfl⟩

theorem Create.Failed.not_inside (h : c.Failed) : ¬c.IsInside := by
  rintro ⟨ops, error, rfl⟩
  rcases h with h | ⟨e, h⟩ <;> cases h

/-- Whatever the one create that is inside does, it stays the only one. -/
theorem Alone.advance (h : Alone w) (hi : (w.create i).IsInside) (heffect : Effect w i next)
    (hc : c ≠ .fresh)
    (hok : c = .returned (.ok ()) → (file next.dir .stateFile).isSome = true)
    (hsaved : ∀ ops, c = .inside ops none → (∀ op ∈ ops, ∃ x, op = .create x) ∧
      (.create .renameStaged ∈ ops ∨ (file next.dir .stateFile).isSome = true)) :
    Alone (next.setCreate i c) := by
  have hsame : ∀ {j}, j ≠ i → (next.setCreate i c).create j = w.create j := by
    intro j hj
    rw [setCreate_other hj, heffect.create]
  have honly : ∀ {j}, ((next.setCreate i c).create j).IsInside → j = i := by
    intro j hinside
    by_contra hj
    rw [hsame hj] at hinside
    exact (h.others hi hj).1 hinside
  have hdone : ∀ {j}, (next.setCreate i c).create j = .returned (.ok ()) → j = i := by
    intro j hreturned
    by_contra hj
    rw [hsame hj] at hreturned
    exact (h.others hi hj).2 hreturned
  constructor
  case inside => exact fun j k hj hk => (honly hj).trans (honly hk).symm
  case one => exact fun j k hj hk => (hdone hj).trans (hdone hk).symm
  case taken =>
    intro j hj
    obtain rfl := hdone hj
    rw [setCreate_self] at hj
    refine ⟨hok hj, fun k hk => ?_⟩
    obtain rfl := honly hk
    rw [setCreate_self, hj] at hk
    obtain ⟨ops, error, hk⟩ := hk
    cases hk
  case begun =>
    intro o ho
    by_cases hoi : o = i
    · subst hoi
      rwa [setCreate_self]
    · rw [hsame hoi]
      exact h.begun o ((heffect.has o ho).resolve_right hoi)
  case harm =>
    intro harm hmem hne
    rcases heffect.harm harm hmem with hold | ⟨rfl, howner⟩
    · have hfailed := h.harm harm hold hne
      have hoi : harm.owner ≠ i := by
        rintro rfl
        exact hfailed.not_inside hi
      rwa [hsame hoi]
    · rw [hsame hne.symm]
      exact h.failed_of_begun hi hne.symm (h.begun _ howner)
  case saved =>
    intro j ops hj
    obtain rfl := honly ⟨ops, none, hj⟩
    rw [setCreate_self] at hj
    exact hsaved ops hj

/-- A failing create is on its way to an error. -/
theorem Alone.fail {rest : List Op} {failure : Error} {error : Option Error} {op : Op}
    (h : Alone w) (hi : w.create i = .inside (op :: rest) error) :
    Alone (fail w i rest failure error op) := by
  have hinside : (w.create i).IsInside := ⟨_, _, hi⟩
  have herror : ∀ c, op = .cleanup c → error ≠ none := by
    rintro c rfl rfl
    obtain ⟨x, hx⟩ := (h.saved i _ hi).1 _ List.mem_cons_self
    cases hx
  have hstop : ∀ c, op = .cleanup c → ∀ ops, Alone (w.setCreate i (.inside ops error)) := by
    intro c hop ops
    apply h.advance hinside effect_self (by nofun) (by nofun)
    intro ops' heq
    cases heq
    exact absurd rfl (herror c hop)
  cases op with
  | create op => exact h.advance hinside effect_self (by nofun) (by nofun) (by nofun)
  | cleanup op =>
      cases op with
      | unlink entry => exact hstop _ rfl _
      | _ => exact hstop _ rfl _

theorem Alone.act {ops : List Op} {error fault : Option Error} {entries : List Entry}
    (h : Alone w) (hi : w.create i = .inside ops error) :
    Alone (act w i ops error fault entries) := by
  have hinside : (w.create i).IsInside := ⟨_, _, hi⟩
  unfold Exclusive.act
  cases ops with
  | nil =>
      show Alone (w.setCreate i (.returned _))
      apply h.advance hinside effect_self (by nofun)
      · intro heq
        cases error with
        | some error => cases heq
        | none => simpa using (h.saved i [] hi).2
      · nofun
  | cons op rest =>
      cases fault with
      | some failure => exact h.fail hi
      | none =>
          cases op with
          | create op =>
              dsimp only
              split
              next next ops hdone =>
                obtain ⟨hops, hrest, hkept, hrename⟩ := performCreate_saved hdone
                apply h.advance hinside (performCreate_done hdone) (by nofun) (by nofun)
                intro ops' heq
                cases heq
                obtain ⟨hcreate, hfile⟩ := h.saved i _ hi
                constructor
                · intro x hx
                  rcases hops x hx with hx | hx
                  · exact hcreate x (List.mem_cons_of_mem _ hx)
                  · exact hx
                · rcases hfile with hmem | hfile
                  · rcases List.mem_cons.mp hmem with heq | hmem
                    · exact Or.inr (hrename (Op.create.inj heq).symm)
                    · exact Or.inl (hrest _ hmem)
                  · exact Or.inr (hkept hfile)
              next => exact h.fail hi
          | cleanup op =>
              dsimp only
              split
              next next ops hdone =>
                apply h.advance hinside (performCleanup_done hdone) (by nofun) (by nofun)
                intro ops' heq
                cases heq
                obtain ⟨x, hx⟩ := (h.saved i _ hi).1 _ List.mem_cons_self
                cases hx
              next => exact h.fail hi

/-- A create that has not begun may be refused, or go in where nobody else is. -/
theorem Alone.begin (h : Alone w) (hi : w.create i = .fresh) (hc : c ≠ .fresh)
    (hok : c ≠ .returned (.ok ()))
    (hinside : c.IsInside → (file w.dir .stateFile).isSome = false ∧
      ∀ j, j ≠ i → ¬(w.create j).IsInside)
    (hsaved : ∀ ops, c = .inside ops none →
      (∀ op ∈ ops, ∃ x, op = .create x) ∧ .create .renameStaged ∈ ops) :
    Alone (w.setCreate i c) := by
  have hreturned : ∀ {j}, (w.setCreate i c).create j = .returned (.ok ()) →
      w.create j = .returned (.ok ()) := by
    intro j hj
    by_cases hji : j = i
    · subst hji
      rw [setCreate_self] at hj
      exact absurd hj hok
    · rwa [setCreate_other hji] at hj
  constructor
  case inside =>
    intro j k hj hk
    by_cases hci : c.IsInside
    · have honly : ∀ {j}, ((w.setCreate i c).create j).IsInside → j = i := by
        intro j hj
        by_contra hji
        rw [setCreate_other hji] at hj
        exact (hinside hci).2 j hji hj
      exact (honly hj).trans (honly hk).symm
    · have hold : ∀ {j}, ((w.setCreate i c).create j).IsInside → (w.create j).IsInside := by
        intro j hj
        by_cases hji : j = i
        · subst hji
          rw [setCreate_self] at hj
          exact absurd hj hci
        · rwa [setCreate_other hji] at hj
      exact h.inside j k (hold hj) (hold hk)
  case one => exact fun j k hj hk => h.one j k (hreturned hj) (hreturned hk)
  case taken =>
    intro j hj
    obtain ⟨hfile, hnone⟩ := h.taken j (hreturned hj)
    refine ⟨hfile, fun k hk => ?_⟩
    by_cases hki : k = i
    · subst hki
      rw [setCreate_self] at hk
      rw [(hinside hk).1] at hfile
      cases hfile
    · rw [setCreate_other hki] at hk
      exact hnone k hk
  case begun =>
    intro o ho
    by_cases hoi : o = i
    · subst hoi
      rwa [setCreate_self]
    · rw [setCreate_other hoi]
      exact h.begun o ho
  case harm =>
    intro harm hmem hne
    have hfailed := h.harm harm hmem hne
    have hoi : harm.owner ≠ i := by
      rintro rfl
      rw [hi] at hfailed
      rcases hfailed with hfailed | ⟨error, hfailed⟩ <;> cases hfailed
    rwa [setCreate_other hoi]
  case saved =>
    intro j ops hj
    by_cases hji : j = i
    · subst hji
      rw [setCreate_self] at hj
      exact ⟨(hsaved ops hj).1, Or.inl (hsaved ops hj).2⟩
    · rw [setCreate_other hji] at hj
      exact h.saved j ops hj

theorem Alone.check {loaded : Except Error Bool} (h : Alone w) (hi : w.create i = .fresh)
    (hcareful : Careful w (.check i loaded)) : Alone (check w i loaded) := by
  unfold Exclusive.check
  split
  next hfile =>
    apply h.begin hi (by nofun)
    · cases loaded <;> nofun
    · rintro ⟨ops, error, heq⟩
      cases heq
    · nofun
  next hfile =>
    have hnone := hcareful.resolve_left hfile
    apply h.begin hi (by nofun) (by nofun)
    · exact fun _ => ⟨by simpa using hfile, hnone⟩
    · intro ops heq
      cases heq
      simp [createProgram]

theorem Alone.step {e : Event ι} (h : Alone w) (hcareful : Careful w e)
    (hstep : step w e = some w') : Alone w' := by
  cases e with
  | check i loaded =>
      simp only [Exclusive.step] at hstep
      split at hstep
      next hi => exact Option.some.inj hstep ▸ h.check hi hcareful
      next => cases hstep
  | act i fault entries =>
      simp only [Exclusive.step] at hstep
      split at hstep
      next ops error hi => exact Option.some.inj hstep ▸ h.act hi
      next => cases hstep
  | die i =>
      simp only [Exclusive.step] at hstep
      split at hstep
      next ops error hi =>
        exact Option.some.inj hstep ▸
          h.advance ⟨ops, error, hi⟩ effect_self (by nofun) (by nofun) (by nofun)
      next => cases hstep

end step

/-! ## Runs -/

/-- Where creates keep out of one another's way, at most one of them succeeds,
and one that fails takes nothing from it. -/
theorem careful_creates_exclusive (id : String) (left : Option (List Entry)) (cgroup : Bool)
    (events : List (Event ι)) (w : World ι)
    (hrun : Transition.run step (start id left cgroup) events = some w)
    (hcareful : Transition.Along step Careful (start id left cgroup) events) : Exclusion w :=
  (Transition.run_invariant_along (fun _ _ _ h hok hstep => h.step hok hstep)
    (alone_start id left cgroup) hrun hcareful).exclusion

/-! ## Runs of two creates -/

def acts (i : Bool) (n : Nat) : List (Event Bool) := List.replicate n (.act i none [])

/-- One create finds no rootfs and cleans up, and then the other goes through. -/
def inTurnRun : List (Event Bool) :=
  .check false (.ok false) :: acts false 1 ++
    .act false (some (.rootfsMissing "/bundle/rootfs")) [] :: acts false 3 ++
      .check true (.ok false) :: acts true 15

/-- Both are past the check before either has begun, and both go through. -/
def bothRun : List (Event Bool) :=
  .check true (.ok false) :: .check false (.ok false) :: acts true 15 ++ acts false 16

/-- The same, but the second one finds no rootfs once the first one is done. -/
def removedRun : List (Event Bool) :=
  .check true (.ok false) :: .check false (.ok false) :: acts true 15 ++ acts false 1 ++
    .act false (some (.rootfsMissing "/bundle/rootfs")) [] ::
    .act false none [.execFifo, .stateFile] :: acts false 4

def runOf (events : List (Event Bool)) : Option (World Bool) :=
  Transition.run step (start "c1" none false) events

theorem inTurnRun_enabled : (runOf inTurnRun).isSome = true := by decide

theorem careful_creates_exclusive_in_turn :
    (∃ w, runOf inTurnRun = some w ∧ Exclusion w) ∧
      (runOf inTurnRun).map (fun w => (w.create true, (file w.dir .stateFile).isSome)) =
        some (.returned (.ok ()), true) := by
  constructor
  · have hrun : runOf inTurnRun = some (Option.get _ inTurnRun_enabled) :=
      (Option.some_get inTurnRun_enabled).symm
    exact ⟨_, hrun, careful_creates_exclusive "c1" none false inTurnRun _ hrun (by decide)⟩
  · rfl

theorem bothRun_enabled : (runOf bothRun).isSome = true := by decide

theorem removedRun_enabled : (runOf removedRun).isSome = true := by decide

/-- Two creates of one id both succeed, and one that fails removes the whole
directory of the one that has succeeded. -/
theorem racing_creates_not_exclusive :
    (∃ w, runOf bothRun = some w ∧ w.create true = .returned (.ok ()) ∧
      w.create false = .returned (.ok ()) ∧ ¬Exclusion w) ∧
    ∃ w, runOf removedRun = some w ∧ w.create true = .returned (.ok ()) ∧
      w.create false = .returned (.error (.rootfsMissing "/bundle/rootfs")) ∧ w.dir = none ∧
      ¬Exclusion w := by
  have hboth : runOf bothRun = some (Option.get _ bothRun_enabled) :=
    (Option.some_get bothRun_enabled).symm
  have hremoved : runOf removedRun = some (Option.get _ removedRun_enabled) :=
    (Option.some_get removedRun_enabled).symm
  refine ⟨⟨_, hboth, rfl, rfl, ?_⟩, _, hremoved, rfl, rfl, rfl, ?_⟩
  · intro hexclusion
    cases hexclusion.one true false rfl rfl
  · intro hexclusion
    have hharm : { actor := false, owner := true, taken := .entry .stateFile } ∈
        (Option.get _ removedRun_enabled).harmed := by
      decide
    exact hexclusion.kept _ hharm _ rfl rfl

end Mars.Exclusive
