import Mars.Cgroup.Inverse
import Mars.Core.Transition

/-! # Two commands in one hierarchy

The accesses of `create` and the `rmdir`s of `destroy`, one at a time. Each reads the tree
as it is at its turn and carries what it has read. A container is created while another
one, with another id, is created or destroyed next to it.
-/

namespace Mars.V2
open UnixPath

/-! ## The steps of create -/

/-- Where `create` stands: in `current`, on its way to `name` and the names behind it. -/
inductive Creating where
  | reading (current : String) (name : Name) (rest : List Name)
  | comparing (current : String) (name : Name) (rest : List Name) (available : List String)
  | enabling (current : String) (name : Name) (rest : List Name) (missing : List String)
  | checking (current : String) (name : Name) (rest : List Name)
  | making (current : String) (name : Name) (rest : List Name)
  | returned (result : Except Error String)

namespace Creating

/-- The loop goes on, or is over. -/
def enter (current : String) : List Name → Creating
  | [] => .returned (.ok current)
  | name :: rest => .reading current name rest

/-- The access of the next step, where the kernel may refuse it. -/
def access : Creating → Option Access
  | .reading current _ _ => some (.readControllers (components current))
  | .comparing current _ _ _ => some (.readSubtreeControl (components current))
  | .enabling current _ _ _ => some (.writeSubtreeControl (components current))
  | .checking _ _ _ => none
  | .making current name _ => some (.createDir (components (join current name.text)))
  | .returned _ => none

def step (refused : Bool) (h : Hierarchy) : Creating → Hierarchy × Creating
  | .reading current name rest =>
      if refused || !h.isDir current then
        (h, .returned (.error (.io ("read " ++ join current "cgroup.controllers"))))
      else (h, .comparing current name rest (h.controllers (components current)))
  | .comparing current name rest available =>
      let enabled := if refused || !h.isDir current then [] else h.enabled (components current)
      let missing := WANTED.filter fun wanted =>
        available.contains wanted && !enabled.contains wanted
      if missing = [] then (h, .checking current name rest)
      else (h, .enabling current name rest missing)
  | .enabling current name rest missing =>
      if refused || !h.isDir current then
        (h, .returned (.error (.io ("enable controllers " ++ debugList (missing.map ("+" ++ ·)) ++
          " in " ++ join current "cgroup.subtree_control"))))
      else (h.enable (components current) missing, .checking current name rest)
  | .checking current name rest =>
      if h.isDir (join current name.text) then (h, enter (join current name.text) rest)
      else (h, .making current name rest)
  | .making current name rest =>
      let next := join current name.text
      if refused || h.isDir next || !h.isDir current then
        (h, .returned (.error (.io ("create cgroup " ++ next))))
      else (h.mkdir (components next), enter next rest)
  | .returned result => (h, .returned result)

end Creating

/-! ## The steps of destroy -/

inductive Destroying where
  | removing (attempt : Nat)
  | trimming
  | ended (result : Except Error Unit)

namespace Destroying

/-- What comes once the leaf is gone. -/
def trim (cgroup : Cgroup) : Destroying :=
  match parent (components cgroup.path) with
  | none => .ended (.ok ())
  | some above => if above ≠ components MOUNT_POINT then .trimming else .ended (.ok ())

def step (occupied : List Component → Bool) (cgroup : Cgroup) (answer : Option Errno)
    (h : Hierarchy) : Destroying → Hierarchy × Destroying
  | .removing attempt =>
      match h.rmdir occupied answer (components cgroup.path) with
      | .ok h => (h, trim cgroup)
      | .error errno =>
          if errno = .busy ∧ attempt < 49 then (h, .removing (attempt + 1))
          else (h, .ended (.error (.io ("remove cgroup " ++ cgroup.path))))
  | .trimming =>
      match h.rmdir occupied answer (components cgroup.path).dropLast with
      | .ok h => (h, .ended (.ok ()))
      | .error _ => (h, .ended (.ok ()))
  | .ended result => (h, .ended result)

end Destroying

/-! ## Both at once -/

inductive Other where
  | creating (phase : Creating)
  | destroying (occupied : List Component → Bool) (cgroup : Cgroup) (phase : Destroying)

def Other.step (answer : Option Errno) (h : Hierarchy) : Other → Hierarchy × Other
  | .creating phase => (phase.step answer.isSome h).map id .creating
  | .destroying occupied cgroup phase =>
      (phase.step occupied cgroup answer h).map id (.destroying occupied cgroup)

structure World where
  tree : Hierarchy
  other : Other
  own : Creating

/-- Whose turn it is; what the kernel may refuse the container that is created is fixed. -/
inductive Turn where
  | other (answer : Option Errno)
  | own
  deriving DecidableEq

def refuses (fails : Access → Bool) (phase : Creating) : Bool :=
  match phase.access with
  | some access => fails access
  | none => false

def step (fails : Access → Bool) (w : World) : Turn → Option World
  | .other answer =>
      let next := w.other.step answer w.tree
      some { w with tree := next.1, other := next.2 }
  | .own =>
      match w.own with
      | .returned _ => none
      | phase =>
          let next := phase.step (refuses fails phase) w.tree
          some { w with tree := next.1, own := next.2 }

/-! ## One command alone -/

/-- The container's own steps lead from one tree and phase to another. -/
def Alone (fails : Access → Bool) (other : Other) (h : Hierarchy) (phase : Creating)
    (outcome : Hierarchy × Creating) : Prop :=
  ∃ n, Transition.run (step fails) ⟨h, other, phase⟩ (List.replicate n .own) =
    some ⟨outcome.1, other, outcome.2⟩

section alone

variable {fails : Access → Bool} {other : Other} {h : Hierarchy} {phase : Creating}
  {outcome : Hierarchy × Creating}

theorem Alone.refl : Alone fails other h phase (h, phase) := ⟨0, rfl⟩

/-- One more step in front. -/
theorem Alone.first {h' : Hierarchy} {phase' : Creating}
    (hgoes : ∀ result, phase ≠ .returned result)
    (hstep : phase.step (refuses fails phase) h = (h', phase'))
    (rest : Alone fails other h' phase' outcome) : Alone fails other h phase outcome := by
  obtain ⟨n, hrun⟩ := rest
  refine ⟨n + 1, ?_⟩
  have hown : step fails ⟨h, other, phase⟩ .own = some ⟨h', other, phase'⟩ := by
    cases phase with
    | returned result => exact (hgoes result rfl).elim
    | reading current name rest => simp [step, hstep]
    | comparing current name rest available => simp [step, hstep]
    | enabling current name rest missing => simp [step, hstep]
    | checking current name rest => simp [step, hstep]
    | making current name rest => simp [step, hstep]
  rw [List.replicate_succ, Transition.run, hown]
  exact hrun

theorem Alone.trans {middle : Hierarchy × Creating} (front : Alone fails other h phase middle)
    (back : Alone fails other middle.1 middle.2 outcome) : Alone fails other h phase outcome := by
  obtain ⟨n, hfront⟩ := front
  obtain ⟨m, hback⟩ := back
  refine ⟨n + m, ?_⟩
  rw [List.replicate_add, Transition.run_append, hfront]
  exact hback

/-- A delegation step by step fails, or leads to the check of the next directory. -/
theorem alone_delegate {current : String} (name : Name) (rest : List Name)
    (hcurrent : components current ∈ h.dirs) :
    Alone fails other h (.reading current name rest)
      (match delegate fails h current with
      | .error error => (h, .returned (.error error))
      | .ok h => (h, .checking current name rest)) := by
  have hisDir : h.isDir current = true := List.contains_iff_mem.mpr hcurrent
  rw [delegate_eq]
  cases hread : fails (.readControllers (components current)) with
  | true =>
      refine .first (by simp) ?_ .refl
      simp [Creating.step, refuses, Creating.access, hread]
  | false =>
      have hreading : (Creating.reading current name rest).step
          (refuses fails (.reading current name rest)) h =
          (h, .comparing current name rest (h.controllers (components current))) := by
        simp [Creating.step, refuses, Creating.access, hread, hisDir]
      have hcomparing : (Creating.comparing current name rest
          (h.controllers (components current))).step (refuses fails
            (.comparing current name rest (h.controllers (components current)))) h =
          if missing fails h (components current) = [] then (h, .checking current name rest)
          else (h, .enabling current name rest (missing fails h (components current))) := by
        simp [Creating.step, refuses, Creating.access, hisDir, missing]
      refine .first (by simp) hreading ?_
      by_cases hmissing : missing fails h (components current) = []
      · rw [if_pos hmissing] at hcomparing
        refine .first (by simp) hcomparing ?_
        simp only [hisDir, hmissing]
        exact .refl
      · rw [if_neg hmissing] at hcomparing
        refine .first (by simp) hcomparing ?_
        simp only [hisDir, hmissing]
        cases hwrite : fails (.writeSubtreeControl (components current)) with
        | true =>
            refine .first (by simp) ?_ .refl
            simp [Creating.step, refuses, Creating.access, hwrite]
        | false =>
            refine .first (by simp) ?_ .refl
            simp [Creating.step, refuses, Creating.access, hwrite, hisDir]

theorem isDir_delegate {h h' : Hierarchy} {current path : String}
    (hrun : delegate fails h current = .ok h') : h'.isDir path = h.isDir path := by
  rw [delegate_eq] at hrun
  split at hrun
  next => cases hrun
  next =>
    split at hrun
    next => cases hrun; rfl
    next =>
      split at hrun
      next => cases hrun
      next => cases hrun; rfl

/-- Left alone, the steps come to what the walk returns. -/
theorem alone_descend (names : List Name) {current : String} (hcurrent : h.isDir current = true) :
    Alone fails other h (Creating.enter current names)
      ((descend fails h current (names.map .normal)).1,
        .returned (descend fails h current (names.map .normal)).2) := by
  induction names generalizing h current with
  | nil => exact .refl
  | cons name rest ih =>
      refine (alone_delegate name rest (List.contains_iff_mem.mp hcurrent)).trans ?_
      rw [List.map_cons, descend]
      cases hdelegate : delegate fails h current with
      | error error => exact .refl
      | ok h' =>
          have hstill : h'.isDir current = true := (isDir_delegate hdelegate).trans hcurrent
          simp only
          cases hnext : h'.isDir (join current name.text) with
          | true =>
              refine .first (by simp) ?_ (ih hnext)
              simp [Creating.step, hnext]
          | false =>
              have hchecking : (Creating.checking current name rest).step
                  (refuses fails (.checking current name rest)) h' =
                  (h', .making current name rest) := by
                simp [Creating.step, hnext]
              refine .first (by simp) hchecking ?_
              cases hfails : fails (.createDir (components (join current name.text))) with
              | true =>
                  refine .first (by simp) ?_ .refl
                  simp [Creating.step, refuses, Creating.access, hfails]
              | false =>
                  have hmade : (h'.mkdir (components (join current name.text))).isDir
                      (join current name.text) = true := by
                    simp [Hierarchy.isDir, Hierarchy.mkdir]
                  refine .first (by simp) ?_ (ih hmade)
                  simp [Creating.step, refuses, Creating.access, hfails, hnext, hstill]

end alone

/-- The other command's steps, one for each answer of the kernel. -/
def ousted (occupied : List Component → Bool) (cgroup : Cgroup) (h : Hierarchy)
    (phase : Destroying) (answers : List (Option Errno)) : Hierarchy × Destroying :=
  answers.foldl (fun place answer => place.2.step occupied cgroup answer place.1) (h, phase)

section ousted

variable {r : Removals} {cgroup : Cgroup} {h : Hierarchy}

theorem ousted_leaf {left : Nat} (hleft : left ≤ 50) (hpos : 0 < left) :
    ∃ answers, ousted r.occupied cgroup h (.removing (50 - left)) answers =
      match cgroup.tryRemove r h left with
      | .ok h => (h, Destroying.trim cgroup)
      | .error error => (h, .ended (.error error)) := by
  induction left with
  | zero => omega
  | succ left ih =>
      have hattempt : 50 - (left + 1) = 49 - left := by omega
      rw [hattempt, Cgroup.tryRemove]
      cases hrmdir : h.rmdir r.occupied (r.leaf (49 - left)) (components cgroup.path) with
      | ok h' => exact ⟨[r.leaf (49 - left)], by simp [ousted, Destroying.step, hrmdir]⟩
      | error errno =>
          by_cases hagain : errno = .busy ∧ 49 - left < 49
          · have hnext : 49 - left + 1 = 50 - left := by omega
            obtain ⟨answers, hrest⟩ := ih (by omega) (by omega)
            refine ⟨r.leaf (49 - left) :: answers, ?_⟩
            simp only [if_pos hagain]
            rw [← hrest, ← hnext]
            simp [ousted, Destroying.step, hrmdir, hagain]
          · refine ⟨[r.leaf (49 - left)], ?_⟩
            simp only [ousted, List.foldl_cons, List.foldl_nil, Destroying.step, hrmdir]
            rw [if_neg hagain, if_neg hagain]

/-- Left alone, the steps of `destroy` come to what it returns. -/
theorem ousted_destroy :
    ∃ answers, ousted r.occupied cgroup h (.removing 0) answers =
      ((cgroup.destroy r h).1, .ended (cgroup.destroy r h).2) := by
  obtain ⟨answers, hleaf⟩ := @ousted_leaf r cgroup h 50 (Nat.le_refl 50) (by omega)
  unfold Cgroup.destroy
  cases hremove : cgroup.tryRemove r h 50 with
  | error error => exact ⟨answers, by rw [hleaf, hremove]⟩
  | ok h' =>
      rw [hremove] at hleaf
      simp only
      cases hparent : parent (components cgroup.path) with
      | none => exact ⟨answers, by simp [hleaf, Destroying.trim, hparent]⟩
      | some above =>
          by_cases hmount : above ≠ components MOUNT_POINT
          · refine ⟨answers ++ [r.parent], ?_⟩
            have habove : above = (components cgroup.path).dropLast := by
              unfold parent at hparent
              split at hparent
              next => cases hparent
              next => exact (Option.some.inj hparent).symm
            have hlast : ousted r.occupied cgroup h (.removing 0) (answers ++ [r.parent]) =
                Destroying.step r.occupied cgroup r.parent h' .trimming := by
              rw [ousted, List.foldl_append]
              unfold ousted at hleaf
              rw [hleaf]
              simp [Destroying.trim, hparent, hmount]
            rw [hlast, Destroying.step, ← habove]
            simp only [if_pos hmount]
            cases h'.rmdir r.occupied r.parent above <;> rfl
          · refine ⟨answers, ?_⟩
            rw [hleaf]
            simp [Destroying.trim, hparent, hmount]

end ousted

/-! ## What a command on the default path changes -/

/-- The default parent and a container's cgroup in it. -/
def parentDir : List Component := leafOf [mars]
def ownDir (id : Name) : List Component := leafOf [mars, id]

/-- Where a `create` on the default path can be, with what it has read at the mount point. -/
inductive Way (id : Name) (offered : List String) : Creating → Prop
  | readTop : Way id offered (.reading MOUNT_POINT mars [id])
  | compareTop {available : List String} (sound : ∀ c ∈ available, c ∈ offered) :
      Way id offered (.comparing MOUNT_POINT mars [id] available)
  | enableTop {missing : List String} (sound : ∀ c ∈ missing, c ∈ offered) :
      Way id offered (.enabling MOUNT_POINT mars [id] missing)
  | checkTop : Way id offered (.checking MOUNT_POINT mars [id])
  | makeTop : Way id offered (.making MOUNT_POINT mars [id])
  | readIn : Way id offered (.reading (join MOUNT_POINT mars.text) id [])
  | compareIn {available : List String} :
      Way id offered (.comparing (join MOUNT_POINT mars.text) id [] available)
  | enableIn {missing : List String} :
      Way id offered (.enabling (join MOUNT_POINT mars.text) id [] missing)
  | checkIn : Way id offered (.checking (join MOUNT_POINT mars.text) id [])
  | makeIn : Way id offered (.making (join MOUNT_POINT mars.text) id [])
  | returned {result : Except Error String} : Way id offered (.returned result)

/-- What one step of such a command does to the tree. -/
inductive Change (id : Name) (h : Hierarchy) : Hierarchy → Prop
  | same : Change id h h
  | enables (dir : List Component) (controllers : List String)
      (sound : dir = components MOUNT_POINT → ∀ c ∈ controllers, c ∈ h.offered) :
      Change id h (h.enable dir controllers)
  | makes (dir : List Component) (made : dir = parentDir ∨ dir = ownDir id)
      (absent : dir ∉ h.dirs) : Change id h (h.mkdir dir)
  | removes (dir : List Component) (gone : dir = parentDir ∨ dir = ownDir id) :
      Change id h { h with dirs := h.dirs.filter (· ≠ dir) }

theorem components_mount : components MOUNT_POINT = leafOf [] := by
  simp [leafOf]

theorem components_parentDir : components (join MOUNT_POINT mars.text) = parentDir := by
  rw [components_join_name]
  rfl

theorem components_ownDir (id : Name) :
    components (join (join MOUNT_POINT mars.text) id.text) = ownDir id := by
  rw [components_join_name, components_parentDir, parentDir, ownDir, ← List.singleton_append,
    leafOf_append]
  rfl

theorem parentDir_ne_mount : parentDir ≠ components MOUNT_POINT := by
  rw [components_mount, parentDir]
  exact fun he => by simpa using leafOf_inj he

theorem ownDir_ne_mount (id : Name) : ownDir id ≠ components MOUNT_POINT := by
  rw [components_mount, ownDir]
  exact fun he => by simpa using leafOf_inj he

theorem ownDir_ne_parentDir (id : Name) : ownDir id ≠ parentDir := by
  unfold ownDir parentDir
  exact fun he => by simpa using leafOf_inj he

theorem ownDir_ne {id other : Name} (hne : id ≠ other) : ownDir id ≠ ownDir other := by
  unfold ownDir
  exact fun he => hne (by simpa using leafOf_inj he)

/-- The comparison reads the tree only; what it finds missing was to be had and is not passed on. -/
theorem step_comparing (refused : Bool) (h : Hierarchy) (current : String) (name : Name)
    (rest : List Name) (available : List String) :
    (Creating.comparing current name rest available).step refused h =
        (h, .checking current name rest) ∨
      ∃ missing, missing ≠ [] ∧ (∀ c ∈ missing, c ∈ WANTED ∧ c ∈ available ∧
        (refused = true ∨ h.isDir current = false ∨ c ∉ h.enabled (components current))) ∧
        (Creating.comparing current name rest available).step refused h =
          (h, .enabling current name rest missing) := by
  simp only [Creating.step]
  generalize henabled :
    (if (refused || !h.isDir current) = true then [] else h.enabled (components current)) = enabled
  split
  next => exact .inl rfl
  next hmissing =>
    refine .inr ⟨_, hmissing, fun c hc => ?_, rfl⟩
    obtain ⟨hwanted, hfound⟩ := List.mem_filter.mp hc
    simp only [Bool.and_eq_true, List.contains_iff_mem, Bool.not_eq_true'] at hfound
    refine ⟨hwanted, hfound.1, ?_⟩
    have hnot : c ∉ enabled := by simpa using hfound.2
    split at henabled
    next hunread =>
      rcases Bool.or_eq_true _ _ ▸ hunread with hrefused | hgone
      · exact .inl hrefused
      · exact .inr (.inl (by simpa using hgone))
    next => exact .inr (.inr (henabled ▸ hnot))

/-- The step lemma of `create`. -/
theorem Way.step {id : Name} {h : Hierarchy} {phase : Creating} (way : Way id h.offered phase)
    (refused : Bool) : Way id (phase.step refused h).1.offered (phase.step refused h).2 ∧
      Change id h (phase.step refused h).1 := by
  have hcontrollers : h.controllers (components MOUNT_POINT) = h.offered := by
    simp [Hierarchy.controllers]
  cases way with
  | readTop =>
      simp only [Creating.step]
      split
      next => exact ⟨.returned, .same⟩
      next => exact ⟨.compareTop (by rw [hcontrollers]; exact fun _ hc => hc), .same⟩
  | compareTop sound =>
      rcases step_comparing refused h MOUNT_POINT mars [id] _ with heq | ⟨missing, -, hmissing, heq⟩
      · rw [heq]
        exact ⟨.checkTop, .same⟩
      · rw [heq]
        exact ⟨.enableTop fun c hc => sound c (hmissing c hc).2.1, .same⟩
  | enableTop sound =>
      simp only [Creating.step]
      split
      next => exact ⟨.returned, .same⟩
      next => exact ⟨.checkTop, .enables _ _ fun _ => sound⟩
  | checkTop =>
      simp only [Creating.step]
      split
      next => exact ⟨.readIn, .same⟩
      next => exact ⟨.makeTop, .same⟩
  | makeTop =>
      simp only [Creating.step]
      split
      next => exact ⟨.returned, .same⟩
      next hfree =>
        refine ⟨.readIn, .makes _ (.inl components_parentDir) ?_⟩
        simp only [Hierarchy.isDir, Bool.or_eq_true, not_or] at hfree
        simpa using hfree.1.2
  | readIn =>
      simp only [Creating.step]
      split
      next => exact ⟨.returned, .same⟩
      next => exact ⟨.compareIn, .same⟩
  | compareIn =>
      rcases step_comparing refused h (join MOUNT_POINT mars.text) id [] _ with
        heq | ⟨missing, -, -, heq⟩
      · rw [heq]
        exact ⟨.checkIn, .same⟩
      · rw [heq]
        exact ⟨.enableIn, .same⟩
  | enableIn =>
      simp only [Creating.step]
      split
      next => exact ⟨.returned, .same⟩
      next =>
        refine ⟨.checkIn, .enables _ _ fun hmount => ?_⟩
        rw [components_parentDir] at hmount
        exact (parentDir_ne_mount hmount).elim
  | checkIn =>
      simp only [Creating.step]
      split
      next => exact ⟨.returned, .same⟩
      next => exact ⟨.makeIn, .same⟩
  | makeIn =>
      simp only [Creating.step]
      split
      next => exact ⟨.returned, .same⟩
      next hfree =>
        refine ⟨.returned, .makes _ (.inr (components_ownDir id)) ?_⟩
        simp only [Hierarchy.isDir, Bool.or_eq_true, not_or] at hfree
        simpa using hfree.1.2
  | returned => exact ⟨.returned, .same⟩

inductive OtherWay (id : Name) (offered : List String) : Other → Prop
  | creating {phase : Creating} (way : Way id offered phase) : OtherWay id offered (.creating phase)
  | destroying {occupied : List Component → Bool} {cgroup : Cgroup} {phase : Destroying}
      (path : components cgroup.path = ownDir id) :
      OtherWay id offered (.destroying occupied cgroup phase)

/-- What `rmdir` asks for, and what it takes away, when it goes through. -/
theorem rmdir_ok {h h' : Hierarchy} {occupied : List Component → Bool} {answer : Option Errno}
    {dir : List Component} (hrmdir : h.rmdir occupied answer dir = .ok h') :
    answer = none ∧ occupied dir = false ∧ h.hasChild dir = false ∧
      h' = { h with dirs := h.dirs.filter (· ≠ dir) } := by
  unfold Hierarchy.rmdir at hrmdir
  split at hrmdir
  next => cases hrmdir
  next =>
    split at hrmdir
    next => cases hrmdir
    next hfree =>
      simp only [Bool.or_eq_true, not_or, Bool.not_eq_true] at hfree
      cases answer with
      | some errno => cases hrmdir
      | none => exact ⟨rfl, hfree.1, hfree.2, (Except.ok.inj hrmdir).symm⟩

/-- A step of `destroy` changes nothing, or it removes the leaf or the directory above. -/
theorem Destroying.step_tree (occupied : List Component → Bool) (cgroup : Cgroup)
    (answer : Option Errno) (h : Hierarchy) (phase : Destroying) :
    (phase.step occupied cgroup answer h).1 = h ∨
      ∃ dir, h.rmdir occupied answer dir = .ok (phase.step occupied cgroup answer h).1 ∧
        (dir = components cgroup.path ∨
          phase = .trimming ∧ dir = (components cgroup.path).dropLast) := by
  cases phase with
  | removing attempt =>
      simp only [Destroying.step]
      cases hrmdir : h.rmdir occupied answer (components cgroup.path) with
      | ok h' => exact .inr ⟨_, hrmdir, .inl rfl⟩
      | error errno =>
          refine .inl ?_
          simp only
          split <;> rfl
  | trimming =>
      simp only [Destroying.step]
      cases hrmdir : h.rmdir occupied answer (components cgroup.path).dropLast with
      | ok h' => exact .inr ⟨_, hrmdir, .inr ⟨trivial, rfl⟩⟩
      | error errno => exact .inl rfl
  | ended result => exact .inl rfl

theorem dropLast_ownDir (id : Name) : (ownDir id).dropLast = parentDir := by
  rw [ownDir, dropLast_leafOf (by simp)]
  rfl

theorem OtherWay.step {id : Name} {h : Hierarchy} {other : Other}
    (way : OtherWay id h.offered other) (answer : Option Errno) :
    OtherWay id (other.step answer h).1.offered (other.step answer h).2 ∧
      Change id h (other.step answer h).1 := by
  cases way with
  | creating way =>
      have hstep := way.step answer.isSome
      exact ⟨.creating hstep.1, hstep.2⟩
  | @destroying occupied cgroup phase path =>
      refine ⟨.destroying path, ?_⟩
      show Change id h (phase.step occupied cgroup answer h).1
      rcases phase.step_tree occupied cgroup answer h with hsame | ⟨dir, hrmdir, hdir⟩
      · rw [hsame]
        exact .same
      · have hgone : dir = parentDir ∨ dir = ownDir id := by
          rcases hdir with rfl | ⟨-, rfl⟩
          · exact .inr path
          · exact .inl (by rw [path, dropLast_ownDir])
        rw [(rmdir_ok hrmdir).2.2.2]
        exact .removes dir hgone

/-- The other command is about to make the default parent. -/
def Other.MakesParent : Other → Prop
  | .creating (.making current name _) => components (join current name.text) = parentDir
  | _ => False

/-- The other command is about to remove the default parent, and nothing is in it. -/
def Other.RemovesParent (h : Hierarchy) : Other → Prop
  | .destroying occupied _ .trimming =>
      parentDir ∈ h.dirs ∧ occupied parentDir = false ∧ h.hasChild parentDir = false
  | _ => False

theorem Creating.step_dirs (phase : Creating) (refused : Bool) (h : Hierarchy) :
    (phase.step refused h).1.dirs = h.dirs ∨ ∃ current name rest,
      phase = .making current name rest ∧ refused = false ∧
        (phase.step refused h).1.dirs = components (join current name.text) :: h.dirs := by
  cases phase with
  | reading current name rest =>
      simp only [Creating.step]
      split <;> exact .inl rfl
  | comparing current name rest available =>
      rcases step_comparing refused h current name rest available with heq | ⟨_, -, -, heq⟩
      · rw [heq]
        exact .inl rfl
      · rw [heq]
        exact .inl rfl
  | enabling current name rest missing =>
      simp only [Creating.step]
      split <;> exact .inl rfl
  | checking current name rest =>
      simp only [Creating.step]
      split <;> exact .inl rfl
  | making current name rest =>
      simp only [Creating.step]
      split
      next => exact .inl rfl
      next hfree =>
        simp only [Bool.or_eq_true, not_or, Bool.not_eq_true] at hfree
        exact .inr ⟨current, name, rest, rfl, hfree.1.1, rfl⟩
  | returned result => exact .inl rfl

theorem Other.parent_made {answer : Option Errno} {h : Hierarchy} {other : Other}
    (hbefore : parentDir ∉ h.dirs) (hafter : parentDir ∈ (other.step answer h).1.dirs) :
    answer = none ∧ other.MakesParent := by
  cases other with
  | creating phase =>
      have hafter : parentDir ∈ (phase.step answer.isSome h).1.dirs := hafter
      rcases phase.step_dirs answer.isSome h with hsame | ⟨current, name, rest, rfl, hanswer, hmade⟩
      · exact (hbefore (hsame ▸ hafter)).elim
      · rw [hmade] at hafter
        rcases List.mem_cons.mp hafter with heq | hold
        · exact ⟨Option.not_isSome_iff_eq_none.mp (by simp [hanswer]), heq.symm⟩
        · exact (hbefore hold).elim
  | destroying occupied cgroup phase =>
      have hafter : parentDir ∈ (phase.step occupied cgroup answer h).1.dirs := hafter
      rcases phase.step_tree occupied cgroup answer h with hsame | ⟨dir, hrmdir, -⟩
      · exact (hbefore (hsame ▸ hafter)).elim
      · rw [(rmdir_ok hrmdir).2.2.2] at hafter
        exact (hbefore (List.mem_filter.mp hafter).1).elim

theorem OtherWay.parent_removed {id : Name} {answer : Option Errno} {h : Hierarchy}
    {other : Other} (way : OtherWay id h.offered other) (hbefore : parentDir ∈ h.dirs)
    (hafter : parentDir ∉ (other.step answer h).1.dirs) :
    answer = none ∧ other.RemovesParent h := by
  cases way with
  | @creating phase way =>
      have hafter : parentDir ∉ (phase.step answer.isSome h).1.dirs := hafter
      rcases phase.step_dirs answer.isSome h with hsame | ⟨_, _, _, -, -, hmade⟩
      · exact (hafter (hsame ▸ hbefore)).elim
      · exact (hafter (hmade ▸ List.mem_cons_of_mem _ hbefore)).elim
  | @destroying occupied cgroup phase path =>
      have hafter : parentDir ∉ (phase.step occupied cgroup answer h).1.dirs := hafter
      rcases phase.step_tree occupied cgroup answer h with hsame | ⟨dir, hrmdir, hdir⟩
      · rw [hsame] at hafter
        exact (hafter hbefore).elim
      · obtain ⟨hanswer, hfree, hchild, htree⟩ := rmdir_ok hrmdir
        have heq : dir = parentDir := by
          by_contra hne
          have hkept : parentDir ∈ h.dirs.filter (· ≠ dir) := by
            simpa [hbefore] using fun he => hne he.symm
          refine hafter ?_
          rw [htree]
          exact hkept
        subst heq
        rcases hdir with hleaf | ⟨rfl, -⟩
        · exact (ownDir_ne_parentDir id (path.symm.trans hleaf.symm)).elim
        · exact ⟨hanswer, hbefore, hfree, hchild⟩

/-! ## Where the container's own creation stands -/

/-- A wanted controller that the mount point has for those below it. -/
def Passed (h : Hierarchy) (c : String) : Prop :=
  c ∈ WANTED ∧ (c ∈ h.offered ∨ c ∈ h.enabled (components MOUNT_POINT))

/-- What is asked of the mount point's `cgroup.subtree_control` is there or may be written. -/
def TopWrite (fails : Access → Bool) (h : Hierarchy) : Prop :=
  ∀ c ∈ WANTED, c ∈ h.offered →
    fails (.readSubtreeControl (components MOUNT_POINT)) = false ∧
      c ∈ h.enabled (components MOUNT_POINT) ∨
    fails (.writeSubtreeControl (components MOUNT_POINT)) = false

/-- The same for the default parent, which may still have to be made. -/
def InnerWrite (fails : Access → Bool) (h : Hierarchy) : Prop :=
  ∀ c, Passed h c →
    fails (.readSubtreeControl parentDir) = false ∧ parentDir ∈ h.dirs ∧
      c ∈ h.enabled parentDir ∨
    fails (.writeSubtreeControl parentDir) = false

/-- A directory is there or may be made. -/
def ThereOrMade (fails : Access → Bool) (h : Hierarchy) (dir : List Component) : Prop :=
  dir ∈ h.dirs ∨ fails (.createDir dir) = false

/-- What is granted from the default parent on. -/
structure Inside (fails : Access → Bool) (id : Name) (h : Hierarchy) : Prop where
  read : fails (.readControllers parentDir) = false
  write : InnerWrite fails h
  leaf : ThereOrMade fails h (ownDir id)

/-- The creation can go on to its end from here. -/
inductive Stands (fails : Access → Bool) (id : Name) (h : Hierarchy) : Creating → Prop
  | readTop (read : fails (.readControllers (components MOUNT_POINT)) = false)
      (write : TopWrite fails h) (made : ThereOrMade fails h parentDir)
      (inside : Inside fails id h) : Stands fails id h (.reading MOUNT_POINT mars [id])
  | compareTop {available : List String} (sound : ∀ c ∈ available, c ∈ h.offered)
      (write : TopWrite fails h) (made : ThereOrMade fails h parentDir)
      (inside : Inside fails id h) : Stands fails id h (.comparing MOUNT_POINT mars [id] available)
  | enableTop {missing : List String} (sound : ∀ c ∈ missing, c ∈ h.offered)
      (write : fails (.writeSubtreeControl (components MOUNT_POINT)) = false)
      (made : ThereOrMade fails h parentDir) (inside : Inside fails id h) :
      Stands fails id h (.enabling MOUNT_POINT mars [id] missing)
  | checkTop (made : ThereOrMade fails h parentDir) (inside : Inside fails id h) :
      Stands fails id h (.checking MOUNT_POINT mars [id])
  | makeTop (absent : parentDir ∉ h.dirs) (made : fails (.createDir parentDir) = false)
      (inside : Inside fails id h) : Stands fails id h (.making MOUNT_POINT mars [id])
  | readIn (there : parentDir ∈ h.dirs) (inside : Inside fails id h) :
      Stands fails id h (.reading (join MOUNT_POINT mars.text) id [])
  | compareIn {available : List String} (there : parentDir ∈ h.dirs)
      (sound : ∀ c ∈ WANTED, c ∈ available → Passed h c) (inside : Inside fails id h) :
      Stands fails id h (.comparing (join MOUNT_POINT mars.text) id [] available)
  | enableIn {missing : List String} (there : parentDir ∈ h.dirs)
      (write : fails (.writeSubtreeControl parentDir) = false)
      (leaf : ThereOrMade fails h (ownDir id)) :
      Stands fails id h (.enabling (join MOUNT_POINT mars.text) id [] missing)
  | checkIn (there : parentDir ∈ h.dirs) (leaf : ThereOrMade fails h (ownDir id)) :
      Stands fails id h (.checking (join MOUNT_POINT mars.text) id [])
  | makeIn (there : parentDir ∈ h.dirs) (absent : ownDir id ∉ h.dirs)
      (leaf : fails (.createDir (ownDir id)) = false) :
      Stands fails id h (.making (join MOUNT_POINT mars.text) id [])
  | returned (there : ownDir id ∈ h.dirs) :
      Stands fails id h (.returned (.ok (join (join MOUNT_POINT mars.text) id.text)))

section change

variable {fails : Access → Bool} {id : Name} {h h' : Hierarchy}

theorem Change.offered (change : Change id h h') : h'.offered = h.offered := by
  cases change <;> rfl

theorem Change.mem (change : Change id h h') {d : List Component} (hmem : d ∈ h.dirs)
    (hparent : d ≠ parentDir) (hown : d ≠ ownDir id) : d ∈ h'.dirs := by
  cases change with
  | same => exact hmem
  | enables => exact hmem
  | makes => exact List.mem_cons_of_mem _ hmem
  | removes dir gone =>
      refine List.mem_filter.mpr ⟨hmem, ?_⟩
      rcases gone with rfl | rfl
      · simpa using hparent
      · simpa using hown

theorem Change.not_mem (change : Change id h h') {d : List Component} (hmem : d ∉ h.dirs)
    (hparent : d ≠ parentDir) (hown : d ≠ ownDir id) : d ∉ h'.dirs := by
  cases change with
  | same => exact hmem
  | enables => exact hmem
  | makes dir made =>
      intro hafter
      rcases List.mem_cons.mp hafter with heq | hold
      · rcases made with hmade | hmade
        · exact hparent (heq.trans hmade)
        · exact hown (heq.trans hmade)
      · exact hmem hold
  | removes dir gone => exact fun hafter => hmem (List.mem_filter.mp hafter).1

/-- Controllers passed on by a directory that stays are passed on. -/
theorem Change.enabled (change : Change id h h') {d : List Component} {c : String}
    (hmem : d ∈ h.dirs) (hc : c ∈ h.enabled d) : c ∈ h'.enabled d := by
  cases change with
  | same => exact hc
  | enables dir controllers =>
      simp only [Hierarchy.enable]
      split
      next => exact List.mem_append_left _ hc
      next => exact hc
  | makes dir made absent =>
      have hne : d ≠ dir := fun he => absent (he ▸ hmem)
      simp only [Hierarchy.mkdir, if_neg hne]
      exact hc
  | removes => exact hc

/-- Nobody adds to what the mount point has for those below it. -/
theorem Change.passed (change : Change id h h') {c : String} (hpassed : Passed h' c) :
    Passed h c := by
  refine ⟨hpassed.1, ?_⟩
  have hhas := hpassed.2
  cases change with
  | same => exact hhas
  | enables dir controllers sound =>
      rcases hhas with hoffered | henabled
      · exact .inl hoffered
      · simp only [Hierarchy.enable] at henabled
        split at henabled
        next hdir =>
          rcases List.mem_append.mp henabled with hold | hnew
          · exact .inr hold
          · exact .inl (sound hdir.symm c hnew)
        next => exact .inr henabled
  | makes dir made =>
      have hne : components MOUNT_POINT ≠ dir := by
        rcases made with rfl | rfl
        · exact parentDir_ne_mount.symm
        · exact (ownDir_ne_mount id).symm
      simpa only [Hierarchy.mkdir, if_neg hne] using hhas
  | removes => exact hhas

theorem Change.passed_mono (change : Change id h h') (hmount : components MOUNT_POINT ∈ h.dirs)
    {c : String} (hpassed : Passed h c) : Passed h' c := by
  refine ⟨hpassed.1, ?_⟩
  rcases hpassed.2 with hoffered | henabled
  · exact .inl (change.offered ▸ hoffered)
  · exact .inr (change.enabled hmount henabled)

theorem TopWrite.change (write : TopWrite fails h) (change : Change id h h')
    (hmount : components MOUNT_POINT ∈ h.dirs) : TopWrite fails h' := by
  intro c hwanted hoffered
  rw [change.offered] at hoffered
  rcases write c hwanted hoffered with ⟨hread, henabled⟩ | hwrite
  · exact .inl ⟨hread, change.enabled hmount henabled⟩
  · exact .inr hwrite

/-- The default parent may be taken away only from one who may make and fill a new one. -/
def Spared (fails : Access → Bool) (h h' : Hierarchy) : Prop :=
  parentDir ∈ h.dirs → parentDir ∉ h'.dirs →
    fails (.createDir parentDir) = false ∧
      (fails (.writeSubtreeControl parentDir) = false ∨ ∀ c, ¬Passed h c)

theorem InnerWrite.change (write : InnerWrite fails h) (change : Change id h h')
    (hspared : Spared fails h h') : InnerWrite fails h' := by
  intro c hpassed
  rcases write c (change.passed hpassed) with ⟨hread, hthere, henabled⟩ | hwrite
  · by_cases hstill : parentDir ∈ h'.dirs
    · exact .inl ⟨hread, hstill, change.enabled hthere henabled⟩
    · rcases (hspared hthere hstill).2 with hwrite | hnone
      · exact .inr hwrite
      · exact (hnone c (change.passed hpassed)).elim
  · exact .inr hwrite

theorem ThereOrMade.parent (made : ThereOrMade fails h parentDir) (hspared : Spared fails h h') :
    ThereOrMade fails h' parentDir := by
  rcases made with hthere | hfails
  · by_cases hstill : parentDir ∈ h'.dirs
    · exact .inl hstill
    · exact .inr (hspared hthere hstill).1
  · exact .inr hfails

theorem ThereOrMade.own {own : Name} (made : ThereOrMade fails h (ownDir own))
    (change : Change id h h') (hne : own ≠ id) : ThereOrMade fails h' (ownDir own) := by
  rcases made with hthere | hfails
  · exact .inl (change.mem hthere (ownDir_ne_parentDir own) (ownDir_ne hne))
  · exact .inr hfails

theorem Inside.change {own : Name} (inside : Inside fails own h) (change : Change id h h')
    (hne : own ≠ id) (hspared : Spared fails h h') : Inside fails own h' where
  read := inside.read
  write := inside.write.change change hspared
  leaf := inside.leaf.own change hne

end change

/-- The directory that the creation stands in. -/
def Creating.place : Creating → Option (List Component)
  | .reading current _ _ | .comparing current _ _ _ | .enabling current _ _ _
  | .checking current _ _ | .making current _ _ => some (components current)
  | .returned _ => none

/-- A step of the other command, and the own creation stands where it stood. -/
theorem Stands.change {fails : Access → Bool} {own id : Name} {h h' : Hierarchy}
    {phase : Creating} (stands : Stands fails own h phase) (change : Change id h h')
    (hne : own ≠ id) (hmount : components MOUNT_POINT ∈ h.dirs)
    (hmakes : phase = .making MOUNT_POINT mars [own] → parentDir ∉ h.dirs → parentDir ∉ h'.dirs)
    (hinside : phase.place = some parentDir → parentDir ∈ h.dirs → parentDir ∈ h'.dirs)
    (houtside : phase.place = some (components MOUNT_POINT) → Spared fails h h') :
    Stands fails own h' phase := by
  have hspared : parentDir ∈ h'.dirs → Spared fails h h' :=
    fun hstill _ hgone => (hgone hstill).elim
  cases stands with
  | readTop read write made inside =>
      have hspared := houtside rfl
      exact .readTop read (write.change change hmount) (made.parent hspared)
        (inside.change change hne hspared)
  | compareTop sound write made inside =>
      have hspared := houtside rfl
      exact .compareTop (fun c hc => change.offered ▸ sound c hc) (write.change change hmount)
        (made.parent hspared) (inside.change change hne hspared)
  | enableTop sound write made inside =>
      have hspared := houtside rfl
      exact .enableTop (fun c hc => change.offered ▸ sound c hc) write (made.parent hspared)
        (inside.change change hne hspared)
  | checkTop made inside =>
      have hspared := houtside rfl
      exact .checkTop (made.parent hspared) (inside.change change hne hspared)
  | makeTop absent made inside =>
      exact .makeTop (hmakes rfl absent) made (inside.change change hne (houtside rfl))
  | readIn there inside =>
      have hstill := hinside (congrArg some components_parentDir) there
      exact .readIn hstill (inside.change change hne (hspared hstill))
  | compareIn there sound inside =>
      have hstill := hinside (congrArg some components_parentDir) there
      exact .compareIn hstill
        (fun c hwanted hc => change.passed_mono hmount (sound c hwanted hc))
        (inside.change change hne (hspared hstill))
  | enableIn there write leaf =>
      have hstill := hinside (congrArg some components_parentDir) there
      exact .enableIn hstill write (leaf.own change hne)
  | checkIn there leaf =>
      have hstill := hinside (congrArg some components_parentDir) there
      exact .checkIn hstill (leaf.own change hne)
  | makeIn there absent leaf =>
      have hstill := hinside (congrArg some components_parentDir) there
      exact .makeIn hstill
        (change.not_mem absent (ownDir_ne_parentDir own) (ownDir_ne hne)) leaf
  | returned there =>
      exact .returned (change.mem there (ownDir_ne_parentDir own) (ownDir_ne hne))

theorem controllers_mount (h : Hierarchy) : h.controllers (components MOUNT_POINT) = h.offered := by
  simp [Hierarchy.controllers]

theorem controllers_parentDir (h : Hierarchy) :
    h.controllers parentDir = h.enabled (components MOUNT_POINT) := by
  have habove : parentDir.dropLast = components MOUNT_POINT := by
    rw [parentDir, dropLast_leafOf (by simp), components_mount]
    rfl
  rw [Hierarchy.controllers, if_neg parentDir_ne_mount, habove]

/-- Its own step brings the creation on. -/
theorem Stands.step {fails : Access → Bool} {own : Name} {h : Hierarchy} {phase : Creating}
    (stands : Stands fails own h phase) (hmount : components MOUNT_POINT ∈ h.dirs) :
    Stands fails own (phase.step (refuses fails phase) h).1
      (phase.step (refuses fails phase) h).2 := by
  have htop : h.isDir MOUNT_POINT = true := List.contains_iff_mem.mpr hmount
  have hparent : h.isDir (join MOUNT_POINT mars.text) = true ↔ parentDir ∈ h.dirs := by
    rw [Hierarchy.isDir, components_parentDir]
    exact List.contains_iff_mem
  have hown : h.isDir (join (join MOUNT_POINT mars.text) own.text) = true ↔
      ownDir own ∈ h.dirs := by
    rw [Hierarchy.isDir, components_ownDir]
    exact List.contains_iff_mem
  cases stands with
  | readTop read write made inside =>
      have hstep : (Creating.reading MOUNT_POINT mars [own]).step
          (refuses fails (.reading MOUNT_POINT mars [own])) h =
          (h, .comparing MOUNT_POINT mars [own] h.offered) := by
        simp [Creating.step, refuses, Creating.access, read, htop, controllers_mount]
      rw [hstep]
      exact .compareTop (fun _ hc => hc) write made inside
  | @compareTop available sound write made inside =>
      rcases step_comparing (refuses fails (.comparing MOUNT_POINT mars [own] available)) h
        MOUNT_POINT mars [own] available with heq | ⟨missing, hne, hmissing, heq⟩
      · rw [heq]
        exact .checkTop made inside
      · rw [heq]
        refine .enableTop (fun c hc => sound c (hmissing c hc).2.1) ?_ made inside
        obtain ⟨c, hc⟩ := List.exists_mem_of_ne_nil missing hne
        obtain ⟨hwanted, havailable, hlacks⟩ := hmissing c hc
        rcases write c hwanted (sound c havailable) with ⟨hread, henabled⟩ | hwrite
        · rcases hlacks with hrefused | hgone | hnot
          · exact absurd (hread.symm.trans hrefused) (by simp)
          · exact absurd (hgone.symm.trans htop) (by simp)
          · exact (hnot henabled).elim
        · exact hwrite
  | @enableTop missing sound write made inside =>
      have hstep : (Creating.enabling MOUNT_POINT mars [own] missing).step
          (refuses fails (.enabling MOUNT_POINT mars [own] missing)) h =
          (h.enable (components MOUNT_POINT) missing, .checking MOUNT_POINT mars [own]) := by
        simp [Creating.step, refuses, Creating.access, write, htop]
      have hchange : Change own h (h.enable (components MOUNT_POINT) missing) :=
        .enables _ _ fun _ => sound
      rw [hstep]
      exact .checkTop made ⟨inside.read,
        inside.write.change hchange fun hthere hgone => (hgone hthere).elim, inside.leaf⟩
  | checkTop made inside =>
      simp only [Creating.step]
      split
      next hthere => exact .readIn (hparent.mp hthere) inside
      next hthere =>
        have habsent : parentDir ∉ h.dirs := fun hmem => hthere (hparent.mpr hmem)
        exact .makeTop habsent (made.resolve_left habsent) inside
  | makeTop absent made inside =>
      have hfree : h.isDir (join MOUNT_POINT mars.text) = false := by
        by_contra hthere
        exact absent (hparent.mp (by simpa using hthere))
      have hstep : (Creating.making MOUNT_POINT mars [own]).step
          (refuses fails (.making MOUNT_POINT mars [own])) h =
          (h.mkdir parentDir, .reading (join MOUNT_POINT mars.text) own []) := by
        simp [Creating.step, refuses, Creating.access, components_parentDir, made, hfree, htop,
          Creating.enter]
      have hchange : Change own h (h.mkdir parentDir) := .makes _ (.inl rfl) absent
      rw [hstep]
      refine .readIn List.mem_cons_self ⟨inside.read,
        inside.write.change hchange fun hthere => (absent hthere).elim, ?_⟩
      exact inside.leaf.imp (List.mem_cons_of_mem _) fun hfails => hfails
  | readIn there inside =>
      have hstep : (Creating.reading (join MOUNT_POINT mars.text) own []).step
          (refuses fails (.reading (join MOUNT_POINT mars.text) own [])) h =
          (h, .comparing (join MOUNT_POINT mars.text) own []
            (h.enabled (components MOUNT_POINT))) := by
        simp [Creating.step, refuses, Creating.access, components_parentDir, inside.read,
          hparent.mpr there, controllers_parentDir]
      rw [hstep]
      exact .compareIn there (fun c hwanted hc => ⟨hwanted, .inr hc⟩) inside
  | @compareIn available there sound inside =>
      rcases step_comparing (refuses fails (.comparing (join MOUNT_POINT mars.text) own []
        available)) h (join MOUNT_POINT mars.text) own [] available with
        heq | ⟨missing, hne, hmissing, heq⟩
      · rw [heq]
        exact .checkIn there inside.leaf
      · rw [heq]
        refine .enableIn there ?_ inside.leaf
        obtain ⟨c, hc⟩ := List.exists_mem_of_ne_nil missing hne
        obtain ⟨hwanted, havailable, hlacks⟩ := hmissing c hc
        rw [components_parentDir] at hlacks
        have hrefuses : refuses fails (.comparing (join MOUNT_POINT mars.text) own [] available) =
            fails (.readSubtreeControl parentDir) := by
          simp only [refuses, Creating.access, components_parentDir]
        rcases inside.write c (sound c hwanted havailable) with ⟨hread, -, henabled⟩ | hwrite
        · rcases hlacks with hrefused | hgone | hnot
          · exact absurd (hread.symm.trans (hrefuses.symm.trans hrefused)) (by simp)
          · exact absurd (hgone.symm.trans (hparent.mpr there)) (by simp)
          · exact (hnot henabled).elim
        · exact hwrite
  | @enableIn missing there write leaf =>
      have hstep : (Creating.enabling (join MOUNT_POINT mars.text) own [] missing).step
          (refuses fails (.enabling (join MOUNT_POINT mars.text) own [] missing)) h =
          (h.enable parentDir missing, .checking (join MOUNT_POINT mars.text) own []) := by
        simp [Creating.step, refuses, Creating.access, components_parentDir, write,
          hparent.mpr there]
      rw [hstep]
      exact .checkIn there leaf
  | checkIn there leaf =>
      simp only [Creating.step]
      split
      next hmem => exact .returned (hown.mp hmem)
      next hmem =>
        have habsent : ownDir own ∉ h.dirs := fun h => hmem (hown.mpr h)
        exact .makeIn there habsent (leaf.resolve_left habsent)
  | makeIn there absent leaf =>
      have hfree : h.isDir (join (join MOUNT_POINT mars.text) own.text) = false := by
        by_contra hthere
        exact absent (hown.mp (by simpa using hthere))
      have hstep : (Creating.making (join MOUNT_POINT mars.text) own []).step
          (refuses fails (.making (join MOUNT_POINT mars.text) own [])) h =
          (h.mkdir (ownDir own), .returned (.ok (join (join MOUNT_POINT mars.text) own.text))) := by
        simp [Creating.step, refuses, Creating.access, components_ownDir, leaf, hfree,
          hparent.mpr there, Creating.enter]
      rw [hstep]
      exact .returned List.mem_cons_self
  | returned there => exact .returned there

/-! ## Where it starts -/

theorem write_mem_delegation {fails : Access → Bool} {h : Hierarchy} {dir : List Component}
    {c : String} (hc : c ∈ missing fails h dir) :
    .writeSubtreeControl dir ∈ delegation fails h dir := by
  have hne : missing fails h dir ≠ [] := List.ne_nil_of_mem hc
  simp [delegation, hne]

/-- Once the mount point has been asked, it passes on every wanted controller that it has. -/
theorem passed_delegated {fails : Access → Bool} {h : Hierarchy} {c : String}
    (hpassed : Passed h c) :
    c ∈ (delegated fails h (components MOUNT_POINT)).enabled (components MOUNT_POINT) := by
  have hmissing : c ∈ h.enabled (components MOUNT_POINT) ∨
      c ∈ missing fails h (components MOUNT_POINT) := by
    by_cases henabled : c ∈ h.enabled (components MOUNT_POINT)
    · exact .inl henabled
    · refine .inr (mem_missing.mpr ⟨hpassed.1, ?_, fun h => henabled h.2⟩)
      rw [controllers_mount]
      exact hpassed.2.resolve_right henabled
  unfold delegated
  split
  next hnil =>
    rcases hmissing with henabled | hmem
    · exact henabled
    · rw [hnil] at hmem
      cases hmem
  next =>
    simp only [Hierarchy.enable, if_true, List.mem_append]
    exact hmissing

theorem enabled_delegated {fails : Access → Bool} {h : Hierarchy} {dir other : List Component}
    (hne : other ≠ dir) : (delegated fails h dir).enabled other = h.enabled other := by
  unfold delegated
  split
  next => rfl
  next => simp [Hierarchy.enable, hne]

/-- The delegation of the default parent is asked for once it is there, empty if it is new. -/
theorem inner_delegation (fails : Access → Bool) (h : Hierarchy) (own : Name) :
    ∃ g : Hierarchy,
      (∀ access ∈ delegation fails g parentDir, access ∈ creation fails h [mars, own]) ∧
      g.enabled (components MOUNT_POINT) =
        (delegated fails h (components MOUNT_POINT)).enabled (components MOUNT_POINT) ∧
      ∀ c ∈ g.enabled parentDir, parentDir ∈ h.dirs ∧ c ∈ h.enabled parentDir := by
  have hmars : components MOUNT_POINT ++ [.normal mars] = parentDir := rfl
  by_cases hthere : parentDir ∈ h.dirs
  · refine ⟨delegated fails h (components MOUNT_POINT), fun access hmem => ?_, rfl, ?_⟩
    · unfold creation
      rw [needs, hmars]
      simp only [if_pos hthere]
      refine List.mem_append_right _ ?_
      simp only [needs]
      split <;> exact List.mem_append_left _ hmem
    · intro c hc
      rw [enabled_delegated parentDir_ne_mount] at hc
      exact ⟨hthere, hc⟩
  · refine ⟨(delegated fails h (components MOUNT_POINT)).mkdir parentDir, fun access hmem => ?_,
      ?_, ?_⟩
    · unfold creation
      rw [needs, hmars]
      simp only [if_neg hthere]
      refine List.mem_append_right _ (List.mem_cons_of_mem _ ?_)
      simp only [needs]
      split <;> exact List.mem_append_left _ hmem
    · simp only [Hierarchy.mkdir, if_neg parentDir_ne_mount.symm]
    · intro c hc
      simp [Hierarchy.mkdir] at hc

theorem mem_levels_default (own : Name) :
    parentDir ∈ levels (components MOUNT_POINT) [mars, own] ∧
      ownDir own ∈ levels (components MOUNT_POINT) [mars, own] := by
  constructor
  · exact mem_levels_mount.mpr ⟨[mars], by simp, by simp, rfl⟩
  · exact mem_levels_mount.mpr ⟨[mars, own], by simp, List.prefix_rfl, rfl⟩

/-- What creation needs on the default path, where the steps begin. -/
theorem stands_start {fails : Access → Bool} {h : Hierarchy} {own : Name}
    (hall : ∀ access ∈ creation fails h [mars, own], fails access = false) :
    Stands fails own h (Creating.enter MOUNT_POINT [mars, own]) := by
  have hlevels := mem_levels_default own
  have houter : ∀ access ∈ delegation fails h (components MOUNT_POINT), fails access = false := by
    intro access hmem
    refine hall access ?_
    unfold creation
    simp only [needs]
    split <;> exact List.mem_append_left _ hmem
  obtain ⟨g, hinner, hpasses, hempty⟩ := inner_delegation fails h own
  have hmade : ∀ d ∈ levels (components MOUNT_POINT) [mars, own], ThereOrMade fails h d := by
    intro d hlevel
    by_cases hthere : d ∈ h.dirs
    · exact .inl hthere
    · exact .inr (hall _ (createDir_needed.mpr ⟨hlevel, hthere⟩))
  refine .readTop (houter _ List.mem_cons_self) ?_ (hmade _ hlevels.1)
    ⟨hall _ (hinner _ List.mem_cons_self), ?_, hmade _ hlevels.2⟩
  · intro c hwanted hoffered
    by_cases hhas : fails (.readSubtreeControl (components MOUNT_POINT)) = false ∧
        c ∈ h.enabled (components MOUNT_POINT)
    · exact .inl hhas
    · refine .inr (houter _ (write_mem_delegation (mem_missing.mpr ⟨hwanted, ?_, hhas⟩)))
      rw [controllers_mount]
      exact hoffered
  · intro c hpassed
    by_cases hhas : fails (.readSubtreeControl parentDir) = false ∧ c ∈ g.enabled parentDir
    · exact .inl ⟨hhas.1, hempty c hhas.2⟩
    · refine .inr (hall _ (hinner _ (write_mem_delegation (mem_missing.mpr
        ⟨hpassed.1, ?_, hhas⟩))))
      rw [controllers_parentDir, hpasses]
      exact passed_delegated hpassed

theorem components_default (own : Name) :
    components (join DEFAULT_PARENT own.text) = [mars, own].map .normal := by
  have hparent : components DEFAULT_PARENT = [.normal mars] := by decide +kernel
  rw [components_join_name, hparent]
  rfl

/-- A creation that returns alone was granted all it needs. -/
theorem granted_of_create {fails : Access → Bool} {h g : Hierarchy} {own : Name} {cgroup : Cgroup}
    (hrun : Cgroup.create fails h (join DEFAULT_PARENT own.text) = (g, .ok cgroup)) :
    components MOUNT_POINT ∈ h.dirs ∧
      ∀ access ∈ creation fails h [mars, own], fails access = false := by
  unfold Cgroup.create at hrun
  rw [components_default] at hrun
  split at hrun
  next => cases hrun
  next =>
    have hmount : components MOUNT_POINT ∈ h.dirs := by
      by_contra hgone
      have hisDir : h.isDir MOUNT_POINT = false := by simpa [Hierarchy.isDir] using hgone
      simp [descend, delegate_eq, hisDir] at hrun
    have walked := @walked_descend fails h MOUNT_POINT [mars, own] hmount
    refine ⟨hmount, walked.returned.mp ?_⟩
    split at hrun
    next => cases hrun
    next heq => exact ⟨_, by rw [heq]⟩

/-! ## Runs of both -/

/-- The other command begins to create its cgroup or to destroy it. -/
inductive Other.Starts (id : Name) : Other → Prop
  | creating : Other.Starts id (.creating (Creating.enter MOUNT_POINT [mars, id]))
  | destroying {occupied : List Component → Bool} {cgroup : Cgroup}
      (path : components cgroup.path = ownDir id) :
      Other.Starts id (.destroying occupied cgroup (.removing 0))

instance (other : Other) : Decidable other.MakesParent := by
  unfold Other.MakesParent
  split <;> infer_instance

instance (h : Hierarchy) (other : Other) : Decidable (other.RemovesParent h) := by
  unfold Other.RemovesParent
  split <;> infer_instance

/-- The other command does not make the default parent when the own one has found it missing,
and does not remove it from under the own one. Where the own one has not come to look for it, it
may make a new one and hand on to it what there is. -/
def Apart (fails : Access → Bool) (w : World) : Turn → Prop
  | .own => True
  | .other answer =>
      (answer = none ∧ w.other.MakesParent → w.own.access ≠ some (.createDir parentDir)) ∧
        (answer = none ∧ w.other.RemovesParent w.tree → w.own.place ≠ some parentDir ∧
          (w.own.place = some (components MOUNT_POINT) →
            fails (.createDir parentDir) = false ∧
              (fails (.writeSubtreeControl parentDir) = false ∨
                ∀ c ∈ WANTED, c ∉ w.tree.offered ∧ c ∉ w.tree.enabled (components MOUNT_POINT))))

instance (fails : Access → Bool) (w : World) (turn : Turn) : Decidable (Apart fails w turn) := by
  cases turn with
  | own => exact isTrue trivial
  | other answer =>
      unfold Apart
      infer_instance

/-- The steps that the own creation has left at most. -/
def Creating.left : Creating → Nat
  | .reading _ _ rest => 5 * rest.length + 5
  | .comparing _ _ rest _ => 5 * rest.length + 4
  | .enabling _ _ rest _ => 5 * rest.length + 3
  | .checking _ _ rest => 5 * rest.length + 2
  | .making _ _ rest => 5 * rest.length + 1
  | .returned _ => 0

theorem left_enter (current : String) (rest : List Name) :
    (Creating.enter current rest).left = 5 * rest.length := by
  cases rest <;> simp [Creating.enter, Creating.left, Nat.mul_add]

theorem left_step {phase : Creating} (hgoes : ∀ result, phase ≠ .returned result)
    (refused : Bool) (h : Hierarchy) : (phase.step refused h).2.left < phase.left := by
  cases phase with
  | reading current name rest =>
      simp only [Creating.step]
      split
      next => simp [Creating.left]
      next => simp [Creating.left]
  | comparing current name rest available =>
      rcases step_comparing refused h current name rest available with heq | ⟨_, -, -, heq⟩
      · rw [heq]
        simp [Creating.left]
      · rw [heq]
        simp [Creating.left]
  | enabling current name rest missing =>
      simp only [Creating.step]
      split
      next => simp [Creating.left]
      next => simp [Creating.left]
  | checking current name rest =>
      simp only [Creating.step]
      split
      next =>
        rw [left_enter]
        simp [Creating.left]
      next => simp [Creating.left]
  | making current name rest =>
      simp only [Creating.step]
      split
      next => simp [Creating.left]
      next =>
        rw [left_enter]
        simp [Creating.left]
  | returned result => exact (hgoes result rfl).elim

/-- What holds of both commands all along. -/
structure Both (fails : Access → Bool) (own id : Name) (w : World) : Prop where
  mount : components MOUNT_POINT ∈ w.tree.dirs
  other : OtherWay id w.tree.offered w.other
  own : Stands fails own w.tree w.own

theorem Stands.way {fails : Access → Bool} {own : Name} {h : Hierarchy} {phase : Creating}
    (stands : Stands fails own h phase) : Way own h.offered phase := by
  cases stands with
  | readTop => exact .readTop
  | compareTop sound => exact .compareTop sound
  | enableTop sound => exact .enableTop sound
  | checkTop => exact .checkTop
  | makeTop => exact .makeTop
  | readIn => exact .readIn
  | compareIn => exact .compareIn
  | enableIn => exact .enableIn
  | checkIn => exact .checkIn
  | makeIn => exact .makeIn
  | returned => exact .returned

theorem OtherWay.offered {id : Name} {offered offered' : List String} {other : Other}
    (way : OtherWay id offered other) (hsame : offered' = offered) :
    OtherWay id offered' other := hsame ▸ way

theorem step_own {fails : Access → Bool} {w w' : World} (hstep : step fails w .own = some w') :
    (∀ result, w.own ≠ .returned result) ∧ w' = { w with
      tree := (w.own.step (refuses fails w.own) w.tree).1
      own := (w.own.step (refuses fails w.own) w.tree).2 } := by
  obtain ⟨tree, other, own⟩ := w
  cases own with
  | returned result => cases hstep
  | reading => exact ⟨by simp, (Option.some.inj hstep).symm⟩
  | comparing => exact ⟨by simp, (Option.some.inj hstep).symm⟩
  | enabling => exact ⟨by simp, (Option.some.inj hstep).symm⟩
  | checking => exact ⟨by simp, (Option.some.inj hstep).symm⟩
  | making => exact ⟨by simp, (Option.some.inj hstep).symm⟩

theorem Both.step {fails : Access → Bool} {own id : Name} {w w' : World} {turn : Turn}
    (both : Both fails own id w) (hne : own ≠ id) (hok : Apart fails w turn)
    (hstep : step fails w turn = some w') : Both fails own id w' := by
  cases turn with
  | own =>
      obtain ⟨-, rfl⟩ := step_own hstep
      have hchange := (both.own.way.step (refuses fails w.own)).2
      exact ⟨hchange.mem both.mount parentDir_ne_mount.symm (ownDir_ne_mount own).symm,
        both.other.offered hchange.offered, both.own.step both.mount⟩
  | other answer =>
      obtain rfl := Option.some.inj hstep
      obtain ⟨hway, hchange⟩ := both.other.step answer
      obtain ⟨hmakes, hremoves⟩ := hok
      refine ⟨hchange.mem both.mount parentDir_ne_mount.symm (ownDir_ne_mount id).symm, hway,
        both.own.change hchange hne both.mount ?_ ?_ ?_⟩
      · intro hmaking hbefore hafter
        refine hmakes (Other.parent_made hbefore hafter) ?_
        rw [hmaking, Creating.access, components_parentDir]
      · intro hinside hbefore
        by_contra hafter
        exact (hremoves (both.other.parent_removed hbefore hafter)).1 hinside
      · intro houtside hbefore hafter
        obtain ⟨hmade, hwrite⟩ :=
          (hremoves (both.other.parent_removed hbefore hafter)).2 houtside
        refine ⟨hmade, hwrite.imp (fun h => h) fun hnone c hpassed => ?_⟩
        have hc := hnone c hpassed.1
        exact hpassed.2.elim hc.1 hc.2

/-- The own creation has returned its leaf, which is there, or goes on to return within ten steps. -/
structure Created (fails : Access → Bool) (own : Name) (w : World) (taken : Nat) : Prop where
  returned : ∀ result, w.own = .returned result →
    ∃ path, result = .ok path ∧ components path = ownDir own ∧ ownDir own ∈ w.tree.dirs
  goes : (∀ result, w.own ≠ .returned result) → (step fails w .own).isSome = true ∧ taken < 10

theorem Both.created {fails : Access → Bool} {own id : Name} {w : World} {taken : Nat}
    (both : Both fails own id w) (htaken : taken + w.own.left ≤ 10) :
    Created fails own w taken := by
  obtain ⟨tree, other, phase⟩ := w
  constructor
  · intro result hreturned
    have stands := both.own
    obtain rfl : phase = .returned result := hreturned
    cases stands with
    | returned there => exact ⟨_, rfl, components_ownDir own, there⟩
  · intro hgoes
    cases phase with
    | returned result => exact (hgoes result rfl).elim
    | reading => exact ⟨rfl, by simp [Creating.left] at htaken; omega⟩
    | comparing => exact ⟨rfl, by simp [Creating.left] at htaken; omega⟩
    | enabling => exact ⟨rfl, by simp [Creating.left] at htaken; omega⟩
    | checking => exact ⟨rfl, by simp [Creating.left] at htaken; omega⟩
    | making => exact ⟨rfl, by simp [Creating.left] at htaken; omega⟩

theorem taken_left {fails : Access → Bool} {w w' : World} {turns : List Turn}
    (hrun : Transition.run (step fails) w turns = some w') :
    turns.count .own + w'.own.left ≤ w.own.left := by
  induction turns generalizing w with
  | nil =>
      obtain rfl := Option.some.inj hrun
      simp
  | cons turn rest ih =>
      obtain ⟨next, hnext, hrest⟩ := Transition.run_cons_eq_some.mp hrun
      have hleft := ih hrest
      cases turn with
      | own =>
          obtain ⟨hgoes, rfl⟩ := step_own hnext
          have hless := left_step hgoes (refuses fails w.own) w.tree
          simp only [List.count_cons_self]
          simp only at hleft
          omega
      | other answer =>
          obtain rfl := Option.some.inj hnext
          have hcount : (Turn.other answer :: rest).count .own = rest.count .own :=
            List.count_cons_of_ne (by simp)
          rw [hcount]
          exact hleft

/-- The creation of a container returns, and its leaf is there, in every run next to the creation
or the destruction of another one that stays apart. -/
theorem created_apart {fails : Access → Bool} {own id : Name} {h g : Hierarchy} {cgroup : Cgroup}
    {other : Other} {turns : List Turn} {w : World} (hne : own ≠ id)
    (halone : Cgroup.create fails h (join DEFAULT_PARENT own.text) = (g, .ok cgroup))
    (hstarts : other.Starts id)
    (hrun : Transition.run (step fails) ⟨h, other, Creating.enter MOUNT_POINT [mars, own]⟩ turns =
      some w)
    (hok : Transition.Along (step fails) (Apart fails)
      ⟨h, other, Creating.enter MOUNT_POINT [mars, own]⟩ turns) :
    Created fails own w (turns.count .own) := by
  obtain ⟨hmount, hall⟩ := granted_of_create halone
  have hway : OtherWay id h.offered other := by
    cases hstarts with
    | creating => exact .creating .readTop
    | destroying path => exact .destroying path
  have hstart : Both fails own id ⟨h, other, Creating.enter MOUNT_POINT [mars, own]⟩ :=
    ⟨hmount, hway, stands_start hall⟩
  have hend := Transition.run_invariant_along
    (fun _ _ _ both hapart hstep => Both.step both hne hapart hstep) hstart hrun hok
  exact hend.created (taken_left hrun)

/-! ## Concrete runs -/

def neighbour : Name := ⟨"c2", by decide⟩

def besideCreate (h : Hierarchy) : World :=
  ⟨h, .creating (Creating.enter MOUNT_POINT [mars, neighbour]),
    Creating.enter MOUNT_POINT [mars, leaf]⟩

/-- A tree with the neighbour's cgroup, which its last process has left. -/
def withNeighbour : Hierarchy := withDefaultParent.mkdir (ownDir neighbour)

def besideDestroy : World :=
  ⟨withNeighbour,
    .destroying (fun _ => false) (Cgroup.attach (join DEFAULT_PARENT neighbour.text)) (.removing 0),
    Creating.enter MOUNT_POINT [mars, leaf]⟩

def granting : Access → Bool := fun _ => false

/-- The neighbour has made the default parent before the own creation looks for it. -/
def apartTurns : List Turn :=
  .own :: List.replicate 5 (.other none) ++ [.own, .own, .other none, .own, .own]

/-- Both have found the default parent missing. -/
def collidingTurns : List Turn :=
  List.replicate 4 (.other none) ++ List.replicate 3 .own ++ [.other none, .own]

/-- The default parent has been found, and goes with its last cgroup. -/
def trimmingTurns : List Turn := [.own, .own, .own, .own, .other none, .other none, .own]

/-- In a tree the creation returns where nobody interferes. -/
theorem created_alone {h : Hierarchy} (htree : h.Tree) (hunified : h.unified = true) :
    ∃ g cgroup, Cgroup.create granting h "mars/c1" = (g, .ok cgroup) := by
  have hnames : components "mars/c1" = [mars, leaf].map .normal := by decide +kernel
  obtain ⟨g, cgroup, hrun, -, -⟩ := create_granted htree hunified hnames fun _ _ => rfl
  exact ⟨g, cgroup, hrun⟩

theorem withNeighbour_tree : withNeighbour.Tree :=
  withDefaultParent_tree.mkdir (by decide +kernel)

theorem apart_enabled :
    (Transition.run (step granting) (besideCreate bare) apartTurns).isSome = true := by rfl

theorem created_apart_late :
    Transition.Along (step granting) (Apart granting) (besideCreate bare) apartTurns ∧
      Created granting leaf (Option.get _ apart_enabled) (apartTurns.count .own) := by
  have hok : Transition.Along (step granting) (Apart granting) (besideCreate bare) apartTurns := by
    decide +kernel
  obtain ⟨g, cgroup, halone⟩ := created_alone bare_tree rfl
  have hpath : join DEFAULT_PARENT leaf.text = "mars/c1" := by decide +kernel
  rw [← hpath] at halone
  exact ⟨hok, @created_apart granting leaf neighbour bare _ _ _ _ _ (by decide) halone .creating
    (Option.some_get apart_enabled).symm hok⟩

theorem colliding_enabled :
    (Transition.run (step granting) (besideCreate bare) collidingTurns).isSome = true := by rfl

theorem trimming_enabled :
    (Transition.run (step granting) besideDestroy trimmingTurns).isSome = true := by rfl

/-- Alone the creation returns in both trees; a neighbour that makes the default parent first, or
takes it away, makes it fail. -/
theorem neighbours_disturb :
    (∃ g cgroup, Cgroup.create granting bare "mars/c1" = (g, .ok cgroup)) ∧
      (∃ w error, Transition.run (step granting) (besideCreate bare) collidingTurns = some w ∧
        w.own = .returned (.error error)) ∧
      (∃ g cgroup, Cgroup.create granting withNeighbour "mars/c1" = (g, .ok cgroup)) ∧
      ∃ w error, Transition.run (step granting) besideDestroy trimmingTurns = some w ∧
        w.own = .returned (.error error) := by
  refine ⟨created_alone bare_tree rfl, ⟨_, _, (Option.some_get colliding_enabled).symm, rfl⟩,
    created_alone withNeighbour_tree rfl, ⟨_, _, (Option.some_get trimming_enabled).symm, rfl⟩⟩

end Mars.V2
