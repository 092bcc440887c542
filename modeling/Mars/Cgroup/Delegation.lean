import Mars.Cgroup.Inverse

/-! # Controllers are passed on all the way down

What a cgroup offers is what the one above it passes on, so the walk of `create`
enables the wanted controllers level by level. The walk is told again with the
writes it makes to `cgroup.subtree_control`.
-/

namespace Mars.V2
open UnixPath

/-- A write to the `cgroup.subtree_control` of `dir`, with the tree before it. -/
structure SubtreeWrite where
  dir : List Component
  before : Hierarchy

/-! ## The walk with its writes -/

def delegateWrites (fails : Access → Bool) (h : Hierarchy) (cgroup : String) :
    List SubtreeWrite × Except Error Hierarchy :=
  let dir := components cgroup
  if fails (.readControllers dir) || !h.isDir cgroup then
    ([], .error (.io ("read " ++ join cgroup "cgroup.controllers")))
  else if missing fails h dir = [] then ([], .ok h)
  else if fails (.writeSubtreeControl dir) then
    ([], .error (.io ("enable controllers " ++
      debugList ((missing fails h dir).map ("+" ++ ·)) ++ " in " ++
      join cgroup "cgroup.subtree_control")))
  else ([⟨dir, h⟩], .ok (h.enable dir (missing fails h dir)))

def descendWrites (fails : Access → Bool) (h : Hierarchy) (current : String) :
    List Component → List SubtreeWrite × Hierarchy × Except Error String
  | [] => ([], h, .ok current)
  | .normal part :: rest =>
      match delegateWrites fails h current with
      | (writes, .error error) => (writes, h, .error error)
      | (writes, .ok h) =>
          let next := join current part.text
          if h.isDir next then
            (writes ++ (descendWrites fails h next rest).1, (descendWrites fails h next rest).2)
          else if fails (.createDir (components next)) then
            (writes, h, .error (.io ("create cgroup " ++ next)))
          else
            let h := h.mkdir (components next)
            (writes ++ (descendWrites fails h next rest).1, (descendWrites fails h next rest).2)
  | _ :: rest => descendWrites fails h current rest

def Cgroup.createWrites (fails : Access → Bool) (h : Hierarchy) (relative : String) :
    List SubtreeWrite × Hierarchy × Except Error Cgroup :=
  if !h.unified then ([], h, .error .noCgroupV2)
  else
    match descendWrites fails h MOUNT_POINT (components relative) with
    | (writes, h, .error error) => (writes, h, .error error)
    | (writes, h, .ok path) => (writes, h, .ok ⟨path, relative⟩)

theorem delegateWrites_snd (fails : Access → Bool) (h : Hierarchy) (cgroup : String) :
    (delegateWrites fails h cgroup).2 = delegate fails h cgroup := by
  rw [delegate_eq, delegateWrites]
  split
  next => rfl
  next =>
    split
    next => rfl
    next => split <;> rfl

theorem descendWrites_snd (fails : Access → Bool) (h : Hierarchy) (current : String)
    (parts : List Component) :
    (descendWrites fails h current parts).2 = descend fails h current parts := by
  induction parts generalizing h current with
  | nil => rfl
  | cons part rest ih =>
      cases part with
      | normal name =>
          have hdelegate := delegateWrites_snd fails h current
          simp only [descendWrites, descend]
          cases hwrites : delegateWrites fails h current with
          | mk writes result =>
              rw [hwrites] at hdelegate
              rw [← hdelegate]
              cases result with
              | error error => rfl
              | ok passed =>
                  dsimp only
                  split
                  next => exact ih passed (join current name.text)
                  next =>
                    split
                    next => rfl
                    next => exact ih _ (join current name.text)
      | rootDir => exact ih h current
      | curDir => exact ih h current
      | parentDir => exact ih h current

/-- Without the writes it is `create`. -/
theorem createWrites_snd (fails : Access → Bool) (h : Hierarchy) (relative : String) :
    (Cgroup.createWrites fails h relative).2 = Cgroup.create fails h relative := by
  have hdescend := descendWrites_snd fails h MOUNT_POINT (components relative)
  unfold Cgroup.createWrites Cgroup.create
  split
  next => rfl
  next =>
    rw [← hdescend]
    rcases descendWrites fails h MOUNT_POINT (components relative) with ⟨writes, g, error | path⟩
    · rfl
    · rfl

/-! ## One level -/

section level
variable {fails : Access → Bool} {h h' : Hierarchy} {cgroup : String} {writes : List SubtreeWrite}
  {dir : List Component} {c : String}

/-- The level lacks a controller that is wanted and on offer, as far as can be read. -/
def Lacking (fails : Access → Bool) (w : SubtreeWrite) : Prop :=
  ∃ c ∈ WANTED, c ∈ w.before.controllers w.dir ∧
    (fails (.readSubtreeControl w.dir) = false → c ∉ w.before.enabled w.dir)

/-- What `delegate` does where it succeeds. -/
structure Passes (fails : Access → Bool) (h h' : Hierarchy) (dir : List Component)
    (writes : List SubtreeWrite) : Prop where
  there : dir ∈ h.dirs
  dirs : h'.dirs = h.dirs
  offered : h'.offered = h.offered
  others : ∀ d, d ≠ dir → h'.enabled d = h.enabled d
  grown : ∀ c ∈ h.enabled dir, c ∈ h'.enabled dir
  passed : ∀ c ∈ WANTED, c ∈ h.controllers dir → c ∈ h'.enabled dir
  written : ∀ w ∈ writes, w.dir = dir ∧ Lacking fails w
  unwritten : writes = [] → h'.enabled dir = h.enabled dir

theorem mem_of_not_missing (hwanted : c ∈ WANTED) (hoffered : c ∈ h.controllers dir)
    (hnot : c ∉ missing fails h dir) : c ∈ h.enabled dir := by
  by_contra hdisabled
  exact hnot (mem_missing.mpr ⟨hwanted, hoffered, fun h => hdisabled h.2⟩)

theorem passes_unchanged (hdir : dir ∈ h.dirs) (hmissing : missing fails h dir = []) :
    Passes fails h h dir [] where
  there := hdir
  dirs := rfl
  offered := rfl
  others _ _ := rfl
  grown _ hc := hc
  passed _ hwanted hoffered := mem_of_not_missing hwanted hoffered (by rw [hmissing]; simp)
  written := nofun
  unwritten _ := rfl

theorem lacking_of_missing (hmissing : missing fails h dir ≠ []) : Lacking fails ⟨dir, h⟩ := by
  obtain ⟨c, hc⟩ := List.exists_mem_of_ne_nil _ hmissing
  obtain ⟨hwanted, hoffered, hdisabled⟩ := mem_missing.mp hc
  exact ⟨c, hwanted, hoffered, fun hread henabled => hdisabled ⟨hread, henabled⟩⟩

theorem passes_enable (hdir : dir ∈ h.dirs) (hmissing : missing fails h dir ≠ []) :
    Passes fails h (h.enable dir (missing fails h dir)) dir [⟨dir, h⟩] where
  there := hdir
  dirs := rfl
  offered := rfl
  others d hd := if_neg hd
  grown c hc := by simp [Hierarchy.enable, hc]
  passed c hwanted hoffered := by
    simp only [Hierarchy.enable, if_true, List.mem_append]
    by_cases hc : c ∈ missing fails h dir
    · exact .inr hc
    · exact .inl (mem_of_not_missing hwanted hoffered hc)
  written w hw := by
    obtain rfl := List.mem_singleton.mp hw
    exact ⟨rfl, lacking_of_missing hmissing⟩
  unwritten := nofun

theorem delegateWrites_passes (hrun : delegateWrites fails h cgroup = (writes, .ok h')) :
    Passes fails h h' (components cgroup) writes := by
  unfold delegateWrites at hrun
  dsimp only at hrun
  split at hrun
  next => simp at hrun
  next hread =>
    have hdir : components cgroup ∈ h.dirs := by
      simp only [Bool.or_eq_true, Bool.not_eq_true', not_or] at hread
      exact List.contains_iff_mem.mp (by simpa [Hierarchy.isDir] using hread.2)
    split at hrun
    next hmissing =>
      cases hrun
      exact passes_unchanged hdir hmissing
    next hmissing =>
      split at hrun
      next => simp at hrun
      next =>
        cases hrun
        exact passes_enable hdir hmissing

end level

/-! ## The whole way down -/

/-- What a walk from `dir` down to `leaf` does to the tree where it succeeds. -/
structure Delegated (fails : Access → Bool) (h h' : Hierarchy) (dir leaf : List Component)
    (writes : List SubtreeWrite) : Prop where
  dirs : ∀ d ∈ h.dirs, d ∈ h'.dirs
  made : leaf ∈ h'.dirs
  kept : ∀ d ∈ h.dirs, ∀ c ∈ h.enabled d, c ∈ h'.enabled d
  passed : ∀ c ∈ WANTED, c ∈ h.controllers dir → c ∈ h'.controllers leaf
  lacking : ∀ w ∈ writes, Lacking fails w
  above : ∀ w ∈ writes, w.dir <+: leaf ∧ w.dir ≠ leaf
  untouched : ∀ d ∈ h.dirs, (∀ w ∈ writes, w.dir ≠ d) → h'.enabled d = h.enabled d

section walk
variable {fails : Access → Bool} {h h₁ h₂ h' : Hierarchy} {dir leaf : List Component} {name : Name}
  {writes more : List SubtreeWrite}

theorem delegated_nil (hdir : dir ∈ h.dirs) : Delegated fails h h dir dir [] where
  dirs _ hd := hd
  made := hdir
  kept _ _ _ hc := hc
  passed _ _ hc := hc
  lacking := nofun
  above := nofun
  untouched _ _ _ := rfl

/-- The next directory is there, or is made with nothing enabled. -/
structure Enters (h₁ h₂ : Hierarchy) (next : List Component) : Prop where
  dirs : ∀ d, d ∈ h₂.dirs ↔ d = next ∨ d ∈ h₁.dirs
  enabled : ∀ d, d ∈ h₁.dirs ∨ d ≠ next → h₂.enabled d = h₁.enabled d

theorem enters_there {next : List Component} (hnext : next ∈ h.dirs) : Enters h h next where
  dirs d := by
    constructor
    · exact .inr
    · rintro (rfl | hd)
      · exact hnext
      · exact hd
  enabled _ _ := rfl

theorem enters_mkdir {next : List Component} (hnext : next ∉ h.dirs) :
    Enters h (h.mkdir next) next where
  dirs d := List.mem_cons
  enabled d hd := by
    refine if_neg ?_
    rintro rfl
    exact hd.elim hnext (fun hne => hne rfl)

/-- A step down: the next level offers what this one passes on. -/
theorem Delegated.step (hpass : Passes fails h h₁ dir writes)
    (henter : Enters h₁ h₂ (dir ++ [.normal name]))
    (hmount : (components MOUNT_POINT).length ≤ dir.length)
    (hleaf : dir ++ [.normal name] <+: leaf)
    (hrest : Delegated fails h₂ h' (dir ++ [.normal name]) leaf more) :
    Delegated fails h h' dir leaf (writes ++ more) := by
  have hnot : dir ≠ dir ++ [.normal name] := by simp
  have hlonger : dir.length < leaf.length := by
    have hlength := hleaf.length_le
    simp only [List.length_append, List.length_singleton] at hlength
    omega
  have hthere : ∀ d ∈ h.dirs, d ∈ h₁.dirs := fun d hd => by rwa [hpass.dirs]
  have hmem : ∀ d ∈ h.dirs, d ∈ h₂.dirs := fun d hd => (henter.dirs d).mpr (.inr (hthere d hd))
  have hsame : ∀ d ∈ h.dirs, h₂.enabled d = h₁.enabled d :=
    fun d hd => henter.enabled d (.inl (hthere d hd))
  refine ⟨fun d hd => hrest.dirs d (hmem d hd), hrest.made, ?_, ?_, ?_, ?_, ?_⟩
  · intro d hd c hc
    refine hrest.kept d (hmem d hd) c ?_
    rw [hsame d hd]
    by_cases hdir : d = dir
    · rw [hdir] at hc ⊢
      exact hpass.grown c hc
    · rwa [hpass.others d hdir]
  · intro c hwanted hoffered
    refine hrest.passed c hwanted ?_
    have hbelow : dir ++ [.normal name] ≠ components MOUNT_POINT := by
      intro heq
      have hlength := congrArg List.length heq
      simp only [List.length_append, List.length_singleton] at hlength
      omega
    rw [Hierarchy.controllers, if_neg hbelow, List.dropLast_concat,
      henter.enabled dir (.inr hnot)]
    exact hpass.passed c hwanted hoffered
  · intro w hw
    rcases List.mem_append.mp hw with hfirst | hlater
    · exact (hpass.written w hfirst).2
    · exact hrest.lacking w hlater
  · intro w hw
    rcases List.mem_append.mp hw with hfirst | hlater
    · rw [(hpass.written w hfirst).1]
      refine ⟨(List.prefix_append dir _).trans hleaf, ?_⟩
      rintro rfl
      exact absurd hlonger (lt_irrefl _)
    · exact hrest.above w hlater
  · intro d hd hnone
    rw [hrest.untouched d (hmem d hd) fun w hw => hnone w (List.mem_append_right _ hw),
      hsame d hd]
    by_cases hdir : d = dir
    · rw [hdir] at hnone ⊢
      refine hpass.unwritten (List.eq_nil_iff_forall_not_mem.mpr fun w hw => ?_)
      exact hnone w (List.mem_append_left _ hw) (hpass.written w hw).1
    · exact hpass.others d hdir

theorem descendWrites_delegated {current path : String} {names : List Name}
    (hmount : (components MOUNT_POINT).length ≤ (components current).length)
    (hdir : components current ∈ h.dirs)
    (hrun : descendWrites fails h current (names.map .normal) = (writes, h', .ok path)) :
    components path = components current ++ names.map .normal ∧
      Delegated fails h h' (components current) (components path) writes := by
  induction names generalizing h current writes with
  | nil =>
      simp only [List.map_nil, descendWrites, Prod.mk.injEq, Except.ok.injEq] at hrun
      obtain ⟨rfl, rfl, rfl⟩ := hrun
      exact ⟨by simp, delegated_nil hdir⟩
  | cons name rest ih =>
      have hnext := components_join_name current name
      have hlonger : (components MOUNT_POINT).length ≤
          (components (join current name.text)).length := by
        rw [hnext, List.length_append]
        omega
      have hdown : ∀ {h₁ h₂ : Hierarchy} {first : List SubtreeWrite},
          Passes fails h h₁ (components current) first →
          Enters h₁ h₂ (components (join current name.text)) →
          (first ++ (descendWrites fails h₂ (join current name.text) (rest.map .normal)).1,
            (descendWrites fails h₂ (join current name.text) (rest.map .normal)).2) =
              (writes, h', .ok path) →
          components path = components current ++ (name :: rest).map .normal ∧
            Delegated fails h h' (components current) (components path) writes := by
        intro h₁ h₂ first hpass henter hrest
        obtain ⟨hwrites, hresult⟩ := Prod.mk.inj hrest
        obtain ⟨hpath, hdelegated⟩ :=
          @ih h₂ (descendWrites fails h₂ (join current name.text) (rest.map .normal)).1 _ hlonger
            ((henter.dirs _).mpr (.inl rfl)) (Prod.ext rfl hresult)
        rw [hnext] at hpath hdelegated henter
        refine ⟨by rw [hpath]; simp, ?_⟩
        rw [← hwrites]
        exact Delegated.step hpass henter hmount (by rw [hpath]; exact List.prefix_append _ _)
          hdelegated
      simp only [List.map_cons, descendWrites] at hrun
      cases hdelegate : delegateWrites fails h current with
      | mk first result =>
          rw [hdelegate] at hrun
          cases result with
          | error error => simp at hrun
          | ok passed =>
              have hpass := delegateWrites_passes hdelegate
              dsimp only at hrun
              split at hrun
              next hthere =>
                exact hdown hpass (enters_there (List.contains_iff_mem.mp hthere)) hrun
              next hmissing =>
                split at hrun
                next => simp at hrun
                next =>
                  refine hdown hpass (enters_mkdir fun hmem => hmissing ?_) hrun
                  exact List.contains_iff_mem.mpr hmem

end walk

theorem mem_dirs_of_descendWrites {fails : Access → Bool} {h h' : Hierarchy}
    {current path : String} {names : List Name} {writes : List SubtreeWrite} (hne : names ≠ [])
    (hrun : descendWrites fails h current (names.map .normal) = (writes, h', .ok path)) :
    components current ∈ h.dirs := by
  cases names with
  | nil => exact absurd rfl hne
  | cons name rest =>
      simp only [List.map_cons, descendWrites] at hrun
      cases hdelegate : delegateWrites fails h current with
      | mk first result =>
          rw [hdelegate] at hrun
          cases result with
          | error error => simp at hrun
          | ok passed => exact (delegateWrites_passes hdelegate).there

/-- A cgroup that has been created is offered every wanted controller the root has. On the
way nothing was taken away or written without need, and where nothing was written nothing
changed. -/
theorem create_delegates {fails : Access → Bool} {h h' : Hierarchy} {relative : String}
    {names : List Name} {cgroup : Cgroup} (hnames : components relative = names.map .normal)
    (hne : names ≠ []) (hrun : Cgroup.create fails h relative = (h', .ok cgroup)) :
    (components cgroup.path = leafOf names ∧ leafOf names ∈ h'.dirs) ∧
      (∀ c ∈ WANTED, c ∈ h.offered → c ∈ h'.controllers (leafOf names)) ∧
      (∀ d ∈ h.dirs, ∀ c ∈ h.enabled d, c ∈ h'.enabled d) ∧
      (∀ w ∈ (Cgroup.createWrites fails h relative).1, Lacking fails w) ∧
      (∀ w ∈ (Cgroup.createWrites fails h relative).1, w.dir ≠ leafOf names) ∧
      ∀ d ∈ h.dirs, (∀ w ∈ (Cgroup.createWrites fails h relative).1, w.dir ≠ d) →
        h'.enabled d = h.enabled d := by
  have hsnd := createWrites_snd fails h relative
  rw [hrun] at hsnd
  unfold Cgroup.createWrites at hsnd ⊢
  rw [hnames] at hsnd ⊢
  split
  next hunified =>
    rw [if_pos hunified] at hsnd
    cases hsnd
  next hunified =>
    rw [if_neg hunified] at hsnd
    rcases hdescend : descendWrites fails h MOUNT_POINT (names.map .normal) with
      ⟨writes, g, error | path⟩
    · rw [hdescend] at hsnd
      cases hsnd
    · rw [hdescend] at hsnd
      cases hsnd
      obtain ⟨hpath, hdelegated⟩ := descendWrites_delegated (Nat.le_refl _)
        (mem_dirs_of_descendWrites hne hdescend) hdescend
      have hleaf : components path = leafOf names := hpath
      rw [hleaf] at hdelegated
      refine ⟨⟨hleaf, hdelegated.made⟩, ?_, hdelegated.kept, hdelegated.lacking,
        fun w hw => (hdelegated.above w hw).2, hdelegated.untouched⟩
      intro c hwanted hoffered
      refine hdelegated.passed c hwanted ?_
      rwa [Hierarchy.controllers, if_pos rfl]

/-- One directory of the path is there and passes on one of two controllers. -/
def partlyEnabled : Hierarchy := withDefaultParent.enable (components MOUNT_POINT) ["pids"]

theorem create_delegates_default : ∃ h' cgroup,
    Cgroup.create (fun _ => false) partlyEnabled "mars/c1" = (h', .ok cgroup) ∧
      "memory" ∈ h'.controllers (leafOf [mars, leaf]) := by
  have hnames : components "mars/c1" = [mars, leaf].map .normal := by decide +kernel
  have hrun : Cgroup.create (fun _ => false) partlyEnabled "mars/c1" = (_, .ok _) := rfl
  exact ⟨_, _, hrun, (create_delegates hnames (by simp) hrun).2.1 "memory" (by decide) (by decide)⟩

end Mars.V2
