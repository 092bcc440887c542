import Mathlib.Data.List.Induction
import Mathlib.Data.List.TakeWhile
import Mars.Cgroup.V2

/-! # Creating a cgroup and destroying it again

`create` makes every missing directory of the path and takes none back when it is
refused on the way; `destroy` removes the leaf and then one parent, made by `create` or
not. What `create` asks of the hierarchy, in order, is a list; the directories it leaves
are those of the list before the first refusal.
-/

namespace Mars.V2
open UnixPath

/-! ## Removing a cgroup -/

inductive Errno where
  | busy
  | other
  deriving DecidableEq

/-- The processes in the tree, and what else the kernel answers to each `rmdir` of a `destroy`. -/
structure Removals where
  occupied : List Component → Bool
  leaf : Nat → Option Errno
  parent : Option Errno

def Hierarchy.hasChild (h : Hierarchy) (dir : List Component) : Bool :=
  h.dirs.any fun d => d.dropLast == dir && d != dir

def Hierarchy.rmdir (h : Hierarchy) (occupied : List Component → Bool) (answer : Option Errno)
    (dir : List Component) : Except Errno Hierarchy :=
  if dir ∉ h.dirs then .error .other
  else if occupied dir || h.hasChild dir then .error .busy
  else
    match answer with
    | some errno => .error errno
    | none => .ok { h with dirs := h.dirs.filter (· ≠ dir) }

/-- The attempts that are left of the fifty. -/
def Cgroup.tryRemove (r : Removals) (cgroup : Cgroup) (h : Hierarchy) :
    Nat → Except Error Hierarchy
  | 0 => .ok h
  | left + 1 =>
      let attempt := 49 - left
      match h.rmdir r.occupied (r.leaf attempt) (components cgroup.path) with
      | .ok h => .ok h
      | .error errno =>
          if errno = .busy ∧ attempt < 49 then tryRemove r cgroup h left
          else .error (.io ("remove cgroup " ++ cgroup.path))

def Cgroup.destroy (r : Removals) (cgroup : Cgroup) (h : Hierarchy) :
    Hierarchy × Except Error Unit :=
  match cgroup.tryRemove r h 50 with
  | .error error => (h, .error error)
  | .ok h =>
      match parent (components cgroup.path) with
      | none => (h, .ok ())
      | some above =>
          if above ≠ components MOUNT_POINT then
            match h.rmdir r.occupied r.parent above with
            | .ok h => (h, .ok ())
            | .error _ => (h, .ok ())
          else (h, .ok ())

/-! ## What creation asks for -/

/-- The controllers that a cgroup is asked to pass on. -/
def missing (fails : Access → Bool) (h : Hierarchy) (dir : List Component) : List String :=
  WANTED.filter fun wanted =>
    (h.controllers dir).contains wanted &&
      !(if fails (.readSubtreeControl dir) then [] else h.enabled dir).contains wanted

theorem mem_missing {fails : Access → Bool} {h : Hierarchy} {dir : List Component} {c : String} :
    c ∈ missing fails h dir ↔ c ∈ WANTED ∧ c ∈ h.controllers dir ∧
      ¬(fails (.readSubtreeControl dir) = false ∧ c ∈ h.enabled dir) := by
  unfold missing
  rw [List.mem_filter]
  cases fails (.readSubtreeControl dir) <;> simp

def delegated (fails : Access → Bool) (h : Hierarchy) (dir : List Component) : Hierarchy :=
  if missing fails h dir = [] then h else h.enable dir (missing fails h dir)

def delegation (fails : Access → Bool) (h : Hierarchy) (dir : List Component) : List Access :=
  .readControllers dir ::
    if missing fails h dir = [] then [] else [.writeSubtreeControl dir]

/-- What has to be granted from `dir` down the names, in order. -/
def needs (fails : Access → Bool) (h : Hierarchy) (dir : List Component) :
    List Name → List Access
  | [] => []
  | name :: rest =>
      let next := dir ++ [.normal name]
      let passed := delegated fails h dir
      if next ∈ h.dirs then delegation fails h dir ++ needs fails passed next rest
      else delegation fails h dir ++ .createDir next :: needs fails (passed.mkdir next) next rest

/-- The directories on the way down the names. -/
def levels (dir : List Component) : List Name → List (List Component)
  | [] => []
  | name :: rest => (dir ++ [.normal name]) :: levels (dir ++ [.normal name]) rest

/-- Those granted before the first that is refused. -/
def granted (fails : Access → Bool) (accesses : List Access) : List Access :=
  accesses.takeWhile fun access => !fails access

theorem dirs_delegated {fails : Access → Bool} {h : Hierarchy} {dir : List Component} :
    (delegated fails h dir).dirs = h.dirs := by
  unfold delegated
  split <;> rfl

theorem delegate_eq (fails : Access → Bool) (h : Hierarchy) (cgroup : String) :
    delegate fails h cgroup =
      if fails (.readControllers (components cgroup)) || !h.isDir cgroup then
        .error (.io ("read " ++ join cgroup "cgroup.controllers"))
      else if missing fails h (components cgroup) = [] then .ok h
      else if fails (.writeSubtreeControl (components cgroup)) then
        .error (.io ("enable controllers " ++
          debugList ((missing fails h (components cgroup)).map ("+" ++ ·)) ++ " in " ++
          join cgroup "cgroup.subtree_control"))
      else .ok (h.enable (components cgroup) (missing fails h (components cgroup))) := rfl

theorem delegate_granted {fails : Access → Bool} {h : Hierarchy} {cgroup : String}
    (hdir : components cgroup ∈ h.dirs)
    (hgranted : ∀ access ∈ delegation fails h (components cgroup), fails access = false) :
    delegate fails h cgroup = .ok (delegated fails h (components cgroup)) := by
  have hread : fails (.readControllers (components cgroup)) = false :=
    hgranted _ List.mem_cons_self
  have hisDir : h.isDir cgroup = true := List.contains_iff_mem.mpr hdir
  rw [delegate_eq, hread, hisDir, delegated]
  by_cases hmissing : missing fails h (components cgroup) = []
  · simp [hmissing]
  · have hwrite : fails (.writeSubtreeControl (components cgroup)) = false :=
      hgranted _ (by simp [delegation, hmissing])
    simp [hmissing, hwrite]

theorem delegate_refused {fails : Access → Bool} {h : Hierarchy} {cgroup : String}
    {access : Access} (hneeded : access ∈ delegation fails h (components cgroup))
    (hfails : fails access = true) : ∃ error, delegate fails h cgroup = .error error := by
  rw [delegate_eq]
  split
  next => exact ⟨_, rfl⟩
  next hread =>
    have hne : access ≠ .readControllers (components cgroup) := by
      rintro rfl
      simp [hfails] at hread
    by_cases hmissing : missing fails h (components cgroup) = []
    · simp [delegation, hmissing, hne] at hneeded
    · have haccess : access = .writeSubtreeControl (components cgroup) := by
        simpa [delegation, hmissing, hne] using hneeded
      rw [if_neg hmissing, if_pos (haccess ▸ hfails)]
      exact ⟨_, rfl⟩

/-! ## What a walk leaves -/

theorem createDir_not_mem_delegation {fails : Access → Bool} {h : Hierarchy}
    {dir d : List Component} : .createDir d ∉ delegation fails h dir := by
  unfold delegation
  split <;> simp

/-- What is not asked for first is granted only after everything before it is. -/
theorem mem_granted_append {fails : Access → Bool} {before after : List Access} {access : Access}
    (hbefore : access ∉ before) :
    access ∈ granted fails (before ++ after) ↔
      (∀ first ∈ before, fails first = false) ∧ access ∈ granted fails after := by
  induction before with
  | nil => simp
  | cons first rest ih =>
      have hrest : access ∉ rest := fun hmem => hbefore (List.mem_cons_of_mem _ hmem)
      have hne : access ≠ first := fun he => hbefore (he ▸ List.mem_cons_self)
      have hcons := ih hrest
      unfold granted at hcons ⊢
      rw [List.cons_append, List.takeWhile_cons]
      cases hfails : fails first with
      | true => simp [hfails]
      | false => simp [hfails, hne, hcons]

/-- What a walk leaves and when it returns, from what it needs. -/
structure Walked (fails : Access → Bool) (h : Hierarchy) (accesses : List Access)
    (outcome : Hierarchy × Except Error String) : Prop where
  dirs : ∀ d, d ∈ outcome.1.dirs ↔ d ∈ h.dirs ∨ .createDir d ∈ granted fails accesses
  returned : (∃ path, outcome.2 = .ok path) ↔ ∀ access ∈ accesses, fails access = false

/-- A refusal ends the walk where it stands. -/
theorem walked_refused {fails : Access → Bool} {h g : Hierarchy} {before after : List Access}
    {error : Error} (hdirs : g.dirs = h.dirs)
    (hbefore : ∀ d, .createDir d ∉ before)
    (hrefused : (∃ first ∈ before, fails first = true) ∨
      ∃ access, fails access = true ∧ after.head? = some access) :
    Walked fails h (before ++ after) (g, .error error) := by
  constructor
  · intro d
    have hnone : .createDir d ∉ granted fails (before ++ after) := by
      rw [mem_granted_append (hbefore d)]
      intro hmem
      rcases hrefused with ⟨first, hfirst, hfails⟩ | ⟨access, hfails, hhead⟩
      · rw [hmem.1 first hfirst] at hfails
        cases hfails
      · have hnil : granted fails after = [] := by
          cases after with
          | nil => rfl
          | cons first rest =>
              obtain rfl : first = access := by simpa using hhead
              simp [granted, hfails]
        rw [hnil] at hmem
        cases hmem.2
    simp [hdirs, hnone]
  · constructor
    · intro hreturned
      obtain ⟨path, hpath⟩ := hreturned
      cases hpath
    · intro hall
      rcases hrefused with ⟨first, hfirst, hfails⟩ | ⟨access, hfails, hhead⟩
      · rw [hall first (List.mem_append_left _ hfirst)] at hfails
        cases hfails
      · have hmem : access ∈ after := List.mem_of_mem_head? hhead
        rw [hall access (List.mem_append_right _ hmem)] at hfails
        cases hfails

/-- A delegation that is granted leaves the directories to the rest of the walk. -/
theorem Walked.after {fails : Access → Bool} {h g : Hierarchy} {before rest : List Access}
    {outcome : Hierarchy × Except Error String} (walked : Walked fails g rest outcome)
    (hdirs : g.dirs = h.dirs) (hbefore : ∀ d, .createDir d ∉ before)
    (hgranted : ∀ access ∈ before, fails access = false) :
    Walked fails h (before ++ rest) outcome := by
  constructor
  · intro d
    rw [walked.dirs, hdirs, mem_granted_append (hbefore d)]
    exact or_congr Iff.rfl ⟨fun hmem => ⟨hgranted, hmem⟩, fun hmem => hmem.2⟩
  · rw [walked.returned]
    constructor
    · intro hrest access hmem
      rcases List.mem_append.mp hmem with hmem | hmem
      · exact hgranted access hmem
      · exact hrest access hmem
    · exact fun hall access hmem => hall access (List.mem_append_right _ hmem)

/-- So does a directory that is made, which is then there. -/
theorem Walked.made {fails : Access → Bool} {h : Hierarchy} {next : List Component}
    {rest : List Access} {outcome : Hierarchy × Except Error String}
    (walked : Walked fails (h.mkdir next) rest outcome)
    (hgranted : fails (.createDir next) = false) :
    Walked fails h (.createDir next :: rest) outcome := by
  constructor
  · intro d
    rw [walked.dirs]
    simp only [Hierarchy.mkdir, granted, List.takeWhile_cons, hgranted, Bool.not_false, if_true,
      List.mem_cons, Access.createDir.injEq]
    exact ⟨fun h => by tauto, fun h => by tauto⟩
  · rw [walked.returned]
    simp [hgranted]

theorem walked_descend {fails : Access → Bool} {h : Hierarchy} {current : String}
    {names : List Name} (hcurrent : components current ∈ h.dirs) :
    Walked fails h (needs fails h (components current) names)
      (descend fails h current (names.map .normal)) := by
  induction names generalizing h current with
  | nil => exact ⟨by simp [descend, needs, granted], by simp [descend, needs]⟩
  | cons name rest ih =>
      have hnext := components_join_name current name
      have hdelegation : ∀ d, .createDir d ∉ delegation fails h (components current) :=
        fun _ => createDir_not_mem_delegation
      by_cases hgranted : ∀ access ∈ delegation fails h (components current), fails access = false
      · simp only [List.map_cons, descend, delegate_granted hcurrent hgranted, needs]
        by_cases hthere : components current ++ [.normal name] ∈ h.dirs
        · have hisDir : (delegated fails h (components current)).isDir
              (join current name.text) = true := by
            rw [Hierarchy.isDir, dirs_delegated, hnext]
            exact List.contains_iff_mem.mpr hthere
          rw [if_pos hthere, hisDir, if_pos rfl, ← hnext]
          refine (ih ?_).after dirs_delegated hdelegation hgranted
          rw [hnext, dirs_delegated]
          exact hthere
        · have hisDir : (delegated fails h (components current)).isDir
              (join current name.text) = false := by
            rw [Hierarchy.isDir, dirs_delegated, hnext]
            simpa using hthere
          rw [if_neg hthere, hisDir, if_neg Bool.false_ne_true, hnext]
          cases hfails : fails (.createDir (components current ++ [.normal name])) with
          | true =>
              rw [if_pos rfl]
              exact walked_refused dirs_delegated hdelegation (.inr ⟨_, hfails, rfl⟩)
          | false =>
              rw [if_neg Bool.false_ne_true]
              have hmade : components (join current name.text) ∈
                  ((delegated fails h (components current)).mkdir
                    (components current ++ [.normal name])).dirs := by
                rw [hnext]
                exact List.mem_cons_self
              have hrest := ih hmade
              rw [hnext] at hrest
              exact (hrest.made hfails).after dirs_delegated hdelegation hgranted
      · push Not at hgranted
        obtain ⟨access, hneeded, hfails⟩ := hgranted
        have hfails : fails access = true := by simpa using hfails
        obtain ⟨error, herror⟩ := delegate_refused hneeded hfails
        simp only [List.map_cons, descend, herror, needs]
        split
        all_goals
          exact walked_refused rfl hdelegation
            (.inl ⟨access, hneeded, hfails⟩)

/-! ## The directories of a path -/

theorem createDir_needs_cons {fails : Access → Bool} {h : Hierarchy} {dir d : List Component}
    {name : Name} {rest : List Name} :
    .createDir d ∈ needs fails h dir (name :: rest) ↔
      if dir ++ [.normal name] ∈ h.dirs then
        .createDir d ∈ needs fails (delegated fails h dir) (dir ++ [.normal name]) rest
      else d = dir ++ [.normal name] ∨
        .createDir d ∈ needs fails ((delegated fails h dir).mkdir (dir ++ [.normal name]))
          (dir ++ [.normal name]) rest := by
  have hnot : .createDir d ∉ delegation fails h dir := createDir_not_mem_delegation
  by_cases hthere : dir ++ [.normal name] ∈ h.dirs
  · simp [needs, hthere, hnot]
  · simp [needs, hthere, hnot]

/-- What is made are the levels that are not there. -/
theorem createDir_needed {fails : Access → Bool} {h : Hierarchy} {dir d : List Component}
    {names : List Name} :
    .createDir d ∈ needs fails h dir names ↔ d ∈ levels dir names ∧ d ∉ h.dirs := by
  induction names generalizing h dir with
  | nil => simp [needs, levels]
  | cons name rest ih =>
      rw [createDir_needs_cons, levels, List.mem_cons]
      split
      next hthere =>
        have hne : d ∉ h.dirs → d ≠ dir ++ [.normal name] := fun hnot he => hnot (he ▸ hthere)
        rw [ih, dirs_delegated]
        tauto
      next hthere =>
        have hdirs : d ∈ ((delegated fails h dir).mkdir (dir ++ [.normal name])).dirs ↔
            d = dir ++ [.normal name] ∨ d ∈ h.dirs := by
          rw [Hierarchy.mkdir, List.mem_cons, dirs_delegated]
        rw [ih, hdirs]
        by_cases hd : d = dir ++ [.normal name]
        · simp [hd, hthere]
        · simp [hd]

theorem prefix_cases {front names : List Name} (hfront : front <+: names) :
    front = names ∨ front <+: names.dropLast := by
  by_cases hnil : names = []
  · rw [hnil, List.prefix_nil] at hfront
    exact .inl (hfront.trans hnil.symm)
  · have hlast := List.dropLast_append_getLast hnil
    rw [← hlast] at hfront
    rcases List.prefix_concat_iff.mp hfront with hall | hshorter
    · exact .inl (hall.trans hlast)
    · exact .inr hshorter

theorem mem_levels {dir d : List Component} {names : List Name} :
    d ∈ levels dir names ↔ ∃ front : List Name, front ≠ [] ∧ front <+: names ∧
      d = dir ++ front.map .normal := by
  induction names generalizing dir with
  | nil => simp [levels]
  | cons name rest ih =>
      rw [levels, List.mem_cons, ih]
      constructor
      · intro h
        rcases h with rfl | ⟨front, -, hfront, rfl⟩
        · exact ⟨[name], by simp, by simp, by simp⟩
        · exact ⟨name :: front, by simp, by simpa using hfront, by simp⟩
      · intro h
        obtain ⟨front, hne, hfront, rfl⟩ := h
        cases front with
        | nil => exact (hne rfl).elim
        | cons first others =>
            obtain ⟨rfl, hothers⟩ := List.cons_prefix_cons.mp hfront
            cases others with
            | nil => exact .inl (by simp)
            | cons second more => exact .inr ⟨second :: more, by simp, hothers, by simp⟩

/-! ## What creation and destruction leave -/

/-- The directories of a tree: with each comes its parent, up to the mount point. -/
structure Hierarchy.Tree (h : Hierarchy) : Prop where
  mount : components MOUNT_POINT ∈ h.dirs
  parents : ∀ d ∈ h.dirs, d ≠ components MOUNT_POINT → d.dropLast ∈ h.dirs

def Hierarchy.SameDirs (h g : Hierarchy) : Prop := ∀ d, d ∈ h.dirs ↔ d ∈ g.dirs

def leafOf (names : List Name) : List Component := components MOUNT_POINT ++ names.map .normal

/-- The directory above the leaf. -/
def aboveLeaf (names : List Name) : List Component := leafOf names.dropLast

/-- All that creation of the path needs. -/
def creation (fails : Access → Bool) (h : Hierarchy) (names : List Name) : List Access :=
  needs fails h (components MOUNT_POINT) names

theorem create_walked (fails : Access → Bool) {h : Hierarchy} {relative : String}
    {names : List Name} (htree : h.Tree) (hunified : h.unified = true)
    (hnames : components relative = names.map .normal) :
    ∃ outcome, Walked fails h (creation fails h names) outcome ∧
      Cgroup.create fails h relative =
        (outcome.1, outcome.2.map fun path => ⟨path, relative⟩) := by
  refine ⟨_, walked_descend htree.mount, ?_⟩
  unfold Cgroup.create
  rw [hunified, hnames]
  generalize descend fails h MOUNT_POINT (names.map .normal) = outcome
  obtain ⟨g, result⟩ := outcome
  cases result <;> rfl

/-- The tree with every directory of the path. -/
def Extends (h g : Hierarchy) (names : List Name) : Prop :=
  ∀ d, d ∈ g.dirs ↔ d ∈ h.dirs ∨ d ∈ levels (components MOUNT_POINT) names

theorem granted_of_all {fails : Access → Bool} {accesses : List Access}
    (hall : ∀ access ∈ accesses, fails access = false) : granted fails accesses = accesses := by
  unfold granted
  rw [List.takeWhile_eq_self_iff]
  intro access hmem
  simp [hall access hmem]

/-- Creation that nothing refuses returns, and the whole path is there. -/
theorem create_granted {fails : Access → Bool} {h : Hierarchy} {relative : String}
    {names : List Name} (htree : h.Tree) (hunified : h.unified = true)
    (hnames : components relative = names.map .normal)
    (hall : ∀ access ∈ creation fails h names, fails access = false) :
    ∃ g cgroup, Cgroup.create fails h relative = (g, .ok cgroup) ∧ Extends h g names ∧
      components cgroup.path = leafOf names := by
  obtain ⟨⟨g, result⟩, walked, hrun⟩ := create_walked fails htree hunified hnames
  obtain ⟨path, rfl⟩ := walked.returned.mpr hall
  refine ⟨g, ⟨path, relative⟩, hrun, ?_, ?_⟩
  · intro d
    rw [walked.dirs, granted_of_all hall, creation, createDir_needed]
    tauto
  · have hpath := (create_ok hrun).1
    rw [hpath, components_pushAll, hnames, namesOf_map_normal, leafOf]

/-- Creation that is refused leaves what it made before. -/
theorem create_refused {fails : Access → Bool} {h : Hierarchy} {relative : String}
    {names : List Name} (htree : h.Tree) (hunified : h.unified = true)
    (hnames : components relative = names.map .normal)
    (hrefused : ∃ access ∈ creation fails h names, fails access = true) :
    ∃ g error, Cgroup.create fails h relative = (g, .error error) ∧
      ∀ d, d ∈ g.dirs ↔ d ∈ h.dirs ∨ .createDir d ∈ granted fails (creation fails h names) := by
  obtain ⟨⟨g, result⟩, walked, hrun⟩ := create_walked fails htree hunified hnames
  cases result with
  | error error => exact ⟨g, error, hrun, walked.dirs⟩
  | ok path =>
      obtain ⟨access, hmem, hfails⟩ := hrefused
      rw [walked.returned.mp ⟨path, rfl⟩ access hmem] at hfails
      cases hfails

/-! ## The shape of the extended tree -/

theorem leafOf_append {names more : List Name} :
    leafOf (names ++ more) = leafOf names ++ more.map .normal := by
  simp [leafOf]

theorem leafOf_inj {names more : List Name} (h : leafOf names = leafOf more) : names = more :=
  List.map_injective_iff.mpr (fun _ _ he => by cases he; rfl) (List.append_cancel_left h)

theorem dropLast_leafOf {names : List Name} (hne : names ≠ []) :
    (leafOf names).dropLast = leafOf names.dropLast := by
  rw [leafOf, List.dropLast_append_of_ne_nil (by simpa using hne), ← List.map_dropLast]
  rfl

theorem mem_levels_mount {d : List Component} {names : List Name} :
    d ∈ levels (components MOUNT_POINT) names ↔
      ∃ front : List Name, front ≠ [] ∧ front <+: names ∧ d = leafOf front :=
  mem_levels

/-- A tree holds every directory above one that it holds. -/
theorem Hierarchy.Tree.above {h : Hierarchy} (htree : h.Tree) {front names : List Name}
    (hfront : front <+: names) (hmem : leafOf names ∈ h.dirs) : leafOf front ∈ h.dirs := by
  induction names using List.reverseRecOn with
  | nil => rwa [List.prefix_nil.mp hfront]
  | append_singleton names name ih =>
      rcases List.prefix_concat_iff.mp hfront with rfl | hshorter
      · exact hmem
      · refine ih hshorter ?_
        have hne : leafOf (names ++ [name]) ≠ components MOUNT_POINT := by
          intro he
          have hnil : names ++ [name] = [] := leafOf_inj (he.trans (by simp [leafOf]))
          simp at hnil
        have hparent := htree.parents _ hmem hne
        rwa [dropLast_leafOf (by simp), List.dropLast_concat] at hparent

section Extended

variable {h g : Hierarchy} {names : List Name} {r : Removals}

theorem Extends.front_mem (grown : Extends h g names) (htree : h.Tree) {front : List Name}
    (hfront : front <+: names) : leafOf front ∈ g.dirs := by
  rw [grown]
  by_cases hnil : front = []
  · refine .inl ?_
    rw [hnil]
    simpa [leafOf] using htree.mount
  · exact .inr (mem_levels_mount.mpr ⟨front, hnil, hfront, rfl⟩)

/-- Below a directory of the path only the next one is new. -/
theorem Extends.child (grown : Extends h g names) {front : List Name} {d : List Component}
    (hmem : d ∈ g.dirs) (hparent : d.dropLast = leafOf front) :
    d ∈ h.dirs ∨ ∃ name, front ++ [name] <+: names ∧ d = leafOf (front ++ [name]) := by
  rcases (grown d).mp hmem with hold | hlevel
  · exact .inl hold
  · obtain ⟨path, hne, hfront, rfl⟩ := mem_levels_mount.mp hlevel
    rw [dropLast_leafOf hne] at hparent
    have hparts : path.dropLast = front := leafOf_inj hparent
    have hpath : front ++ [path.getLast hne] = path := by
      rw [← hparts, List.dropLast_append_getLast]
    exact .inr ⟨path.getLast hne, by rwa [hpath], by rw [hpath]⟩

theorem Hierarchy.Tree.no_child (htree : h.Tree) {dir d : List Component} (hdir : dir ∉ h.dirs)
    (hlong : (components MOUNT_POINT).length ≤ dir.length) (hmem : d ∈ h.dirs) :
    d.dropLast ≠ dir := by
  intro hparent
  by_cases hmount : d = components MOUNT_POINT
  · have hlength := congrArg List.length hparent
    rw [hmount, List.length_dropLast] at hlength
    have hpos : 0 < (components MOUNT_POINT).length := by decide +kernel
    omega
  · exact hdir (hparent ▸ htree.parents d hmem hmount)

theorem length_mount_le (names : List Name) :
    (components MOUNT_POINT).length ≤ (leafOf names).length := by
  simp [leafOf]

theorem hasChild_iff {dir : List Component} :
    h.hasChild dir = true ↔ ∃ d ∈ h.dirs, d.dropLast = dir ∧ d ≠ dir := by
  simp [Hierarchy.hasChild]

/-- The leaf that creation made has nothing below it. -/
theorem Extends.rmdir_leaf (grown : Extends h g names) (htree : h.Tree)
    (hleaf : leafOf names ∉ h.dirs) (hoccupied : ∀ d, r.occupied d = true → d ∈ h.dirs)
    (answer : Option Errno) :
    g.rmdir r.occupied answer (leafOf names) =
      match answer with
      | some errno => .error errno
      | none => .ok { g with dirs := g.dirs.filter (· ≠ leafOf names) } := by
  have hfree : r.occupied (leafOf names) = false := by
    by_contra hocc
    exact hleaf (hoccupied _ (by simpa using hocc))
  have hchild : g.hasChild (leafOf names) = false := by
    by_contra hsome
    obtain ⟨d, hmem, hparent, -⟩ := hasChild_iff.mp (by simpa using hsome)
    rcases grown.child hmem hparent with hold | ⟨name, hfront, -⟩
    · exact htree.no_child hleaf (length_mount_le names) hold hparent
    · have hlength := hfront.length_le
      rw [List.length_append, List.length_singleton] at hlength
      omega
  unfold Hierarchy.rmdir
  rw [if_neg (not_not.mpr (grown.front_mem htree List.prefix_rfl)), hfree, hchild]
  rfl

/-- Some attempt goes through after busy ones only. -/
def Removals.Goes (r : Removals) : Prop :=
  ∃ attempt < 50, r.leaf attempt = none ∧ ∀ earlier < attempt, r.leaf earlier = some .busy

theorem tryRemove_goes {cgroup : Cgroup} {g' : Hierarchy} {attempt : Nat}
    (hrmdir : ∀ answer, g.rmdir r.occupied answer (components cgroup.path) =
      match answer with
      | some errno => .error errno
      | none => .ok g')
    (hgoes : r.leaf attempt = none) (hbusy : ∀ earlier < attempt, r.leaf earlier = some .busy)
    {left : Nat} (hleft : left ≤ 50) (hstart : 50 - left ≤ attempt) (hattempt : attempt < 50) :
    cgroup.tryRemove r g left = .ok g' := by
  induction left with
  | zero => omega
  | succ left ih =>
      unfold Cgroup.tryRemove
      simp only [hrmdir]
      by_cases hnow : 49 - left = attempt
      · rw [hnow, hgoes]
      · rw [hbusy (49 - left) (by omega)]
        simp only [true_and]
        rw [if_pos (by omega)]
        exact ih (by omega) (by omega)

theorem goes_of_tryRemove {cgroup : Cgroup} {g' g'' : Hierarchy}
    (hrmdir : ∀ answer, g.rmdir r.occupied answer (components cgroup.path) =
      match answer with
      | some errno => .error errno
      | none => .ok g')
    {left : Nat} (hleft : left ≤ 50) (hpos : 0 < left)
    (hbusy : ∀ earlier < 50 - left, r.leaf earlier = some .busy)
    (hrun : cgroup.tryRemove r g left = .ok g'') : r.Goes ∧ g'' = g' := by
  induction left with
  | zero => omega
  | succ left ih =>
      unfold Cgroup.tryRemove at hrun
      simp only [hrmdir] at hrun
      cases hanswer : r.leaf (49 - left) with
      | none =>
          rw [hanswer] at hrun
          cases hrun
          exact ⟨⟨49 - left, by omega, hanswer, fun earlier h => hbusy earlier (by omega)⟩, rfl⟩
      | some errno =>
          rw [hanswer] at hrun
          simp only at hrun
          split at hrun
          next hagain =>
            refine ih (by omega) (by omega) (fun earlier h => ?_) hrun
            by_cases hnow : earlier = 49 - left
            · rw [hnow, hanswer, hagain.1]
            · exact hbusy earlier (by omega)
          next => cases hrun

/-- The tree after the leaf is gone. -/
def withoutLeaf (g : Hierarchy) (names : List Name) : Hierarchy :=
  { g with dirs := g.dirs.filter (· ≠ leafOf names) }

theorem mem_withoutLeaf {d : List Component} :
    d ∈ (withoutLeaf g names).dirs ↔ d ∈ g.dirs ∧ d ≠ leafOf names := by
  simp [withoutLeaf]

/-- What `destroy` does once the leaf is gone. -/
def trimmed (r : Removals) (g : Hierarchy) (names : List Name) : Hierarchy :=
  if aboveLeaf names ≠ components MOUNT_POINT then
    match g.rmdir r.occupied r.parent (aboveLeaf names) with
    | .ok g => g
    | .error _ => g
  else g

theorem destroy_eq {cgroup : Cgroup} (hne : names ≠ [])
    (hpath : components cgroup.path = leafOf names) :
    cgroup.destroy r g =
      match cgroup.tryRemove r g 50 with
      | .error error => (g, .error error)
      | .ok g => (trimmed r g names, .ok ()) := by
  have hparent : parent (leafOf names) = some (aboveLeaf names) := by
    have hlong : 1 < (leafOf names).length := by
      have hmount : (components MOUNT_POINT).length = 4 := by decide +kernel
      simp only [leafOf, List.length_append, hmount]
      omega
    rw [parent, if_neg, dropLast_leafOf hne, aboveLeaf]
    intro hshort
    rcases hshort with hnil | hroot
    · simp [hnil] at hlong
    · simp [hroot] at hlong
  unfold Cgroup.destroy
  cases hremove : cgroup.tryRemove r g 50 with
  | error error => rfl
  | ok g =>
      rw [hpath, hparent]
      simp only [trimmed]
      split
      next =>
        split
        next => rfl
        next => rfl
      next => rfl

/-- `destroy` of a path that creation made whole returns when its leaf goes. -/
theorem Extends.destroyed (grown : Extends h g names) (htree : h.Tree) (hne : names ≠ [])
    (hleaf : leafOf names ∉ h.dirs) (hoccupied : ∀ d, r.occupied d = true → d ∈ h.dirs)
    {cgroup : Cgroup} (hpath : components cgroup.path = leafOf names) {g' : Hierarchy} :
    cgroup.destroy r g = (g', .ok ()) ↔ r.Goes ∧ g' = trimmed r (withoutLeaf g names) names := by
  have hrmdir := grown.rmdir_leaf htree hleaf hoccupied
  rw [← hpath] at hrmdir
  rw [destroy_eq hne hpath]
  constructor
  · intro hrun
    split at hrun
    next => cases hrun
    next g'' hremove =>
      have hgoes := goes_of_tryRemove hrmdir (Nat.le_refl 50) (by omega) (by omega) hremove
      obtain ⟨hgoes, rfl⟩ := hgoes
      refine ⟨hgoes, ?_⟩
      simp only [Prod.mk.injEq, and_true] at hrun
      rw [← hrun, hpath]
      rfl
  · intro h
    obtain ⟨⟨attempt, hattempt, hgoes, hbusy⟩, rfl⟩ := h
    rw [tryRemove_goes hrmdir hgoes hbusy (Nat.le_refl 50) (by omega) hattempt, hpath]
    rfl

/-- The directory above the leaf is there, and is not the mount point, left empty. -/
def AboveStays (r : Removals) (h : Hierarchy) (names : List Name) : Prop :=
  aboveLeaf names = components MOUNT_POINT ∨ r.occupied (aboveLeaf names) = true ∨
    h.hasChild (aboveLeaf names) = true ∨ r.parent ≠ none

theorem Extends.hasChild_above (grown : Extends h g names) (hne : names ≠ [])
    (hleaf : leafOf names ∉ h.dirs) :
    (withoutLeaf g names).hasChild (aboveLeaf names) = h.hasChild (aboveLeaf names) := by
  rw [Bool.eq_iff_iff, hasChild_iff, hasChild_iff]
  constructor
  · intro hchild
    obtain ⟨d, hmem, hparent, hother⟩ := hchild
    rw [mem_withoutLeaf] at hmem
    rcases grown.child hmem.1 hparent with hold | ⟨name, hfront, rfl⟩
    · exact ⟨d, hold, hparent, hother⟩
    · have hlength : (names.dropLast ++ [name]).length = names.length := by
        have hpos := List.length_pos_iff.mpr hne
        simp only [List.length_append, List.length_dropLast, List.length_singleton]
        omega
      exact (hmem.2 (congrArg leafOf (hfront.eq_of_length hlength))).elim
  · intro hchild
    obtain ⟨d, hold, hparent, hother⟩ := hchild
    have hnew : d ≠ leafOf names := fun he => hleaf (he ▸ hold)
    exact ⟨d, mem_withoutLeaf.mpr ⟨(grown d).mpr (.inl hold), hnew⟩, hparent, hother⟩

theorem leafOf_ne {front : List Name} (hshort : front.length < names.length) :
    leafOf front ≠ leafOf names := by
  intro he
  rw [leafOf_inj he] at hshort
  omega

theorem Extends.above_mem (grown : Extends h g names) (htree : h.Tree) (hne : names ≠ []) :
    aboveLeaf names ∈ (withoutLeaf g names).dirs := by
  have hpos := List.length_pos_iff.mpr hne
  have hshort : names.dropLast.length < names.length := by
    rw [List.length_dropLast]
    omega
  exact mem_withoutLeaf.mpr ⟨grown.front_mem htree (List.dropLast_prefix names), leafOf_ne hshort⟩

theorem Extends.trimmed_stays (grown : Extends h g names) (htree : h.Tree) (hne : names ≠ [])
    (hleaf : leafOf names ∉ h.dirs) (hstays : AboveStays r h names) :
    trimmed r (withoutLeaf g names) names = withoutLeaf g names := by
  unfold trimmed
  split
  next hmount =>
    have hmem := grown.above_mem htree hne
    unfold Hierarchy.rmdir
    rw [if_neg (not_not.mpr hmem), grown.hasChild_above hne hleaf]
    rcases hstays with heq | hocc | hchild | hrefused
    · exact (hmount heq).elim
    · simp [hocc]
    · simp [hchild]
    · cases hanswer : r.parent with
      | none => exact (hrefused hanswer).elim
      | some errno =>
          by_cases hbusy : r.occupied (aboveLeaf names) || h.hasChild (aboveLeaf names)
          · rw [if_pos hbusy]
          · rw [if_neg hbusy]
  next => rfl

theorem Extends.trimmed_goes (grown : Extends h g names) (htree : h.Tree) (hne : names ≠ [])
    (hleaf : leafOf names ∉ h.dirs) (hgoes : ¬AboveStays r h names) {d : List Component} :
    d ∈ (trimmed r (withoutLeaf g names) names).dirs ↔
      d ∈ g.dirs ∧ d ≠ leafOf names ∧ d ≠ aboveLeaf names := by
  simp only [AboveStays, not_or, not_not, Bool.not_eq_true] at hgoes
  obtain ⟨hmount, hocc, hchild, hanswer⟩ := hgoes
  have hmem := grown.above_mem htree hne
  unfold trimmed Hierarchy.rmdir
  rw [if_pos hmount, if_neg (not_not.mpr hmem), grown.hasChild_above hne hleaf, hocc, hchild,
    hanswer]
  simp only [Bool.or_self, Bool.false_eq_true, if_false, withoutLeaf, List.mem_filter,
    decide_eq_true_eq]
  tauto

end Extended

/-! ## Creation and destruction as inverses -/

/-- What creation leaves when it fails, and destruction when it returns, is the tree before. -/
structure Inverse (fails : Access → Bool) (r : Removals) (h : Hierarchy) (relative : String) :
    Prop where
  failed : ∀ g error, Cgroup.create fails h relative = (g, .error error) → g.SameDirs h
  returned : ∀ g cgroup g', Cgroup.create fails h relative = (g, .ok cgroup) →
    cgroup.destroy r g = (g', .ok ()) → g'.SameDirs h

/-- A refusal comes before any directory is made; otherwise what `destroy` takes away, the
leaf and its parent unless that stays, is what was missing. -/
structure Reversible (fails : Access → Bool) (r : Removals) (h : Hierarchy)
    (names : List Name) : Prop where
  refused : (∃ access ∈ creation fails h names, fails access = true) →
    ∀ d, .createDir d ∉ granted fails (creation fails h names)
  kept : (∀ access ∈ creation fails h names, fails access = false) → r.Goes →
    aboveLeaf names ∈ h.dirs → AboveStays r h names
  made : (∀ access ∈ creation fails h names, fails access = false) → r.Goes →
    aboveLeaf names ∉ h.dirs → (aboveLeaf names).dropLast ∈ h.dirs ∧ r.parent = none

section Reversal

variable {h g : Hierarchy} {names : List Name} {r : Removals}

/-- With the parent left where it is, exactly the leaf may have been missing. -/
theorem Extends.sameDirs_withoutLeaf (grown : Extends h g names) (htree : h.Tree)
    (hne : names ≠ []) (hleaf : leafOf names ∉ h.dirs) :
    (withoutLeaf g names).SameDirs h ↔ aboveLeaf names ∈ h.dirs := by
  constructor
  · intro hsame
    exact (hsame _).mp (grown.above_mem htree hne)
  · intro habove d
    rw [mem_withoutLeaf, grown]
    constructor
    · intro hmem
      rcases hmem.1 with hold | hlevel
      · exact hold
      · obtain ⟨front, -, hfront, rfl⟩ := mem_levels_mount.mp hlevel
        rcases prefix_cases hfront with rfl | hshorter
        · exact (hmem.2 rfl).elim
        · exact htree.above hshorter habove
    · intro hold
      exact ⟨.inl hold, fun he => hleaf (he ▸ hold)⟩

/-- With the parent gone too, exactly these two may have been missing. -/
theorem Extends.sameDirs_trimmed (grown : Extends h g names) (htree : h.Tree)
    (hne : names ≠ []) (hleaf : leafOf names ∉ h.dirs) (hgoes : ¬AboveStays r h names) :
    (trimmed r (withoutLeaf g names) names).SameDirs h ↔
      aboveLeaf names ∉ h.dirs ∧ (aboveLeaf names).dropLast ∈ h.dirs := by
  have hmem := @Extends.trimmed_goes _ _ _ _ grown htree hne hleaf hgoes
  have hmount : aboveLeaf names ≠ components MOUNT_POINT := fun he => hgoes (.inl he)
  have hnil : names.dropLast ≠ [] := by
    intro hnil
    rw [aboveLeaf, hnil] at hmount
    simp [leafOf] at hmount
  have hgrand : (aboveLeaf names).dropLast = leafOf names.dropLast.dropLast :=
    dropLast_leafOf hnil
  constructor
  · intro hsame
    have habove : aboveLeaf names ∉ h.dirs := fun hold => (hmem.mp ((hsame _).mpr hold)).2.2 rfl
    have hpos := List.length_pos_iff.mpr hnil
    have hlength : names.dropLast.dropLast.length < names.dropLast.length := by
      rw [List.length_dropLast]
      omega
    have hlonger : names.dropLast.length ≤ names.length := (List.dropLast_prefix names).length_le
    refine ⟨habove, (hsame _).mp (hmem.mpr ⟨?_, ?_, ?_⟩)⟩
    · rw [hgrand]
      exact grown.front_mem htree
        ((List.dropLast_prefix _).trans (List.dropLast_prefix names))
    · rw [hgrand]
      exact leafOf_ne (by omega)
    · rw [hgrand]
      exact leafOf_ne hlength
  · intro h d
    rw [hmem, grown]
    constructor
    · intro hkept
      rcases hkept.1 with hold | hlevel
      · exact hold
      · obtain ⟨front, -, hfront, rfl⟩ := mem_levels_mount.mp hlevel
        rcases prefix_cases hfront with rfl | hshorter
        · exact (hkept.2.1 rfl).elim
        · rcases prefix_cases hshorter with rfl | hshortest
          · exact (hkept.2.2 rfl).elim
          · exact htree.above hshortest (hgrand ▸ h.2)
    · intro hold
      exact ⟨.inl hold, fun he => hleaf (he ▸ hold), fun he => h.1 (he ▸ hold)⟩

/-- A parent that was not there has nothing in it but the leaf. -/
theorem aboveStays_of_missing (htree : h.Tree) (hoccupied : ∀ d, r.occupied d = true → d ∈ h.dirs)
    (habove : aboveLeaf names ∉ h.dirs) : AboveStays r h names ↔ r.parent ≠ none := by
  constructor
  · intro hstays
    rcases hstays with hmount | hocc | hchild | hrefused
    · exact (habove (hmount ▸ htree.mount)).elim
    · exact (habove (hoccupied _ hocc)).elim
    · obtain ⟨d, hmem, hparent, -⟩ := hasChild_iff.mp hchild
      exact (htree.no_child habove (length_mount_le _) hmem hparent).elim
    · exact hrefused
  · exact fun hrefused => .inr (.inr (.inr hrefused))

/-- A tree from which `destroy` is to come back to the one before. -/
theorem Extends.sameDirs_destroyed (grown : Extends h g names) (htree : h.Tree)
    (hne : names ≠ []) (hleaf : leafOf names ∉ h.dirs)
    (hoccupied : ∀ d, r.occupied d = true → d ∈ h.dirs) :
    (trimmed r (withoutLeaf g names) names).SameDirs h ↔
      (aboveLeaf names ∈ h.dirs → AboveStays r h names) ∧
        (aboveLeaf names ∉ h.dirs → (aboveLeaf names).dropLast ∈ h.dirs ∧ r.parent = none) := by
  by_cases hstays : AboveStays r h names
  · rw [grown.trimmed_stays htree hne hleaf hstays, grown.sameDirs_withoutLeaf htree hne hleaf]
    constructor
    · intro habove
      exact ⟨fun _ => hstays, fun hnot => (hnot habove).elim⟩
    · intro hcases
      by_contra habove
      exact (aboveStays_of_missing htree hoccupied habove).mp hstays (hcases.2 habove).2
  · rw [grown.sameDirs_trimmed htree hne hleaf hstays]
    constructor
    · intro hcases
      have hanswer : r.parent = none := by
        by_contra hrefused
        exact hstays (.inr (.inr (.inr hrefused)))
      exact ⟨fun habove => (hcases.1 habove).elim, fun _ => ⟨hcases.2, hanswer⟩⟩
    · intro hcases
      have habove : aboveLeaf names ∉ h.dirs := fun habove => hstays (hcases.1 habove)
      exact ⟨habove, (hcases.2 habove).1⟩

theorem inverse_granted {fails : Access → Bool} {relative : String}
    (hnames : components relative = names.map .normal) (htree : h.Tree)
    (hunified : h.unified = true) (hne : names ≠ []) (hleaf : leafOf names ∉ h.dirs)
    (hoccupied : ∀ d, r.occupied d = true → d ∈ h.dirs)
    (hall : ∀ access ∈ creation fails h names, fails access = false) :
    Inverse fails r h relative ↔ Reversible fails r h names := by
  have hreturns := create_granted htree hunified hnames hall
  obtain ⟨g, cgroup, hrun, grown, hpath⟩ := hreturns
  have hdestroyed : ∀ g', cgroup.destroy r g = (g', .ok ()) ↔
      r.Goes ∧ g' = trimmed r (withoutLeaf g names) names :=
    fun _ => grown.destroyed htree hne hleaf hoccupied hpath
  have hsame := grown.sameDirs_destroyed htree hne hleaf hoccupied
  constructor
  · intro inverse
    have hgoes : r.Goes → (trimmed r (withoutLeaf g names) names).SameDirs h := fun hgoes =>
      inverse.returned g cgroup _ hrun ((hdestroyed _).mpr ⟨hgoes, rfl⟩)
    refine ⟨?_, fun _ h => (hsame.mp (hgoes h)).1, fun _ h => (hsame.mp (hgoes h)).2⟩
    intro hrefused
    obtain ⟨access, hmem, hfails⟩ := hrefused
    rw [hall access hmem] at hfails
    cases hfails
  · intro reversible
    constructor
    · intro g' error hfailed
      rw [hrun] at hfailed
      cases hfailed
    · intro g₁ cgroup₁ g' hrun₁ hdestroy
      rw [hrun] at hrun₁
      cases hrun₁
      obtain ⟨hgoes, rfl⟩ := (hdestroyed g').mp hdestroy
      exact hsame.mpr ⟨reversible.kept hall hgoes, reversible.made hall hgoes⟩

theorem inverse_refused {fails : Access → Bool} {relative : String}
    (hnames : components relative = names.map .normal) (htree : h.Tree)
    (hunified : h.unified = true)
    (hrefused : ∃ access ∈ creation fails h names, fails access = true) :
    Inverse fails r h relative ↔ Reversible fails r h names := by
  have hreturns := create_refused htree hunified hnames hrefused
  obtain ⟨g, error, hrun, hdirs⟩ := hreturns
  have hnot : ¬∀ access ∈ creation fails h names, fails access = false := by
    intro hall
    obtain ⟨access, hmem, hfails⟩ := hrefused
    rw [hall access hmem] at hfails
    cases hfails
  constructor
  · intro inverse
    refine ⟨fun _ d hmade => ?_, fun hall => (hnot hall).elim, fun hall => (hnot hall).elim⟩
    have hneeded : .createDir d ∈ creation fails h names :=
      (List.takeWhile_sublist _).mem hmade
    exact (createDir_needed.mp hneeded).2
      ((inverse.failed g error hrun d).mp ((hdirs d).mpr (.inr hmade)))
  · intro reversible
    constructor
    · intro g' error' hfailed d
      rw [hrun] at hfailed
      cases hfailed
      rw [hdirs]
      constructor
      · intro hmem
        rcases hmem with hold | hmade
        · exact hold
        · exact (reversible.refused hrefused d hmade).elim
      · exact .inl
    · intro g' cgroup g'' hfailed
      rw [hrun] at hfailed
      cases hfailed

end Reversal

/-- Creating a cgroup and destroying it are inverse exactly when the hierarchy is not
unified or the tree and the refusals are reversible. -/
theorem inverse_iff {fails : Access → Bool} {r : Removals} {h : Hierarchy} {relative : String}
    {names : List Name} (hnames : components relative = names.map .normal) (htree : h.Tree)
    (hleaf : leafOf names ∉ h.dirs) (hoccupied : ∀ d, r.occupied d = true → d ∈ h.dirs) :
    Inverse fails r h relative ↔ h.unified = false ∨ Reversible fails r h names := by
  have hne : names ≠ [] := by
    rintro rfl
    exact hleaf (by simpa [leafOf] using htree.mount)
  cases hunified : h.unified with
  | false =>
      refine iff_of_true ⟨?_, ?_⟩ (.inl rfl)
      · intro g error hrun d
        simp only [Cgroup.create, hunified, Bool.not_false, if_true, Prod.mk.injEq] at hrun
        rw [hrun.1]
      · intro g cgroup g' hrun
        simp [Cgroup.create, hunified] at hrun
  | true =>
      simp only [Bool.true_eq_false, false_or]
      by_cases hall : ∀ access ∈ creation fails h names, fails access = false
      · exact inverse_granted hnames htree hunified hne hleaf hoccupied hall
      · refine inverse_refused hnames htree hunified ?_
        push Not at hall
        simpa using hall

/-! ## Concrete trees -/

def bare : Hierarchy where
  unified := true
  offered := ["memory", "pids"]
  dirs := [components MOUNT_POINT]
  enabled := fun _ => []

def mars : Name := ⟨DEFAULT_PARENT, by decide⟩
def leaf : Name := ⟨"c1", by decide⟩

def withDefaultParent : Hierarchy := bare.mkdir (leafOf [mars])

def free : Removals where
  occupied := fun _ => false
  leaf := fun _ => none
  parent := none

deriving instance DecidableEq for Access

def leafRefused (access : Access) : Bool := access = .createDir (leafOf [mars, leaf])

theorem bare_tree : bare.Tree := by
  constructor
  · exact List.mem_cons_self
  · intro d hmem hne
    exact (hne (by simpa [bare] using hmem)).elim

/-- A directory that is made in one of the tree's. -/
theorem Hierarchy.Tree.mkdir {h : Hierarchy} {dir : List Component} (htree : h.Tree)
    (hparent : dir.dropLast ∈ h.dirs) : (h.mkdir dir).Tree := by
  constructor
  · exact List.mem_cons_of_mem _ htree.mount
  · intro d hmem hne
    rcases List.mem_cons.mp hmem with rfl | hmem
    · exact List.mem_cons_of_mem _ hparent
    · exact List.mem_cons_of_mem _ (htree.parents d hmem hne)

theorem withDefaultParent_tree : withDefaultParent.Tree :=
  bare_tree.mkdir (by decide +kernel)

theorem free_goes : free.Goes := ⟨0, by omega, rfl, by omega⟩

theorem bare_reversible : Reversible (fun _ => false) free bare [mars, leaf] where
  refused := by simp
  kept := fun _ _ habove => absurd habove (by decide +kernel)
  made := fun _ _ _ => ⟨by decide +kernel, rfl⟩

/-- On an empty tree the default path can be made and taken away. -/
theorem inverse_bare :
    (Inverse (fun _ => false) free bare "mars/c1" ↔
      bare.unified = false ∨ Reversible (fun _ => false) free bare [mars, leaf]) ∧
        Inverse (fun _ => false) free bare "mars/c1" := by
  have hiff : Inverse (fun _ => false) free bare "mars/c1" ↔
      bare.unified = false ∨ Reversible (fun _ => false) free bare [mars, leaf] :=
    inverse_iff (by decide +kernel) bare_tree (by decide +kernel) (by simp [free])
  exact ⟨hiff, hiff.mpr (.inr bare_reversible)⟩

/-- A third directory stays; so does the parent of a leaf that is refused; and a parent that
was there before is removed. -/
theorem not_inverse :
    ¬Inverse (fun _ => false) free bare "a/b/c" ∧ ¬Inverse leafRefused free bare "mars/c1" ∧
      ¬Inverse (fun _ => false) free withDefaultParent "mars/c1" := by
  refine ⟨?_, ?_, ?_⟩
  · have hnames : components "a/b/c" =
        [⟨"a", by decide⟩, ⟨"b", by decide⟩, ⟨"c", by decide⟩].map .normal := by decide +kernel
    rw [inverse_granted hnames bare_tree rfl (by simp) (by decide +kernel) (by simp [free])
      (by simp)]
    intro reversible
    have hmade := reversible.made (by simp) free_goes (by decide +kernel)
    exact absurd hmade.1 (by decide +kernel)
  · have hnames : components "mars/c1" = [mars, leaf].map .normal := by decide +kernel
    have hrefused : ∃ access ∈ creation leafRefused bare [mars, leaf],
        leafRefused access = true := by decide +kernel
    rw [inverse_refused hnames bare_tree rfl hrefused]
    intro reversible
    exact reversible.refused hrefused (leafOf [mars]) (by decide +kernel)
  · have hnames : components "mars/c1" = [mars, leaf].map .normal := by decide +kernel
    rw [inverse_granted hnames withDefaultParent_tree rfl (by simp) (by decide +kernel)
      (by simp [free]) (by simp)]
    intro reversible
    have hkept := reversible.kept (by simp) free_goes (by decide +kernel)
    rcases hkept with hmount | hocc | hchild | hanswer
    · exact absurd hmount (by decide +kernel)
    · cases hocc
    · exact absurd hchild (by decide +kernel)
    · exact hanswer rfl

end Mars.V2
