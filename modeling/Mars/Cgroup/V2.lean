import Mars.Paths

/-! # The cgroup v2 driver: where a container's cgroup lies

The hierarchy is a set of directories below the mount point, each with the
controllers its `cgroup.subtree_control` passes on. Every read and write of
the walk may fail, as `fails` says; what the walk did before stays done.
-/

namespace Mars.V2
open UnixPath

def MOUNT_POINT : String := "/sys/fs/cgroup"
def DEFAULT_PARENT : String := "mars"
def WANTED : List String := ["memory", "pids", "cpu", "cpuset", "io"]

structure Cgroup where
  path : String
  relative : String
  deriving DecidableEq

/-! ## The path a container asks for -/

def normalise (path : String) : String :=
  (components path).foldl
    (fun out component =>
      match component with
      | .normal part => join out part.text
      | _ => out)
    ""

def relativePath (cgroupsPath : Option String) (id : String) : String :=
  match cgroupsPath with
  | some path => if path ≠ "" then normalise path else join DEFAULT_PARENT id
  | none => join DEFAULT_PARENT id

/-! ## The hierarchy -/

structure Hierarchy where
  unified : Bool
  offered : List String
  dirs : List (List Component)
  enabled : List Component → List String

def Hierarchy.isDir (h : Hierarchy) (path : String) : Bool :=
  h.dirs.contains (components path)

/-- A cgroup offers what its parent passes on; the root offers what the kernel has. -/
def Hierarchy.controllers (h : Hierarchy) (dir : List Component) : List String :=
  if dir = components MOUNT_POINT then h.offered else h.enabled dir.dropLast

def Hierarchy.enable (h : Hierarchy) (dir : List Component) (controllers : List String) :
    Hierarchy :=
  { h with enabled := fun d => if d = dir then h.enabled d ++ controllers else h.enabled d }

def Hierarchy.mkdir (h : Hierarchy) (dir : List Component) : Hierarchy :=
  { h with
    dirs := dir :: h.dirs
    enabled := fun d => if d = dir then [] else h.enabled d }

/-- One access to the hierarchy that the kernel may refuse. -/
inductive Access where
  | readControllers (dir : List Component)
  | readSubtreeControl (dir : List Component)
  | writeSubtreeControl (dir : List Component)
  | createDir (dir : List Component)

def debugList (items : List String) : String :=
  "[" ++ ", ".intercalate (items.map fun item => "\"" ++ item ++ "\"") ++ "]"

def delegate (fails : Access → Bool) (h : Hierarchy) (cgroup : String) :
    Except Error Hierarchy :=
  let dir := components cgroup
  if fails (.readControllers dir) || !h.isDir cgroup then
    .error (.io ("read " ++ join cgroup "cgroup.controllers"))
  else
    let available := h.controllers dir
    -- an unreadable subtree_control counts as empty
    let enabled := if fails (.readSubtreeControl dir) then [] else h.enabled dir
    let missing := WANTED.filter fun wanted =>
      available.contains wanted && !enabled.contains wanted
    if missing = [] then .ok h
    else if fails (.writeSubtreeControl dir) then
      .error (.io ("enable controllers " ++ debugList (missing.map ("+" ++ ·)) ++ " in " ++
        join cgroup "cgroup.subtree_control"))
    else .ok (h.enable dir missing)

/-! ## Creating and attaching -/

/-- The walk of `create` from `current` down the remaining components. -/
def descend (fails : Access → Bool) (h : Hierarchy) (current : String) :
    List Component → Hierarchy × Except Error String
  | [] => (h, .ok current)
  | .normal part :: rest =>
      match delegate fails h current with
      | .error error => (h, .error error)
      | .ok h =>
          let next := join current part.text
          if h.isDir next then descend fails h next rest
          else if fails (.createDir (components next)) then
            (h, .error (.io ("create cgroup " ++ next)))
          else descend fails (h.mkdir (components next)) next rest
  | _ :: rest => descend fails h current rest

def Cgroup.create (fails : Access → Bool) (h : Hierarchy) (relative : String) :
    Hierarchy × Except Error Cgroup :=
  if !h.unified then (h, .error .noCgroupV2)
  else
    match descend fails h MOUNT_POINT (components relative) with
    | (h, .error error) => (h, .error error)
    | (h, .ok path) => (h, .ok ⟨path, relative⟩)

def Cgroup.attach (relative : String) : Cgroup :=
  ⟨join MOUNT_POINT relative, relative⟩

/-! ## What the walk returns -/

/-- The names among the components, in order. -/
def namesOf : List Component → List Name
  | [] => []
  | .normal part :: rest => part :: namesOf rest
  | _ :: rest => namesOf rest

theorem namesOf_map_normal (names : List Name) : namesOf (names.map .normal) = names := by
  induction names with
  | nil => rfl
  | cons name rest ih => simp [namesOf, ih]

theorem namesOf_ne_nil {parts : List Component} :
    namesOf parts ≠ [] ↔ ∃ name, Component.normal name ∈ parts := by
  induction parts with
  | nil => simp [namesOf]
  | cons part rest ih => cases part <;> simp [namesOf, ih]

theorem foldl_normal (parts : List Component) (out : String) :
    parts.foldl
      (fun out component =>
        match component with
        | .normal part => join out part.text
        | _ => out)
      out = pushAll out (namesOf parts) := by
  induction parts generalizing out with
  | nil => rfl
  | cons part rest ih => cases part <;> simp [namesOf, ih, pushAll]

theorem normalise_eq (path : String) :
    normalise path = pushAll "" (namesOf (components path)) :=
  foldl_normal (components path) ""

/-- A walk that returns has pushed every name, whatever it found on the way. -/
theorem descend_path {fails : Access → Bool} {h h' : Hierarchy} {current path : String}
    {parts : List Component} (hrun : descend fails h current parts = (h', .ok path)) :
    path = pushAll current (namesOf parts) := by
  induction parts generalizing h current with
  | nil =>
      simp only [descend, Prod.mk.injEq, Except.ok.injEq] at hrun
      exact hrun.2.symm
  | cons part rest ih =>
      cases part with
      | normal name =>
          simp only [descend] at hrun
          split at hrun
          next => simp at hrun
          next =>
            split at hrun
            next => exact ih hrun
            next =>
              split at hrun
              next => simp at hrun
              next => exact ih hrun
      | rootDir => exact ih hrun
      | curDir => exact ih hrun
      | parentDir => exact ih hrun

theorem create_ok {fails : Access → Bool} {h h' : Hierarchy} {relative : String} {cgroup : Cgroup}
    (hrun : Cgroup.create fails h relative = (h', .ok cgroup)) :
    cgroup.path = pushAll MOUNT_POINT (namesOf (components relative)) ∧
      cgroup.relative = relative := by
  unfold Cgroup.create at hrun
  split at hrun
  next => simp at hrun
  next =>
    split at hrun
    next => simp at hrun
    next hdescend =>
      simp only [Prod.mk.injEq, Except.ok.injEq] at hrun
      obtain ⟨-, rfl⟩ := hrun
      exact ⟨descend_path hdescend, rfl⟩

/-- The default path of a container whose spec names none. -/
theorem defaultPath_eq (id : Name) :
    ∃ parent : Name, parent.text = DEFAULT_PARENT ∧
      join DEFAULT_PARENT id.text = pushAll "" [parent, id] :=
  ⟨⟨DEFAULT_PARENT, by decide⟩, rfl, rfl⟩

end Mars.V2
