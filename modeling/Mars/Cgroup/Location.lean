import Mars.Cgroup.V2

/-! # A container's cgroup below the mount point

Normalising a path of the spec drops every component that is not a name.
When nothing is left, the text is empty and both constructors fall back to
the mount point itself; the default path is only used for an absent or
empty text.
-/

namespace Mars.V2
open UnixPath Paths

/-- What every container's cgroup path has to provide: names only, one
directory whichever constructor is used and whichever copy of the path it
reads, and that directory properly inside the hierarchy. -/
structure ProperlyPlaced (cgroupsPath : Option String) (id : String) : Prop where
  names : ∃ names : List Name, names ≠ [] ∧
    components (relativePath cgroupsPath id) = names.map .normal
  agree : ∀ (fails : Access → Bool) (h h' : Hierarchy) (cgroup : Cgroup),
    Cgroup.create fails h (relativePath cgroupsPath id) = (h', .ok cgroup) →
      SameEntry cgroup.path (Cgroup.attach (relativePath cgroupsPath id)).path ∧
        SameEntry cgroup.path (Cgroup.attach cgroup.relative).path
  below : StrictlyBelow (Cgroup.attach (relativePath cgroupsPath id)).path MOUNT_POINT

/-- The spec names a cgroup: its path is absent or empty, or a name occurs in it. -/
def NamesACgroup (cgroupsPath : Option String) : Prop :=
  ∀ path, cgroupsPath = some path → path ≠ "" → ∃ name, Component.normal name ∈ components path

/-- The relative path is always some names pushed onto nothing. -/
theorem relativePath_eq (cgroupsPath : Option String) {id : String}
    (hid : validateId id = .ok ()) :
    ∃ names : List Name, relativePath cgroupsPath id = pushAll "" names ∧
      (names ≠ [] ↔ NamesACgroup cgroupsPath) := by
  obtain ⟨parent, -, hdefault⟩ := defaultPath_eq ⟨id, plain_of_validateId hid⟩
  cases cgroupsPath with
  | none => exact ⟨_, hdefault, by simp [NamesACgroup]⟩
  | some path =>
      by_cases hempty : path = ""
      · refine ⟨_, by simpa [relativePath, hempty] using hdefault, ?_⟩
        simp [NamesACgroup, hempty]
      · refine ⟨namesOf (components path), ?_, ?_⟩
        · simp [relativePath, hempty, normalise_eq]
        · rw [namesOf_ne_nil]
          constructor
          · rintro hname p hp -
            obtain rfl : path = p := by simpa using hp
            exact hname
          · intro hnames
            exact hnames path rfl hempty

/-- Both constructors push the same names onto the mount point. -/
theorem create_attach_agree {fails : Access → Bool} {h h' : Hierarchy} {names : List Name}
    {cgroup : Cgroup} (hrun : Cgroup.create fails h (pushAll "" names) = (h', .ok cgroup)) :
    SameEntry cgroup.path (Cgroup.attach (pushAll "" names)).path ∧
      cgroup.relative = pushAll "" names := by
  obtain ⟨hpath, hrelative⟩ := create_ok hrun
  have hempty : components "" = [] := by decide
  refine ⟨?_, hrelative⟩
  rw [SameEntry, hpath, components_pushAll, components_pushAll, hempty, List.nil_append,
    namesOf_map_normal, Cgroup.attach, components_join_pushAll]

/-- The path is properly placed exactly when the spec names a cgroup. -/
theorem relativePath_placed_iff {cgroupsPath : Option String} {id : String}
    (hid : validateId id = .ok ()) :
    ProperlyPlaced cgroupsPath id ↔ NamesACgroup cgroupsPath := by
  obtain ⟨names, hrelative, hnames⟩ := relativePath_eq cgroupsPath hid
  have hempty : components "" = [] := by decide
  have hcomponents : components (relativePath cgroupsPath id) = names.map .normal := by
    rw [hrelative, components_pushAll, hempty, List.nil_append]
  rw [← hnames]
  constructor
  · intro placed
    obtain ⟨others, hne, hothers⟩ := placed.names
    rw [hcomponents] at hothers
    rintro rfl
    exact hne (by simpa using hothers.symm)
  · intro hne
    refine ⟨⟨names, hne, hcomponents⟩, ?_, ⟨names, hne, ?_⟩⟩
    · intro fails h h' cgroup hrun
      rw [hrelative] at hrun ⊢
      obtain ⟨hsame, hcopy⟩ := create_attach_agree hrun
      exact ⟨hsame, by rw [hcopy]; exact hsame⟩
    · rw [hrelative, Cgroup.attach, components_join_pushAll]

theorem relativePath_placed_slice :
    validateId "demo" = .ok () ∧ ProperlyPlaced (some "/system.slice/../demo") "demo" :=
  ⟨by decide, (relativePath_placed_iff (by decide)).mpr (by
    rintro path hpath -
    obtain rfl : "/system.slice/../demo" = path := by simpa using hpath
    exact ⟨⟨"demo", by decide⟩, by decide⟩)⟩

/-- A path of separators leaves nothing, and the cgroup is the mount point itself. -/
theorem relativePath_of_slash :
    validateId "demo" = .ok () ∧ components (relativePath (some "/") "demo") = [] ∧
      SameEntry (Cgroup.attach (relativePath (some "/") "demo")).path MOUNT_POINT ∧
      ¬ ProperlyPlaced (some "/") "demo" := by
  refine ⟨by decide, by decide, by decide, ?_⟩
  intro placed
  obtain ⟨names, hne, hnames⟩ := placed.names
  have hempty : components (relativePath (some "/") "demo") = [] := by decide
  rw [hempty] at hnames
  exact hne (by simpa using hnames.symm)

end Mars.V2
