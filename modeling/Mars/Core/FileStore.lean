import Mathlib.Data.List.AList

/-! # Directories and files, found by path

What is at each path, and the calls that change it. A call that is refused
changes nothing. A rename puts one file in the place of another in one step.
-/

namespace FileStore

inductive Node (α : Type) where
  | dir
  | file (data : List α)
  deriving DecidableEq

/-- What is at each path that leads anywhere. -/
abbrev Files (Part α : Type) := AList fun _ : List Part => Node α

section calls
variable {Part α : Type} [DecidableEq Part]

def isDir (files : Files Part α) (path : List Part) : Bool :=
  match files.lookup path with
  | some .dir => true
  | _ => false

def contents (files : Files Part α) (path : List Part) : Option (List α) :=
  match files.lookup path with
  | some (.file data) => some data
  | _ => none

def isFile (files : Files Part α) (path : List Part) : Bool := (contents files path).isSome

/-- Making a directory that is there is not refused. Where a path begins there is
a directory that is not looked up. -/
def makeDir (files : Files Part α) (path : List Part) : Option (Files Part α) :=
  match files.lookup path with
  | none =>
      if path.dropLast = [] ∨ isDir files path.dropLast then some (files.insert path .dir)
      else none
  | some .dir => some files
  | some (.file _) => none

/-- The file is made, or emptied where it is there. -/
def truncate (files : Files Part α) (path : List Part) : Option (Files Part α) :=
  if isDir files path.dropLast ∧ !isDir files path then some (files.insert path (.file []))
  else none

def append (files : Files Part α) (path : List Part) (data : List α) : Option (Files Part α) :=
  (contents files path).map fun old => files.insert path (.file (old ++ data))

def rename (files : Files Part α) (source target : List Part) : Option (Files Part α) :=
  if isDir files target.dropLast ∧ !isDir files target then
    (contents files source).map fun data => (files.erase source).insert target (.file data)
  else none

/-- The directory goes with everything below it. -/
def removeAll (files : Files Part α) (path : List Part) : Files Part α :=
  (files.keys.filter fun key => path <+: key).foldl (fun left key => left.erase key) files

/-- The name of the entry in this directory that the path leads to. -/
def entryOf (path key : List Part) : Option Part :=
  if key.dropLast = path then key.getLast? else none

/-- The entries of a directory. -/
def names (files : Files Part α) (path : List Part) : List Part :=
  files.keys.filterMap (entryOf path)

end calls

/-! ## What a call changes -/

section lookups
variable {Part α : Type} [DecidableEq Part] {files files' : Files Part α}
  {path source target : List Part} {data : List α}

theorem isDir_iff : isDir files path = true ↔ files.lookup path = some .dir := by
  unfold isDir
  split <;> simp_all

theorem contents_eq_some :
    contents files path = some data ↔ files.lookup path = some (.file data) := by
  unfold contents
  split <;> simp_all

theorem lookup_insert (node : Node α) (q : List Part) :
    (files.insert path node).lookup q = if q = path then some node else files.lookup q := by
  by_cases hq : q = path
  · subst hq
    rw [if_pos rfl, AList.lookup_insert]
  · rw [if_neg hq, AList.lookup_insert_ne hq]

theorem lookup_erase (q : List Part) :
    (files.erase path).lookup q = if q = path then none else files.lookup q := by
  by_cases hq : q = path
  · subst hq
    rw [if_pos rfl, AList.lookup_erase]
  · rw [if_neg hq, AList.lookup_erase_ne hq]

theorem lookup_makeDir (h : makeDir files path = some files') (q : List Part) :
    files'.lookup q = if q = path then some .dir else files.lookup q := by
  unfold makeDir at h
  split at h
  next =>
    split at h <;> cases h
    exact lookup_insert .dir q
  next hdir =>
    cases h
    split
    next hq => rw [hq, hdir]
    next => rfl
  next => cases h

theorem lookup_truncate (h : truncate files path = some files') (q : List Part) :
    files'.lookup q = if q = path then some (.file []) else files.lookup q := by
  unfold truncate at h
  split at h
  next =>
    cases h
    exact lookup_insert (.file []) q
  next => cases h

theorem lookup_append (h : append files path data = some files') :
    ∃ old, contents files path = some old ∧ ∀ q, files'.lookup q =
      if q = path then some (.file (old ++ data)) else files.lookup q := by
  obtain ⟨old, hold, rfl⟩ := Option.map_eq_some_iff.mp h
  exact ⟨old, hold, lookup_insert (.file (old ++ data))⟩

theorem lookup_rename (h : rename files source target = some files') :
    ∃ data, contents files source = some data ∧ ∀ q, files'.lookup q =
      if q = target then some (.file data) else if q = source then none else files.lookup q := by
  unfold rename at h
  split at h
  next =>
    obtain ⟨data, hdata, rfl⟩ := Option.map_eq_some_iff.mp h
    refine ⟨data, hdata, ?_⟩
    intro q
    rw [lookup_insert, lookup_erase]
  next => cases h

theorem lookup_erase_all (keys : List (List Part)) (files : Files Part α) (q : List Part) :
    (keys.foldl (fun left key => left.erase key) files).lookup q =
      if q ∈ keys then none else files.lookup q := by
  induction keys generalizing files with
  | nil => rfl
  | cons key rest ih =>
      rw [List.foldl_cons, ih, lookup_erase]
      by_cases hkey : q = key
      · simp [hkey]
      · simp [hkey]

theorem lookup_removeAll (q : List Part) :
    (removeAll files path).lookup q = if path <+: q then none else files.lookup q := by
  rw [removeAll, lookup_erase_all]
  by_cases hpath : path <+: q
  · by_cases hmem : q ∈ files
    · have hkey : q ∈ files.keys.filter fun key => path <+: key :=
        List.mem_filter.mpr ⟨AList.mem_keys.mp hmem, by simpa using hpath⟩
      rw [if_pos hkey, if_pos hpath]
    · rw [AList.lookup_eq_none.mpr hmem, if_pos hpath, ite_self]
  · have hkey : q ∉ files.keys.filter fun key => path <+: key := by
      intro hmem
      exact hpath (by simpa using (List.mem_filter.mp hmem).2)
    rw [if_neg hkey, if_neg hpath]

end lookups

/-! ## The entries of a directory -/

section entries
variable {Part α : Type} [DecidableEq Part] {files : Files Part α} {path key : List Part}
  {name : Part}

theorem entryOf_eq_some : entryOf path key = some name ↔ key = path ++ [name] := by
  unfold entryOf
  constructor
  · intro h
    split at h
    next hpath =>
      obtain ⟨front, hfront⟩ := List.getLast?_eq_some_iff.mp h
      rw [hfront, List.dropLast_concat] at hpath
      rw [hfront, hpath]
    next => cases h
  · rintro rfl
    simp

theorem mem_names : name ∈ names files path ↔ (files.lookup (path ++ [name])).isSome := by
  rw [AList.lookup_isSome, AList.mem_keys, names, List.mem_filterMap]
  constructor
  · intro ⟨key, hkey, hentry⟩
    rwa [entryOf_eq_some.mp hentry] at hkey
  · intro hkey
    exact ⟨_, hkey, entryOf_eq_some.mpr rfl⟩

theorem nodup_names (files : Files Part α) (path : List Part) : (names files path).Nodup := by
  apply files.keys_nodup.filterMap
  intro a b name ha hb
  rw [entryOf_eq_some.mp ha, entryOf_eq_some.mp hb]

end entries

end FileStore
