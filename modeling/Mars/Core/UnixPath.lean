import Mathlib.Data.List.Basic

/-! # Unix paths as text, and what they denote

A path is kept as the text the program holds. `components` is its lexical
reading, `join` the text a push produces. Two paths name the same entry of a
tree without links when their components agree, so every lemma below is about
components. A normal component carries the proof that it is a plain name.
-/

namespace UnixPath

/-- A text that names one entry of a directory. -/
def Plain (text : String) : Prop :=
  text ≠ "" ∧ text ≠ "." ∧ text ≠ ".." ∧ '/' ∉ text.toList

instance (text : String) : Decidable (Plain text) := by
  unfold Plain
  infer_instance

structure Name where
  text : String
  plain : Plain text
  deriving DecidableEq

inductive Component where
  | rootDir
  | curDir
  | parentDir
  | normal (name : Name)
  deriving DecidableEq

-- by name, so that every test for membership in a list of paths is one term
instance : LawfulBEq (List Component) := inferInstance

def isAbsolute (path : String) : Bool := path.toList.head? == some '/'

def segments (path : String) : List String :=
  ((path.toList.splitOn '/').filter (· ≠ [])).map String.ofList

/-- What one segment contributes anywhere but at the start of a relative path. -/
def ofSegment (segment : String) : Option Component :=
  if segment = ".." then some .parentDir
  else if h : Plain segment then some (.normal ⟨segment, h⟩)
  else none

/-- The segments of a relative path: a `.` counts only in front. -/
def ofRelative : List String → List Component
  | "." :: rest => .curDir :: rest.filterMap ofSegment
  | all => all.filterMap ofSegment

/-- Repeated and trailing separators vanish, and so does `.` except in front. -/
def components (path : String) : List Component :=
  if isAbsolute path then .rootDir :: (segments path).filterMap ofSegment
  else ofRelative (segments path)

/-- Pushing an absolute path replaces what was there. -/
def join (base path : String) : String :=
  if isAbsolute path then path
  else if base = "" then path
  else if base.toList.getLast? = some '/' then base ++ path
  else base ++ "/" ++ path

/-- A root and an empty path have no parent. -/
def parent (path : List Component) : Option (List Component) :=
  if path = [] ∨ path = [.rootDir] then none else some path.dropLast

def Component.text : Component → String
  | .rootDir => ""
  | .curDir => "."
  | .parentDir => ".."
  | .normal name => name.text

def display (path : List Component) : String :=
  if path = [.rootDir] then "/" else "/".intercalate (path.map Component.text)

/-- Equality of paths is equality of components. -/
def SameEntry (a b : String) : Prop := components a = components b

instance (a b : String) : Decidable (SameEntry a b) :=
  inferInstanceAs (Decidable (components a = components b))

/-- Some plain names lead from `base` down to `path`. -/
def StrictlyBelow (path base : String) : Prop :=
  ∃ names : List Name, names ≠ [] ∧ components path = components base ++ names.map .normal

/-! ## Segments -/

theorem segments_of_plain {text : String} (h : Plain text) : segments text = [text] := by
  obtain ⟨hne, -, -, hslash⟩ := h
  have hchars : text.toList ≠ [] := by
    intro hnil
    exact hne (String.toList_inj.mp (by simpa using hnil))
  simp [segments, List.splitOn_eq_singleton hslash, hchars]

theorem isAbsolute_of_plain {text : String} (h : Plain text) : isAbsolute text = false := by
  cases hc : text.toList with
  | nil => simp [isAbsolute, hc]
  | cons c rest =>
      have hmem : c ∈ text.toList := by simp [hc]
      have hne : c ≠ '/' := fun he => h.2.2.2 (he ▸ hmem)
      simp [isAbsolute, hc, hne]

theorem segments_append_slash (a b : String) :
    segments (a ++ "/" ++ b) = segments a ++ segments b := by
  have hsplit := List.splitOn_append_cons_self (a := '/') a.toList b.toList
  simp only [segments, String.toList_append]
  rw [show a.toList ++ "/".toList ++ b.toList = a.toList ++ '/' :: b.toList by simp, hsplit]
  simp

theorem segments_empty : segments "" = [] := by decide

/-- A text that ends in a separator splits like the text in front of it. -/
theorem segments_append_of_trailing {a b : String} (h : a.toList.getLast? = some '/') :
    segments (a ++ b) = segments a ++ segments b := by
  obtain ⟨front, hfront⟩ := List.getLast?_eq_some_iff.mp h
  have ha : a = String.ofList front ++ "/" := by
    apply String.toList_inj.mp
    simp [hfront]
  have hself : segments (String.ofList front ++ "/") = segments (String.ofList front) := by
    have := segments_append_slash (String.ofList front) ""
    simpa [segments_empty] using this
  rw [ha, hself, segments_append_slash]

theorem segments_join {base path : String} (h : isAbsolute path = false) :
    segments (join base path) = segments base ++ segments path := by
  unfold join
  rw [if_neg (by simp [h])]
  split
  next hempty => simp [hempty, segments_empty]
  next =>
    split
    next hslash => exact segments_append_of_trailing hslash
    next => exact segments_append_slash base path

theorem isAbsolute_append {a : String} (b : String) (h : a ≠ "") :
    isAbsolute (a ++ b) = isAbsolute a := by
  cases ha : a.toList with
  | nil => exact absurd (String.toList_inj.mp (by simpa using ha)) h
  | cons c rest => simp [isAbsolute, ha]

theorem isAbsolute_join {base path : String} (hpath : isAbsolute path = false) :
    isAbsolute (join base path) = isAbsolute base := by
  unfold join
  rw [if_neg (by simp [hpath])]
  split
  next hempty => rw [hempty, hpath]; decide
  next hbase =>
    split
    next => exact isAbsolute_append path hbase
    next => rw [String.append_assoc]; exact isAbsolute_append _ hbase

/-! ## Components -/

@[simp] theorem ofSegment_name (name : Name) : ofSegment name.text = some (.normal name) := by
  have hdots : name.text ≠ ".." := name.plain.2.2.1
  simp [ofSegment, hdots, name.plain]

theorem ofSegment_names (names : List Name) :
    (names.map Name.text).filterMap ofSegment = names.map .normal := by
  induction names with
  | nil => rfl
  | cons name rest ih => simp [ih]

theorem exists_names {all : List String} (h : ∀ text ∈ all, Plain text) :
    ∃ names : List Name, all = names.map Name.text := by
  induction all with
  | nil => exact ⟨[], rfl⟩
  | cons first rest ih =>
      obtain ⟨hfirst, hrest⟩ := List.forall_mem_cons.mp h
      obtain ⟨names, rfl⟩ := ih hrest
      exact ⟨⟨first, hfirst⟩ :: names, rfl⟩

theorem ofRelative_of_head {segs : List String} (h : segs.head? ≠ some ".") :
    ofRelative segs = segs.filterMap ofSegment := by
  cases segs with
  | nil => rfl
  | cons s rest =>
      have hs : s ≠ "." := by simpa using h
      simp [ofRelative, hs]

theorem ofRelative_append (front : List String) {back : List String}
    (h : back.head? ≠ some ".") :
    ofRelative (front ++ back) = ofRelative front ++ back.filterMap ofSegment := by
  cases front with
  | nil => simpa [ofRelative] using ofRelative_of_head h
  | cons s rest =>
      by_cases hs : s = "."
      · simp [hs, ofRelative]
      · rw [ofRelative_of_head (by simpa using hs), ofRelative_of_head (by simpa using hs),
          List.filterMap_append]

/-- Pushing text whose first segment is not `.` appends its components. -/
theorem components_join {base path : String} (hpath : isAbsolute path = false)
    (hdot : (segments path).head? ≠ some ".") :
    components (join base path) = components base ++ (segments path).filterMap ofSegment := by
  simp only [components, isAbsolute_join hpath, segments_join hpath]
  split
  next => simp
  next => exact ofRelative_append _ hdot

theorem components_join_name (base : String) (name : Name) :
    components (join base name.text) = components base ++ [.normal name] := by
  have hsegs := segments_of_plain name.plain
  have hdot : (segments name.text).head? ≠ some "." := by
    simpa [hsegs] using name.plain.2.1
  rw [components_join (isAbsolute_of_plain name.plain) hdot, hsegs]
  simp

/-- Pushing a text that reads as names appends them. -/
theorem components_join_names (base : String) {path : String} {names : List Name}
    (h : components path = names.map .normal) :
    components (join base path) = components base ++ names.map .normal := by
  have hrel : isAbsolute path = false := by
    rw [Bool.eq_false_iff]
    intro habs
    rw [components, if_pos habs] at h
    cases names <;> cases h
  rw [components, if_neg (by simp [hrel])] at h
  have hdot : (segments path).head? ≠ some "." := by
    intro hhead
    obtain ⟨rest, hsegs⟩ := List.head?_eq_some_iff.mp hhead
    rw [hsegs, ofRelative] at h
    cases names <;> cases h
  rw [components_join hrel hdot, ← ofRelative_of_head hdot, h]

/-- Push a run of names one after another. -/
def pushAll (base : String) (names : List Name) : String :=
  names.foldl (fun out name => join out name.text) base

theorem components_pushAll (base : String) (names : List Name) :
    components (pushAll base names) = components base ++ names.map .normal := by
  induction names generalizing base with
  | nil => simp [pushAll]
  | cons name rest ih =>
      have hrest := ih (join base name.text)
      simp only [pushAll, List.foldl_cons] at hrest ⊢
      rw [hrest, components_join_name]
      simp

/-- Names pushed onto nothing and then onto `base` are names pushed onto `base`. -/
theorem components_join_pushAll (base : String) (names : List Name) :
    components (join base (pushAll "" names)) = components base ++ names.map .normal :=
  components_join_names base (components_pushAll "" names)

/-! ## The root -/

theorem ofSegment_ne_rootDir (segment : String) : ofSegment segment ≠ some .rootDir := by
  unfold ofSegment
  split
  · simp
  · split <;> simp

theorem rootDir_not_mem_ofSegment (all : List String) :
    Component.rootDir ∉ all.filterMap ofSegment := by
  intro h
  obtain ⟨segment, -, hsegment⟩ := List.mem_filterMap.mp h
  exact ofSegment_ne_rootDir segment hsegment

theorem rootDir_not_mem_ofRelative (all : List String) : Component.rootDir ∉ ofRelative all := by
  unfold ofRelative
  split
  · intro h
    rcases List.mem_cons.mp h with h | h
    · cases h
    · exact rootDir_not_mem_ofSegment _ h
  · exact rootDir_not_mem_ofSegment _

/-- The root can only stand in front. -/
theorem components_cases (path : String) :
    ∃ rest, Component.rootDir ∉ rest ∧
      (components path = .rootDir :: rest ∨ components path = rest) := by
  unfold components
  split
  · exact ⟨_, rootDir_not_mem_ofSegment _, Or.inl rfl⟩
  · exact ⟨_, rootDir_not_mem_ofRelative _, Or.inr rfl⟩

theorem isAbsolute_of_head {path : String} (h : (components path).head? = some .rootDir) :
    isAbsolute path := by
  by_contra habs
  rw [components, if_neg habs] at h
  exact rootDir_not_mem_ofRelative _ (List.mem_of_head? h)

/-- A relative path that is not empty starts with a segment. -/
theorem segments_relative {path : String} (hne : path ≠ "") (hrel : isAbsolute path = false) :
    ∃ first rest, segments path = first :: rest ∧ first ≠ "" ∧ '/' ∉ first.toList := by
  have hchars : path.toList ≠ [] := by
    intro hnil
    exact hne (String.toList_inj.mp (by simpa using hnil))
  by_cases hslash : '/' ∈ path.toList
  · obtain ⟨front, back, hpath, hfront⟩ := List.eq_append_cons_of_mem hslash
    have hsome : front ≠ [] := by
      rintro rfl
      simp [isAbsolute, hpath] at hrel
    refine ⟨String.ofList front, ((back.splitOn '/').filter (· ≠ [])).map String.ofList,
      ?_, ?_, by simpa using hfront⟩
    · rw [segments, hpath, List.splitOn_append_cons_self_of_not_mem hfront,
        List.filter_cons_of_pos (by simpa using hsome), List.map_cons]
    · intro hempty
      exact hsome (by simpa using congrArg String.toList hempty)
  · refine ⟨path, [], ?_, hne, hslash⟩
    simp [segments, List.splitOn_eq_singleton hslash, hchars]

/-- Only the empty path has no components. -/
theorem components_ne_nil {path : String} (hne : path ≠ "") : components path ≠ [] := by
  unfold components
  split
  next => simp
  next hrel =>
    obtain ⟨first, rest, hsegs, hfirst, hslash⟩ :=
      segments_relative hne (by simpa using hrel)
    rw [hsegs]
    unfold ofRelative
    split
    next => simp
    next hdot =>
      have hsome : (ofSegment first).isSome := by
        unfold ofSegment
        split
        next => rfl
        next hdots =>
          have hplain : Plain first := ⟨hfirst, fun heq => hdot _ (by rw [heq]), hdots, hslash⟩
          rw [dif_pos hplain]
          rfl
      obtain ⟨part, hpart⟩ := Option.isSome_iff_exists.mp hsome
      simp [hpart]

/-! ## Opening for writing -/

/-- What stands behind the last separator. -/
def lastPiece (path : String) : String :=
  String.ofList ((path.toList.splitOn '/').getLast?.getD [])

/-- The kernel refuses to write to a path that can only name a directory, and a
text with a nul byte never reaches it. -/
def NamesFile (path : String) : Prop := Plain (lastPiece path) ∧ '\x00' ∉ path.toList

instance (path : String) : Decidable (NamesFile path) :=
  inferInstanceAs (Decidable (_ ∧ _))

theorem lastPiece_of_plain {text : String} (h : Plain text) : lastPiece text = text := by
  simp [lastPiece, List.splitOn_eq_singleton h.2.2.2]

theorem lastPiece_append_slash (base : String) {text : String} (h : Plain text) :
    lastPiece (base ++ "/" ++ text) = text := by
  have hsplit := List.splitOn_append_cons_self (a := '/') base.toList text.toList
  have hlist : (base ++ "/" ++ text).toList = base.toList ++ '/' :: text.toList := by simp
  rw [lastPiece, hlist, hsplit, List.splitOn_eq_singleton h.2.2.2]
  simp

theorem lastPiece_join (base : String) {text : String} (h : Plain text) :
    lastPiece (join base text) = text := by
  unfold join
  rw [if_neg (by simp [isAbsolute_of_plain h])]
  split
  next => exact lastPiece_of_plain h
  next =>
    split
    next hslash =>
      obtain ⟨front, hfront⟩ := List.getLast?_eq_some_iff.mp hslash
      have hbase : base = String.ofList front ++ "/" := by
        apply String.toList_inj.mp
        simp [hfront]
      rw [hbase]
      exact lastPiece_append_slash _ h
    next => exact lastPiece_append_slash base h

theorem nul_not_mem_join {base text : String} (hbase : '\x00' ∉ base.toList)
    (htext : '\x00' ∉ text.toList) : '\x00' ∉ (join base text).toList := by
  unfold join
  split
  · exact htext
  · split
    · exact htext
    · split <;> simp [hbase, htext]

end UnixPath
