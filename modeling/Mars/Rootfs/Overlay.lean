import Mathlib.Data.String.Basic
import Mars.Cgroup.Resources
import Mars.Core.Escape

/-! # The option string of an overlay

The layers of an overlay rootfs come from three annotations of the bundle and
go to the kernel as one comma-separated text of mount options, in which a colon
separates lower layers and a backslash escapes.
-/

namespace Mars.Overlay
open UnixPath V2
open Text (debugText)

def LOWERDIR : String := "dev.mars.overlay.lowerdir"
def UPPERDIR : String := "dev.mars.overlay.upperdir"
def WORKDIR : String := "dev.mars.overlay.workdir"

def MAX_OPTION_BYTES : Nat := 4096

structure Layers where
  lower : List String
  upper : Option String
  work : Option String
  deriving DecidableEq

def Layers.isReadonly (layers : Layers) : Bool := layers.upper.isNone

def Layers.paths (layers : Layers) : List String :=
  layers.lower ++ layers.upper.toList ++ layers.work.toList

/-! ## From the annotations -/

def absolute (bundle dir : String) : String :=
  if isAbsolute dir then dir else join bundle dir

def splitLowerdir (value : String) : List String :=
  ((Escape.scan '\\' ':' [] value.toList).filter (· ≠ [])).map String.ofList

def fromAnnotations (annotations : List (String × String)) (bundle : String) :
    Except Error (Option Layers) :=
  let upper := annotations.lookup UPPERDIR
  let work := annotations.lookup WORKDIR
  match (annotations.lookup LOWERDIR).filter (·.toList.any (! Text.isWhitespace ·)) with
  | none =>
      if upper.isSome ∨ work.isSome then
        .error (.overlay (UPPERDIR ++ " or " ++ WORKDIR ++ " is set but " ++ LOWERDIR ++ " is not"))
      else .ok none
  | some lower =>
      let lower := (splitLowerdir lower).map (absolute bundle)
      if lower = [] then .error (.overlay (LOWERDIR ++ " lists no directories"))
      else .ok (some { lower, upper := upper.map (absolute bundle),
                       work := work.map (absolute bundle) })

theorem isAbsolute_absolute {bundle : String} (h : isAbsolute bundle) (dir : String) :
    isAbsolute (absolute bundle dir) := by
  unfold absolute
  split
  next habs => exact habs
  next hrel => rw [isAbsolute_join (by simpa using hrel), h]

/-- Layers of a bundle list a lower layer, and every path of theirs is absolute. -/
theorem fromAnnotations_layers {annotations : List (String × String)} {bundle : String}
    (hbundle : isAbsolute bundle) {layers : Layers}
    (h : fromAnnotations annotations bundle = .ok (some layers)) :
    layers.lower ≠ [] ∧ ∀ path ∈ layers.paths, isAbsolute path := by
  unfold fromAnnotations at h
  dsimp only at h
  split at h
  next => split at h <;> simp at h
  next lower _ =>
    split at h
    next => cases h
    next hlower =>
      obtain rfl := Option.some.inj (Except.ok.inj h)
      refine ⟨hlower, ?_⟩
      intro path hpath
      simp only [Layers.paths, List.mem_append, List.mem_map, Option.mem_toList,
        Option.map_eq_some_iff] at hpath
      rcases hpath with (⟨dir, -, rfl⟩ | ⟨dir, -, rfl⟩) | ⟨dir, -, rfl⟩ <;>
        exact isAbsolute_absolute hbundle dir

/-! ## To the kernel -/

def escaped (path : String) : String := String.ofList (Escape.escape '\\' ':' path.toList)

def escape (path : String) : Except Error String :=
  if ',' ∈ path.toList then
    .error (.overlay (debugText path ++ " contains a comma; overlayfs separates mount options " ++
      "with commas and provides no way to escape one"))
  else .ok (escaped path)

def parts (lower : List String) (upper work : Option String) : List String :=
  ["lowerdir=" ++ ":".intercalate lower] ++ (upper.map ("upperdir=" ++ ·)).toList ++
    (work.map ("workdir=" ++ ·)).toList

def options (layers : Layers) : Except Error String := do
  let lower ← layers.lower.mapM escape
  let upper ← layers.upper.mapM escape
  let work ← layers.work.mapM escape
  return ",".intercalate (parts lower upper work)

/-! ## What the kernel reads -/

def fields (data : String) : List String := (data.toList.splitOn ',').map String.ofList

/-- One field of lower layers, then at most one for each of the other two, and
in every field the paths themselves. -/
def Reads (data : String) (layers : Layers) : Prop :=
  ∃ (lower : String) (upper work : Option String),
    fields data = ["lowerdir=" ++ lower] ++ (upper.map ("upperdir=" ++ ·)).toList ++
      (work.map ("workdir=" ++ ·)).toList ∧
    splitLowerdir lower = layers.lower ∧
    upper.map splitLowerdir = layers.upper.map ([·]) ∧
    work.map splitLowerdir = layers.work.map ([·])

/-! ## Escaping fails on commas alone -/

theorem escape_eq_ok {path text : String} :
    escape path = .ok text ↔ ',' ∉ path.toList ∧ text = escaped path := by
  unfold escape
  split
  next hcomma => simp [hcomma]
  next hcomma => simp [hcomma, eq_comm]

theorem mapM_escape_eq_ok {paths texts : List String} :
    paths.mapM escape = .ok texts ↔
      (∀ path ∈ paths, ',' ∉ path.toList) ∧ texts = paths.map escaped := by
  induction paths generalizing texts with
  | nil => simp [pure, Except.pure, eq_comm]
  | cons path rest ih =>
      simp only [mapM_cons_eq_ok, escape_eq_ok, ih, List.forall_mem_cons, List.map_cons]
      constructor
      · rintro ⟨_, _, ⟨hpath, rfl⟩, ⟨hrest, rfl⟩, rfl⟩
        exact ⟨⟨hpath, hrest⟩, rfl⟩
      · rintro ⟨⟨hpath, hrest⟩, rfl⟩
        exact ⟨_, _, ⟨hpath, rfl⟩, ⟨hrest, rfl⟩, rfl⟩

theorem option_mapM_escape_eq_ok {dir text : Option String} :
    dir.mapM escape = .ok text ↔
      (∀ path ∈ dir.toList, ',' ∉ path.toList) ∧ text = dir.map escaped := by
  cases dir with
  | none => simp [pure, Except.pure, eq_comm]
  | some path =>
      simp only [Option.mapM_some, Option.toList_some, List.mem_singleton, forall_eq,
        Option.map_some, Functor.map, Except.map]
      cases hescape : escape path with
      | error e =>
          have hcomma : ',' ∈ path.toList := by
            by_contra hnot
            exact absurd (escape_eq_ok.mpr ⟨hnot, rfl⟩) (by simp [hescape])
          simp [hcomma]
      | ok escapedText =>
          obtain ⟨hcomma, rfl⟩ := escape_eq_ok.mp hescape
          simp [hcomma, eq_comm]

def encoded (layers : Layers) : List String :=
  parts (layers.lower.map escaped) (layers.upper.map escaped) (layers.work.map escaped)

theorem options_eq_ok {layers : Layers} {data : String} :
    options layers = .ok data ↔
      (∀ path ∈ layers.paths, ',' ∉ path.toList) ∧ data = ",".intercalate (encoded layers) := by
  simp only [options, bind_eq_ok, mapM_escape_eq_ok, option_mapM_escape_eq_ok, pure_eq_ok,
    Layers.paths, List.forall_mem_append]
  constructor
  · rintro ⟨_, ⟨hlower, rfl⟩, _, ⟨hupper, rfl⟩, _, ⟨hwork, rfl⟩, rfl⟩
    exact ⟨⟨⟨hlower, hupper⟩, hwork⟩, rfl⟩
  · rintro ⟨⟨⟨hlower, hupper⟩, hwork⟩, rfl⟩
    exact ⟨_, ⟨hlower, rfl⟩, _, ⟨hupper, rfl⟩, _, ⟨hwork, rfl⟩, rfl⟩

theorem options_fails_iff (layers : Layers) :
    (∃ error, options layers = .error error) ↔ ∃ path ∈ layers.paths, ',' ∈ path.toList := by
  cases hoptions : options layers with
  | error e =>
      have hcomma : ∃ path ∈ layers.paths, ',' ∈ path.toList := by
        by_contra hnone
        push Not at hnone
        simpa [hoptions] using options_eq_ok.mpr ⟨hnone, rfl⟩
      simp [hcomma]
  | ok data =>
      have hnone := (options_eq_ok.mp hoptions).1
      simpa using hnone

/-! ## Reading back -/

theorem splitLowerdir_intercalate {paths : List String} (hnonempty : ∀ path ∈ paths, path ≠ "") :
    splitLowerdir (":".intercalate (paths.map escaped)) = paths := by
  by_cases hpaths : paths = []
  · rw [hpaths]
    rfl
  have hscan := @Escape.scan_intercalate Char _ '\\' ':' (by decide)
    (paths.map String.toList) (by simpa using hpaths)
  have hvalue : (":".intercalate (paths.map escaped)).toList =
      [':'].intercalate ((paths.map String.toList).map (Escape.escape '\\' ':')) := by
    simp [String.toList_intercalate, escaped, Function.comp_def]
  have hkept : (paths.map String.toList).filter (· ≠ []) = paths.map String.toList := by
    refine List.filter_eq_self.mpr ?_
    simpa using hnonempty
  rw [splitLowerdir, hvalue, hscan, hkept]
  simp [Function.comp_def]

theorem splitLowerdir_escaped {path : String} (h : path ≠ "") :
    splitLowerdir (escaped path) = [path] := by
  simpa using @splitLowerdir_intercalate [path] (by simpa using h)

theorem map_splitLowerdir {dir : Option String} (h : ∀ path ∈ dir.toList, path ≠ "") :
    (dir.map escaped).map splitLowerdir = dir.map ([·]) := by
  cases dir with
  | none => rfl
  | some path => simpa using splitLowerdir_escaped (h path (by simp))

theorem fields_intercalate {all : List String} (hall : all ≠ [])
    (hcomma : ∀ field ∈ all, ',' ∉ field.toList) : fields (",".intercalate all) = all := by
  have hsplit := @List.splitOn_intercalate Char (all.map String.toList) _ _ ','
    (by simpa using hcomma) (by simpa using hall)
  rw [fields, String.toList_intercalate, show ",".toList = [','] from rfl, hsplit]
  simp [Function.comp_def]

theorem mem_joined {sep : String} {c : Char} (hsep : c ∉ sep.toList) {texts : List String} :
    c ∈ (sep.intercalate texts).toList ↔ ∃ text ∈ texts, c ∈ text.toList := by
  induction texts with
  | nil => simp
  | cons text rest ih =>
      cases rest with
      | nil => simp
      | cons second others =>
          rw [String.intercalate_cons_cons, String.toList_append, String.toList_append,
            List.mem_append, List.mem_append, ih, List.exists_mem_cons_iff]
          simp [hsep]

theorem mem_escaped {path : String} {c : Char} (h : c ≠ '\\') :
    c ∈ (escaped path).toList ↔ c ∈ path.toList := by
  simp [escaped, Escape.mem_escape (show '\\' ≠ ':' by decide) h]

/-- The characters of a path, whichever field it stands in. -/
theorem mem_encoded {layers : Layers} {c : Char} (hmark : c ≠ '\\') (hcolon : c ≠ ':')
    (hnames : ∀ name ∈ ["lowerdir=", "upperdir=", "workdir="], c ∉ name.toList) :
    (∃ field ∈ encoded layers, c ∈ field.toList) ↔ ∃ path ∈ layers.paths, c ∈ path.toList := by
  obtain ⟨hlower, hupper, hwork⟩ : c ∉ "lowerdir=".toList ∧ c ∉ "upperdir=".toList ∧
      c ∉ "workdir=".toList := by
    simpa using hnames
  have hjoined : c ∈ (":".intercalate (layers.lower.map escaped)).toList ↔
      ∃ path ∈ layers.lower, c ∈ path.toList := by
    rw [mem_joined (by simpa using hcolon)]
    simp [mem_escaped hmark]
  simp only [encoded, parts, Layers.paths, List.mem_append, List.mem_singleton, or_and_right,
    exists_or, exists_eq_left, String.toList_append, hlower, false_or, hjoined]
  refine or_congr (or_congr Iff.rfl ?_) ?_
  · cases layers.upper with
    | none => simp
    | some path => simp [mem_escaped hmark, -String.reduceToList, hupper]
  · cases layers.work with
    | none => simp
    | some path => simp [mem_escaped hmark, -String.reduceToList, hwork]

theorem reads_encoded {layers : Layers} (hpaths : ∀ path ∈ layers.paths, path ≠ "")
    (hcomma : ∀ path ∈ layers.paths, ',' ∉ path.toList) :
    Reads (",".intercalate (encoded layers)) layers := by
  have hnone : ¬ ∃ field ∈ encoded layers, ',' ∈ field.toList := by
    rw [mem_encoded (by decide) (by decide) (by decide)]
    simpa using hcomma
  have hfields := fields_intercalate (show encoded layers ≠ [] by simp [encoded, parts])
    (by simpa using hnone)
  simp only [Layers.paths, List.forall_mem_append] at hpaths
  obtain ⟨⟨hlower, hupper⟩, hwork⟩ := hpaths
  exact ⟨_, _, _, hfields, splitLowerdir_intercalate hlower,
    map_splitLowerdir hupper, map_splitLowerdir hwork⟩

/-- Only a comma keeps layers from being written down, and what is written down
is read back as the same layers. -/
theorem options_round_trip (layers : Layers) (hpaths : ∀ path ∈ layers.paths, path ≠ "") :
    ((∃ error, options layers = .error error) ↔ ∃ path ∈ layers.paths, ',' ∈ path.toList) ∧
      ∀ data, options layers = .ok data → Reads data layers := by
  refine ⟨options_fails_iff layers, ?_⟩
  intro data hdata
  obtain ⟨hcomma, rfl⟩ := options_eq_ok.mp hdata
  exact reads_encoded hpaths hcomma

theorem options_round_trip_awkward :
    ∃ data, options ⟨["/a:\\", "\\:b"], some "/u\\", none⟩ = .ok data ∧
      Reads data ⟨["/a:\\", "\\:b"], some "/u\\", none⟩ :=
  ⟨"lowerdir=/a\\:\\\\:\\\\\\:b,upperdir=/u\\\\", by decide +kernel,
    (options_round_trip _ (by decide)).2 _ (by decide +kernel)⟩

/-! ## Length -/

def special (c : Char) : Bool := c == '\\' || c == ':'

/-- An escaped path has one byte more for every special character. -/
def escapedBytes (path : String) : Nat := path.utf8ByteSize + path.toList.countP special

/-- The length of the option string, field by field. -/
def optionBytes (layers : Layers) : Nat :=
  9 + ((layers.lower.map escapedBytes).sum + (layers.lower.length - 1)) +
    ((layers.upper.map fun path => 10 + escapedBytes path).getD 0) +
    ((layers.work.map fun path => 9 + escapedBytes path).getD 0)

theorem utf8Len_escape (item : List Char) :
    String.utf8Len (Escape.escape '\\' ':' item) = String.utf8Len item + item.countP special := by
  induction item with
  | nil => rfl
  | cons c rest ih =>
      rw [Escape.escape_cons (by decide), String.utf8Len_append, ih, String.utf8Len_cons,
        List.countP_cons]
      by_cases hspecial : c = '\\' ∨ c = ':'
      · have hmark : ('\\').utf8Size = 1 := rfl
        simp [special, hspecial, hmark]
        omega
      · simp [special, hspecial]
        omega

theorem utf8ByteSize_escaped (path : String) : (escaped path).utf8ByteSize = escapedBytes path := by
  have hpath : String.utf8Len path.toList = path.utf8ByteSize := by
    rw [← String.utf8ByteSize_ofList, String.ofList_toList]
  rw [escaped, String.utf8ByteSize_ofList, utf8Len_escape, hpath, escapedBytes]

theorem escapedBytes_append (a b : String) :
    escapedBytes (a ++ b) = escapedBytes a + escapedBytes b := by
  simp only [escapedBytes, String.utf8ByteSize_append, String.toList_append, List.countP_append]
  omega

theorem escapedBytes_pos {path : String} (h : path ≠ "") : 0 < escapedBytes path := by
  have hbytes : path.utf8ByteSize ≠ 0 := by
    rwa [ne_eq, String.utf8ByteSize_eq_zero_iff]
  unfold escapedBytes
  omega

theorem utf8ByteSize_intercalate (sep : String) (hsep : sep.utf8ByteSize = 1)
    (texts : List String) :
    (sep.intercalate texts).utf8ByteSize =
      (texts.map String.utf8ByteSize).sum + (texts.length - 1) := by
  induction texts with
  | nil => rfl
  | cons text rest ih =>
      cases rest with
      | nil => simp
      | cons second others =>
          rw [String.intercalate_cons_cons, String.utf8ByteSize_append,
            String.utf8ByteSize_append, ih, hsep]
          simp only [List.map_cons, List.sum_cons, List.length_cons]
          omega

theorem options_bytes {layers : Layers} {data : String} (h : options layers = .ok data) :
    data.utf8ByteSize = optionBytes layers := by
  obtain ⟨-, rfl⟩ := options_eq_ok.mp h
  have hlower := utf8ByteSize_intercalate ":" rfl (layers.lower.map escaped)
  have hescaped : String.utf8ByteSize ∘ escaped = escapedBytes := funext utf8ByteSize_escaped
  rw [List.map_map, List.length_map, hescaped] at hlower
  have hlowerdir : "lowerdir=".utf8ByteSize = 9 := rfl
  have hupperdir : "upperdir=".utf8ByteSize = 9 := rfl
  have hworkdir : "workdir=".utf8ByteSize = 8 := rfl
  rw [utf8ByteSize_intercalate "," rfl, encoded, parts, optionBytes]
  cases layers.upper <;> cases layers.work <;>
    simp [String.utf8ByteSize_append, hlower, utf8ByteSize_escaped, hlowerdir, hupperdir,
      hworkdir] <;>
    omega

end Mars.Overlay
