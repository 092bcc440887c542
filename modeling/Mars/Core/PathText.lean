import Mathlib.Data.List.DropRight
import Mars.Core.UnixPath

/-! # Cutting paths and putting them together

What is left of a path behind a directory, as text, and the text that a list of
components is collected into. Pieces stand between separators; an empty piece
and a `.` are skipped when components are counted.
-/

namespace UnixPath

def pieces (path : String) : List (List Char) := path.toList.splitOn '/'

def skipped (piece : List Char) : Bool := piece == [] || piece == ['.']

/-- Drop pieces until `count` components have gone by. -/
def dropComponents : Nat → List (List Char) → List (List Char)
  | 0, all => all
  | _ + 1, [] => []
  | count + 1, piece :: rest =>
      if skipped piece then dropComponents (count + 1) rest else dropComponents count rest

def trim (all : List (List Char)) : List (List Char) :=
  (all.dropWhile skipped).rdropWhile skipped

def piecesText (all : List (List Char)) : String := "/".intercalate (all.map String.ofList)

structure Absolute where
  text : String
  absolute : isAbsolute text = true
  deriving DecidableEq

/-- The rest of `path` behind `base`, without skipped pieces on either side.
The first component of an absolute path is the separator in front. -/
def stripPrefix (path : String) (base : Absolute) : Option String :=
  if components base.text <+: components path then
    some (piecesText (trim (dropComponents ((components base.text).length - 1) (pieces path).tail)))
  else none

/-- The text a component is pushed as. -/
def Component.pushed : Component → String
  | .rootDir => "/"
  | part => part.text

def collect (path : List Component) : String :=
  path.foldl (fun out part => join out part.pushed) ""

/-! ## Pieces -/

def ofPiece (piece : List Char) : Option Component := ofSegment (String.ofList piece)

theorem skipped_iff {piece : List Char} : skipped piece ↔ piece = [] ∨ piece = ['.'] := by
  simp [skipped]

theorem ofPiece_eq_none {piece : List Char} (hslash : '/' ∉ piece) :
    ofPiece piece = none ↔ skipped piece := by
  have hinj (text : String) : String.ofList piece = text ↔ piece = text.toList := by
    rw [← String.toList_inj, String.toList_ofList]
  rw [skipped_iff, ofPiece, ofSegment]
  split
  next hdots =>
    rw [hinj] at hdots
    simp [hdots]
  next hdots =>
    split
    next hplain =>
      have hne := hplain.1
      have hdot := hplain.2.1
      rw [ne_eq, hinj] at hne hdot
      simpa using ⟨hne, hdot⟩
    next hplain =>
      by_contra hnone
      simp only [true_iff, not_or] at hnone
      refine hplain ⟨?_, ?_, hdots, by simpa using hslash⟩
      · simpa [hinj] using hnone.1
      · simpa [hinj] using hnone.2

theorem text_ofPiece {piece : List Char} {part : Component} (h : ofPiece piece = some part) :
    part.text = String.ofList piece := by
  unfold ofPiece ofSegment at h
  split at h
  next hdots =>
    obtain rfl := Option.some.inj h
    exact hdots.symm
  next =>
    split at h
    next =>
      obtain rfl := Option.some.inj h
      rfl
    next => cases h

theorem not_mem_of_mem_splitOn {c : Char} {text piece : List Char} (h : piece ∈ text.splitOn c) :
    c ∉ piece := by
  induction text generalizing piece with
  | nil => simp_all
  | cons d rest ih =>
      rw [List.splitOn_cons_eq_if_modifyHead] at h
      split at h
      next =>
        rcases List.mem_cons.mp h with rfl | hrest
        · simp
        · exact ih hrest
      next hne =>
        cases hpieces : rest.splitOn c with
        | nil => exact absurd hpieces (List.splitOn_ne_nil c rest)
        | cons first others =>
            rw [hpieces] at h ih
            rcases List.mem_cons.mp h with rfl | hothers
            · simpa [Ne.symm (by simpa using hne)] using ih (List.mem_cons_self ..)
            · exact ih (List.mem_cons_of_mem _ hothers)

theorem slash_not_mem_pieces {path : String} {piece : List Char} (h : piece ∈ pieces path) :
    '/' ∉ piece := not_mem_of_mem_splitOn h

theorem filterMap_segments (path : String) :
    (segments path).filterMap ofSegment = (pieces path).filterMap ofPiece := by
  have hempty : ofPiece [] = none := by decide
  unfold segments pieces
  rw [List.filterMap_map]
  induction path.toList.splitOn '/' with
  | nil => rfl
  | cons piece rest ih =>
      by_cases hpiece : piece = []
      · simpa [hpiece, hempty] using ih
      · rw [List.filter_cons_of_pos (by simpa using hpiece), List.filterMap_cons,
          List.filterMap_cons, ih]
        rfl

theorem components_absolute {path : String} (h : isAbsolute path) :
    components path = .rootDir :: (pieces path).filterMap ofPiece := by
  rw [components, if_pos h, filterMap_segments]

/-- The separator in front of an absolute path stands behind an empty piece. -/
theorem pieces_absolute {path : String} (h : isAbsolute path) :
    pieces path = [] :: (pieces path).tail ∧ (pieces path).tail ≠ [] := by
  obtain ⟨rest, hrest⟩ : ∃ rest, path.toList = '/' :: rest := by
    cases hpath : path.toList with
    | nil => simp [isAbsolute, hpath] at h
    | cons c rest =>
        have hc : c = '/' := by simpa [isAbsolute, hpath] using h
        exact ⟨rest, by rw [hc]⟩
  have hpieces : pieces path = [] :: rest.splitOn '/' := by
    simp [pieces, hrest, List.splitOn_cons_eq_if_modifyHead]
  simp [hpieces]

/-! ## Dropping and trimming -/

/-- What is dropped is a front part that holds the first `count` components. -/
theorem dropComponents_filterMap {all : List (List Char)} (hslash : ∀ piece ∈ all, '/' ∉ piece)
    (count : Nat) :
    (dropComponents count all).filterMap ofPiece = (all.filterMap ofPiece).drop count := by
  induction all generalizing count with
  | nil => cases count <;> simp [dropComponents]
  | cons piece rest ih =>
      obtain ⟨hpiece, hrest⟩ := List.forall_mem_cons.mp hslash
      cases count with
      | zero => rfl
      | succ count =>
          rw [dropComponents, List.filterMap_cons]
          split
          next hskip =>
            rw [(ofPiece_eq_none hpiece).mpr hskip]
            exact ih hrest (count + 1)
          next hcounts =>
            cases hpart : ofPiece piece with
            | none => exact absurd ((ofPiece_eq_none hpiece).mp hpart) hcounts
            | some part => simpa using ih hrest count

theorem dropComponents_suffix (count : Nat) (all : List (List Char)) :
    dropComponents count all <:+ all := by
  induction all generalizing count with
  | nil => cases count <;> simp [dropComponents]
  | cons piece rest ih =>
      cases count with
      | zero => exact List.suffix_rfl
      | succ count =>
          rw [dropComponents]
          split
          next => exact (ih _).trans (List.suffix_cons piece rest)
          next => exact (ih _).trans (List.suffix_cons piece rest)

theorem filterMap_dropWhile {all : List (List Char)} (hslash : ∀ piece ∈ all, '/' ∉ piece) :
    (all.dropWhile skipped).filterMap ofPiece = all.filterMap ofPiece := by
  induction all with
  | nil => rfl
  | cons piece rest ih =>
      obtain ⟨hpiece, hrest⟩ := List.forall_mem_cons.mp hslash
      rw [List.dropWhile_cons]
      split
      next hskip =>
        rw [ih hrest, List.filterMap_cons, (ofPiece_eq_none hpiece).mpr hskip]
      next => rfl

theorem trim_filterMap {all : List (List Char)} (hslash : ∀ piece ∈ all, '/' ∉ piece) :
    (trim all).filterMap ofPiece = all.filterMap ofPiece := by
  have hleft : ∀ piece ∈ all.dropWhile skipped, '/' ∉ piece := fun piece h =>
    hslash piece ((List.dropWhile_suffix skipped).mem h)
  rw [trim, List.rdropWhile, List.filterMap_reverse,
    filterMap_dropWhile (by simpa using hleft), ← List.filterMap_reverse, List.reverse_reverse,
    filterMap_dropWhile hslash]

theorem trim_within (all : List (List Char)) : trim all <:+: all :=
  (List.rdropWhile_prefix skipped _).isInfix.trans (List.dropWhile_suffix skipped).isInfix

theorem trim_head {all : List (List Char)} {first : List Char}
    (h : (trim all).head? = some first) : ¬ skipped first := by
  obtain ⟨cut, hcut⟩ := List.rdropWhile_prefix skipped (all.dropWhile skipped)
  have hhead : (all.dropWhile skipped).head? = some first := by
    rw [← hcut, List.head?_append]
    rw [trim] at h
    rw [h, Option.some_or]
  have hnot := List.head?_dropWhile_not skipped all
  rw [hhead] at hnot
  simpa using hnot

/-! ## Putting pieces together -/

theorem toList_piecesText (all : List (List Char)) :
    (piecesText all).toList = ['/'].intercalate all := by
  simp [piecesText, String.toList_intercalate, Function.comp_def]

theorem piecesText_pieces (path : String) : piecesText (pieces path) = path := by
  rw [← String.toList_inj, toList_piecesText, pieces, List.intercalate_splitOn]

theorem pieces_piecesText {all : List (List Char)} (hall : all ≠ [])
    (hslash : ∀ piece ∈ all, '/' ∉ piece) : pieces (piecesText all) = all := by
  rw [pieces, toList_piecesText, List.splitOn_intercalate '/' hslash hall]

theorem filterMap_piecesText {all : List (List Char)} (hslash : ∀ piece ∈ all, '/' ∉ piece) :
    (pieces (piecesText all)).filterMap ofPiece = all.filterMap ofPiece := by
  by_cases hall : all = []
  · rw [hall]
    decide
  · rw [pieces_piecesText hall hslash]

theorem piecesText_append {front back : List (List Char)} (hfront : front ≠ [])
    (hback : back ≠ []) :
    piecesText (front ++ back) = piecesText front ++ "/" ++ piecesText back := by
  rw [piecesText, List.map_append,
    String.intercalate_append_of_ne_nil (by simpa using hfront) (by simpa using hback)]
  rfl

/-- A run of pieces that does not start in front is a part of the text that does
not start in front. -/
theorem piecesText_run {all front run back : List (List Char)} (hall : all = front ++ run ++ back)
    (hfront : front ≠ []) (htext : piecesText all ≠ "") :
    ∃ before after, before ≠ "" ∧ piecesText all = before ++ piecesText run ++ after := by
  by_cases hrun : run = []
  · refine ⟨piecesText all, "", htext, ?_⟩
    simp [hrun, piecesText]
  · have hbefore : piecesText (front ++ run) = piecesText front ++ "/" ++ piecesText run :=
      piecesText_append hfront hrun
    by_cases hback : back = []
    · refine ⟨piecesText front ++ "/", "", by simp, ?_⟩
      rw [hall, hback, List.append_nil, hbefore, String.append_empty]
    · refine ⟨piecesText front ++ "/", "/" ++ piecesText back, by simp, ?_⟩
      rw [hall, piecesText_append (by simp [hfront]) hback, hbefore]
      simp only [String.append_assoc]

/-! ## Characters -/

theorem mem_intercalate {sep c : Char} (hne : c ≠ sep) {all : List (List Char)} :
    c ∈ [sep].intercalate all ↔ ∃ piece ∈ all, c ∈ piece := by
  induction all with
  | nil => simp
  | cons piece rest ih =>
      cases rest with
      | nil => simp
      | cons second others =>
          rw [List.intercalate_cons_of_ne_nil (List.cons_ne_nil _ _), List.mem_append,
            List.mem_append, List.mem_singleton, ih, List.exists_mem_cons_iff]
          simp [hne]

/-- Apart from separators and dots, a text and its components hold the same characters. -/
theorem mem_text_iff {path : String} (habs : isAbsolute path) {c : Char} (hslash : c ≠ '/')
    (hdot : c ≠ '.') :
    c ∈ path.toList ↔ ∃ part ∈ components path, c ∈ part.text.toList := by
  have htext : path.toList = ['/'].intercalate (pieces path) := by
    rw [pieces, List.intercalate_splitOn]
  rw [htext, mem_intercalate hslash, components_absolute habs]
  constructor
  · rintro ⟨piece, hpiece, hc⟩
    cases hpart : ofPiece piece with
    | none =>
        have hskip := (ofPiece_eq_none (slash_not_mem_pieces hpiece)).mp hpart
        rcases skipped_iff.mp hskip with rfl | rfl
        · cases hc
        · exact absurd (List.mem_singleton.mp hc) hdot
    | some part =>
        refine ⟨part, ?_, ?_⟩
        · exact List.mem_cons_of_mem _ (List.mem_filterMap.mpr ⟨piece, hpiece, hpart⟩)
        · rwa [text_ofPiece hpart, String.toList_ofList]
  · rintro ⟨part, hmem, hc⟩
    rcases List.mem_cons.mp hmem with rfl | hpart
    · simp [Component.text] at hc
    · obtain ⟨piece, hpiece, hfrom⟩ := List.mem_filterMap.mp hpart
      refine ⟨piece, hpiece, ?_⟩
      rwa [text_ofPiece hfrom, String.toList_ofList] at hc

theorem mem_join_iff {base path : String} (hrel : isAbsolute path = false) {c : Char}
    (hslash : c ≠ '/') : c ∈ (join base path).toList ↔ c ∈ base.toList ∨ c ∈ path.toList := by
  unfold join
  rw [if_neg (by simp [hrel])]
  split
  next hempty => simp [hempty]
  next => split <;> simp [hslash]

/-! ## What is left behind a directory -/

theorem tail_slash {path : String} : ∀ piece ∈ (pieces path).tail, '/' ∉ piece :=
  fun _ h => slash_not_mem_pieces (List.mem_of_mem_tail h)

/-- The pieces kept of `path` when `count` components behind the root are cut off. -/
def kept (path : String) (count : Nat) : List (List Char) :=
  trim (dropComponents count (pieces path).tail)

theorem kept_within (path : String) (count : Nat) : kept path count <:+: (pieces path).tail :=
  (trim_within _).trans (dropComponents_suffix _ _).isInfix

theorem kept_slash (path : String) (count : Nat) : ∀ piece ∈ kept path count, '/' ∉ piece :=
  fun _ h => tail_slash _ ((kept_within path count).mem h)

theorem kept_filterMap (path : String) (count : Nat) :
    (kept path count).filterMap ofPiece = ((pieces path).tail.filterMap ofPiece).drop count := by
  have hdropped : ∀ piece ∈ dropComponents count (pieces path).tail, '/' ∉ piece :=
    fun _ h => tail_slash _ ((dropComponents_suffix _ _).mem h)
  rw [kept, trim_filterMap hdropped, dropComponents_filterMap tail_slash]

theorem isAbsolute_eq_false_of_head {path : String}
    (h : ∀ first, (pieces path).head? = some first → first ≠ []) : isAbsolute path = false := by
  by_contra habs
  have hpieces := (pieces_absolute (by simpa using habs)).1
  exact h [] (by rw [hpieces]; rfl) rfl

/-- Kept pieces make a relative path that does not start with a `.`. -/
theorem kept_relative (path : String) (count : Nat) :
    isAbsolute (piecesText (kept path count)) = false ∧
      (segments (piecesText (kept path count))).head? ≠ some "." := by
  by_cases hnone : kept path count = []
  · rw [hnone]
    decide
  · have hpieces := pieces_piecesText hnone (kept_slash path count)
    have hfirst : ∀ first, (kept path count).head? = some first → first ≠ [] ∧ first ≠ ['.'] := by
      intro first hhead
      have hcounts := trim_head hhead
      rwa [skipped_iff, not_or] at hcounts
    refine ⟨isAbsolute_eq_false_of_head ?_, ?_⟩
    · rw [hpieces]
      exact fun first hhead => (hfirst first hhead).1
    · rw [segments]
      change (((pieces _).filter _).map _).head? ≠ _
      rw [hpieces]
      cases hkept : kept path count with
      | nil => exact absurd hkept hnone
      | cons first rest =>
          obtain ⟨hne, hdot⟩ := hfirst first (by rw [hkept]; rfl)
          rw [List.filter_cons_of_pos (by simpa using hne)]
          simp only [List.map_cons, List.head?_cons, ne_eq, Option.some.injEq]
          intro heq
          exact hdot (by simpa using congrArg String.toList heq)

theorem stripPrefix_eq {path rest : String} {base : Absolute}
    (h : stripPrefix path base = some rest) :
    components base.text <+: components path ∧
      rest = piecesText (kept path ((components base.text).length - 1)) := by
  unfold stripPrefix at h
  split at h
  next hbase => exact ⟨hbase, (Option.some.inj h).symm⟩
  next => cases h

theorem stripPrefix_isSome {path : String} {base : Absolute}
    (h : components base.text <+: components path) : ∃ rest, stripPrefix path base = some rest := by
  simp [stripPrefix, h]

theorem stripPrefix_absolute {path rest : String} {base : Absolute}
    (h : stripPrefix path base = some rest) : isAbsolute path := by
  obtain ⟨⟨behind, hbehind⟩, -⟩ := stripPrefix_eq h
  refine isAbsolute_of_head ?_
  rw [← hbehind, components_absolute base.absolute]
  rfl

theorem stripPrefix_relative {path rest : String} {base : Absolute}
    (h : stripPrefix path base = some rest) : isAbsolute rest = false := by
  obtain ⟨-, rfl⟩ := stripPrefix_eq h
  exact (kept_relative path _).1

/-- Joined to the directory again, the rest names the same entry. -/
theorem components_join_stripPrefix {path rest : String} {base : Absolute}
    (h : stripPrefix path base = some rest) :
    components (join base.text rest) = components path := by
  have habs := stripPrefix_absolute h
  obtain ⟨⟨behind, hbehind⟩, rfl⟩ := stripPrefix_eq h
  obtain ⟨hrel, hdot⟩ := kept_relative path ((components base.text).length - 1)
  obtain ⟨hpieces, -⟩ := pieces_absolute habs
  have hbase := components_absolute base.absolute
  have hpath := components_absolute habs
  have htail : (pieces path).filterMap ofPiece = (pieces path).tail.filterMap ofPiece := by
    rw [hpieces]
    rfl
  rw [components_join hrel hdot, filterMap_segments, filterMap_piecesText (kept_slash _ _),
    kept_filterMap, ← htail, ← hbehind]
  rw [hpath, hbase, List.cons_append, List.cons.injEq] at hbehind
  rw [hbase, ← hbehind.2]
  simp

theorem stripPrefix_ne_empty {path rest : String} {base : Absolute}
    (h : stripPrefix path base = some rest)
    (hbelow : components base.text ≠ components path) : rest ≠ "" := by
  rintro rfl
  have hsame := components_join_stripPrefix h
  rw [components_join (by decide) (by decide), segments_empty] at hsame
  exact hbelow (by simpa using hsame)

/-- The rest is a part of the text, and the text starts before it. -/
theorem stripPrefix_run {path rest : String} {base : Absolute}
    (h : stripPrefix path base = some rest) :
    ∃ before after, before ≠ "" ∧ path = before ++ rest ++ after := by
  have habs := stripPrefix_absolute h
  obtain ⟨-, rfl⟩ := stripPrefix_eq h
  obtain ⟨front, back, hkept⟩ := kept_within path ((components base.text).length - 1)
  have hall : pieces path =
      ([] :: front) ++ kept path ((components base.text).length - 1) ++ back := by
    rw [(pieces_absolute habs).1, ← hkept]
    rfl
  have hpath := piecesText_pieces path
  have hne : path ≠ "" := by
    rintro rfl
    exact absurd habs (by decide)
  obtain ⟨before, after, hbefore, htext⟩ :=
    piecesText_run hall (List.cons_ne_nil _ _) (by rwa [hpath])
  exact ⟨before, after, hbefore, by rw [← htext, hpath]⟩

/-- Apart from separators and dots, the characters of the text are those of the
directory and of the rest. -/
theorem stripPrefix_mem {path rest : String} {base : Absolute}
    (h : stripPrefix path base = some rest) {c : Char} (hslash : c ≠ '/') (hdot : c ≠ '.') :
    c ∈ path.toList ↔ c ∈ base.text.toList ∨ c ∈ rest.toList := by
  have hrel := stripPrefix_relative h
  have hjoined : isAbsolute (join base.text rest) := by
    rw [isAbsolute_join hrel, base.absolute]
  rw [← mem_join_iff hrel hslash, mem_text_iff (stripPrefix_absolute h) hslash hdot,
    mem_text_iff hjoined hslash hdot, components_join_stripPrefix h]

/-! ## Collecting components -/

/-- What can stand behind the root. -/
def Component.Below (part : Component) : Prop := part ≠ .rootDir ∧ part ≠ .curDir

theorem below_of_ofSegment {segment : String} {part : Component}
    (h : ofSegment segment = some part) : part.Below := by
  unfold ofSegment at h
  split at h
  next =>
    obtain rfl := Option.some.inj h
    exact ⟨by simp, by simp⟩
  next =>
    split at h
    next =>
      obtain rfl := Option.some.inj h
      exact ⟨by simp, by simp⟩
    next => cases h

theorem below_of_components {path : String} (habs : isAbsolute path) {rest : List Component}
    (h : components path = .rootDir :: rest) : ∀ part ∈ rest, part.Below := by
  intro part hpart
  rw [components, if_pos habs, List.cons.injEq] at h
  rw [← h.2] at hpart
  obtain ⟨segment, -, hsegment⟩ := List.mem_filterMap.mp hpart
  exact below_of_ofSegment hsegment

theorem components_join_pushed (base : String) {part : Component} (h : part.Below) :
    components (join base part.pushed) = components base ++ [part] := by
  cases part with
  | rootDir => exact absurd rfl h.1
  | curDir => exact absurd rfl h.2
  | parentDir =>
      rw [show Component.parentDir.pushed = ".." from rfl,
        components_join (by decide) (by decide)]
      rfl
  | normal name => exact components_join_name base name

theorem components_foldl_join (base : String) {parts : List Component}
    (h : ∀ part ∈ parts, part.Below) :
    components (parts.foldl (fun out part => join out part.pushed) base) =
      components base ++ parts := by
  induction parts generalizing base with
  | nil => simp
  | cons part rest ih =>
      obtain ⟨hpart, hrest⟩ := List.forall_mem_cons.mp h
      rw [List.foldl_cons, ih _ hrest, components_join_pushed base hpart, List.append_assoc,
        List.singleton_append]

/-- An absolute list of components is collected into a path that has them. -/
theorem components_collect {parts : List Component} (h : ∀ part ∈ parts, part.Below) :
    components (collect (.rootDir :: parts)) = .rootDir :: parts := by
  have hroot := components_foldl_join "/" h
  exact hroot

theorem isAbsolute_collect {parts : List Component} (h : ∀ part ∈ parts, part.Below) :
    isAbsolute (collect (.rootDir :: parts)) :=
  isAbsolute_of_head (by rw [components_collect h]; rfl)

theorem isAbsolute_foldl_join {parts : List Component} (h : Component.rootDir ∉ parts)
    (base : String) :
    isAbsolute (parts.foldl (fun out part => join out part.pushed) base) = isAbsolute base := by
  induction parts generalizing base with
  | nil => rfl
  | cons part rest ih =>
      rw [List.mem_cons, not_or] at h
      have hrel : isAbsolute part.pushed = false := by
        cases part with
        | rootDir => exact absurd rfl h.1
        | curDir => decide
        | parentDir => decide
        | normal name => exact isAbsolute_of_plain name.plain
      rw [List.foldl_cons, ih h.2, isAbsolute_join hrel]

/-- Only a front part that reaches back to the root is collected into an absolute path. -/
theorem root_of_collect {path : String} {parts : List Component} (h : parts <+: components path)
    (habs : isAbsolute (collect parts)) : [.rootDir] <+: parts := by
  cases parts with
  | nil => exact absurd habs (by decide)
  | cons part rest =>
      by_cases hpart : part = .rootDir
      · simp [hpart]
      have hnone : Component.rootDir ∉ part :: rest := by
        obtain ⟨others, hothers, hpath | hpath⟩ := components_cases path
        · rw [hpath, List.cons_prefix_cons] at h
          exact absurd h.1 hpart
        · rw [hpath] at h
          exact fun hmem => hothers (h.mem hmem)
      rw [collect, isAbsolute_foldl_join hnone] at habs
      exact absurd habs (by decide)

/-! ## Common fronts -/

/-- The elements two lists share in front. -/
def commonFront {α : Type} [DecidableEq α] (a b : List α) : List α :=
  a.take ((a.zip b).takeWhile fun pair => pair.1 = pair.2).length

theorem commonFront_cons {α : Type} [DecidableEq α] (x y : α) (a b : List α) :
    commonFront (x :: a) (y :: b) = if x = y then x :: commonFront a b else [] := by
  by_cases hxy : x = y
  · simp [commonFront, hxy]
  · simp [commonFront, hxy]

/-- The common front is the longest one. -/
theorem prefix_commonFront_iff {α : Type} [DecidableEq α] {front a b : List α} :
    front <+: commonFront a b ↔ front <+: a ∧ front <+: b := by
  induction a generalizing front b with
  | nil =>
      simp only [commonFront, List.take_nil, List.prefix_nil]
      constructor
      · rintro rfl
        exact ⟨rfl, List.nil_prefix⟩
      · exact And.left
  | cons x a ih =>
      cases b with
      | nil =>
          simp only [commonFront, List.zip_nil_right, List.takeWhile_nil, List.length_nil,
            List.take_zero, List.prefix_nil]
          constructor
          · rintro rfl
            exact ⟨List.nil_prefix, rfl⟩
          · exact And.right
      | cons y b =>
          rw [commonFront_cons]
          cases front with
          | nil => simp
          | cons z front =>
              split
              next hxy =>
                simp only [List.cons_prefix_cons, ih, hxy]
                tauto
              next hxy =>
                simp only [List.prefix_nil, List.cons_prefix_cons]
                constructor
                · intro h
                  cases h
                · rintro ⟨⟨rfl, -⟩, rfl, -⟩
                  exact absurd rfl hxy

end UnixPath
