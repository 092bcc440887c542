import Mathlib.Data.List.Pairwise
import Mars.Core.Text
import Mars.Core.TextLines

/-! # Id maps

The ids of a user namespace in extents: from `first` on, `count` ids stand for those
from `lowerFirst` on below. A map is written once, as a text with a line of three
numbers for each extent, and the extents may overlap on neither side.
-/

namespace IdMap

structure Extent where
  first : Nat
  lowerFirst : Nat
  count : Nat
  deriving DecidableEq

def Extent.down (e : Extent) (id : Nat) : Option Nat :=
  if e.first ≤ id ∧ id < e.first + e.count then some (e.lowerFirst + (id - e.first)) else none

/-- What an id of the namespace stands for. -/
def down (map : List Extent) (id : Nat) : Option Nat := map.findSome? (·.down id)

def overlap (first count first' count' : Nat) : Bool :=
  max first first' < min (first + count) (first' + count')

def Extent.overlaps (e e' : Extent) : Bool :=
  overlap e.first e.count e'.first e'.count || overlap e.lowerFirst e.count e'.lowerFirst e'.count

/-! ## Reading a map -/

def MAX_EXTENTS : Nat := 340
def PAGE_SIZE : Nat := 4096

def isSpace (c : Char) : Bool := c = ' ' ∨ 9 ≤ c.toNat ∧ c.toNat ≤ 13 ∨ c.toNat = 0xA0

/-- The digits in front, as a number of 32 bits, and the rest. -/
def readNumber (text : List Char) : Nat × List Char :=
  (Nat.ofDigitChars 10 (text.takeWhile Char.isDigit) 0 % 2 ^ 32, text.dropWhile Char.isDigit)

/-- Behind a number comes a blank. -/
def readColumn (text : List Char) : Option (Nat × List Char) :=
  match readNumber (text.dropWhile isSpace) with
  | (n, c :: rest) => if isSpace c then some (n, c :: rest) else none
  | (_, []) => none

def readLine (line : List Char) : Option Extent := do
  let (first, rest) ← readColumn line
  let (lowerFirst, rest) ← readColumn rest
  let (count, rest) := readNumber (rest.dropWhile isSpace)
  if rest.dropWhile isSpace = [] then some { first, lowerFirst, count } else none

/-- Sums wrap around. -/
def Extent.wraps (e : Extent) : Bool :=
  (e.first + e.count) % 2 ^ 32 ≤ e.first || (e.lowerFirst + e.count) % 2 ^ 32 ≤ e.lowerFirst

def addExtent (map : List Extent) (e : Extent) : Option (List Extent) :=
  if e.first = 2 ^ 32 - 1 ∨ e.lowerFirst = 2 ^ 32 - 1 ∨ e.wraps ∨ map.any e.overlaps ∨
      MAX_EXTENTS ≤ map.length then none
  else some (map ++ [e])

/-- The last line may end with a line break or without one. -/
def textLines (text : List Char) : List (List Char) :=
  let lines := text.splitOn '\n'
  if lines.length ≠ 1 ∧ lines.getLast? = some [] then lines.dropLast else lines

def readMap (text : List Char) : Option (List Extent) :=
  if PAGE_SIZE ≤ text.length then none
  else (textLines text).foldlM (fun map line => (readLine line).bind (addExtent map)) []

/-! ## Writing a map -/

def Extent.line (e : Extent) : List Char :=
  Text.decimal e.first ++ ' ' :: (Text.decimal e.lowerFirst ++ ' ' :: Text.decimal e.count)

def render (map : List Extent) : List Char := Text.joinLines (map.map Extent.line)

/-! ## Sound maps -/

structure Extent.Sound (e : Extent) : Prop where
  count : 0 < e.count
  first : e.first + e.count < 2 ^ 32
  lowerFirst : e.lowerFirst + e.count < 2 ^ 32

def Apart (e e' : Extent) : Prop := e.overlaps e' = false

structure Sound (map : List Extent) : Prop where
  extents : ∀ e ∈ map, e.Sound
  apart : map.Pairwise Apart
  length : map.length ≤ MAX_EXTENTS

theorem overlap_false {first count first' count' : Nat} :
    overlap first count first' count' = false ↔
      first + count ≤ first' ∨ first' + count' ≤ first ∨ count = 0 ∨ count' = 0 := by
  unfold overlap
  simp only [decide_eq_false_iff_not]
  omega

theorem sound_iff {e : Extent} (h : e.first < 2 ^ 32 ∧ e.lowerFirst < 2 ^ 32 ∧ e.count < 2 ^ 32) :
    e.Sound ↔ e.first ≠ 2 ^ 32 - 1 ∧ e.lowerFirst ≠ 2 ^ 32 - 1 ∧ e.wraps = false := by
  obtain ⟨hfirst, hlower, hcount⟩ := h
  have hwrap : ∀ n, n < 2 ^ 32 →
      (¬ (n + e.count) % 2 ^ 32 ≤ n ↔ 0 < e.count ∧ n + e.count < 2 ^ 32) := by
    intro n hn
    omega
  have hwraps : e.wraps = false ↔ ¬ (e.first + e.count) % 2 ^ 32 ≤ e.first ∧
      ¬ (e.lowerFirst + e.count) % 2 ^ 32 ≤ e.lowerFirst := by
    simp [Extent.wraps]
  rw [hwraps, hwrap _ hfirst, hwrap _ hlower]
  constructor
  · rintro ⟨hpos, h1, h2⟩
    exact ⟨by omega, by omega, ⟨hpos, h1⟩, hpos, h2⟩
  · rintro ⟨-, -, ⟨hpos, h1⟩, -, h2⟩
    exact ⟨hpos, h1, h2⟩

/-! ## What a sound map does -/

theorem down_eq_some {map : List Extent} {id lower : Nat} :
    down map id = some lower → ∃ e ∈ map, e.first ≤ id ∧ id < e.first + e.count ∧
      lower = e.lowerFirst + (id - e.first) := by
  intro h
  obtain ⟨e, he, hdown⟩ := List.exists_of_findSome?_eq_some h
  unfold Extent.down at hdown
  split at hdown
  next hrange => exact ⟨e, he, hrange.1, hrange.2, (Option.some.inj hdown).symm⟩
  next => cases hdown

theorem overlap_comm (first count first' count' : Nat) :
    overlap first count first' count' = overlap first' count' first count := by
  rw [overlap, overlap, Nat.max_comm, Nat.min_comm]

theorem Apart.symm {e e' : Extent} (h : Apart e e') : Apart e' e := by
  rw [Apart, Extent.overlaps, overlap_comm, overlap_comm e'.lowerFirst]
  exact h

instance apartSymm : Std.Symm Apart := ⟨fun _ _ => Apart.symm⟩

theorem Sound.apart_of_ne {map : List Extent} (h : Sound map) {e e' : Extent} (he : e ∈ map)
    (he' : e' ∈ map) (hne : e ≠ e') : e.overlaps e' = false := h.apart.forall he he' hne

/-- Whichever extent holds an id decides what it stands for. -/
theorem Sound.down_iff {map : List Extent} (h : Sound map) {id lower : Nat} :
    down map id = some lower ↔ ∃ e ∈ map, e.first ≤ id ∧ id < e.first + e.count ∧
      lower = e.lowerFirst + (id - e.first) := by
  refine ⟨down_eq_some, ?_⟩
  rintro ⟨e, he, hlow, hhigh, rfl⟩
  cases hdown : down map id with
  | none =>
      have hnone := List.findSome?_eq_none_iff.mp hdown e he
      simp [Extent.down, hlow, hhigh] at hnone
  | some lower =>
      obtain ⟨e', he', hlow', hhigh', rfl⟩ := down_eq_some hdown
      by_cases heq : e = e'
      · rw [heq]
      · have hapart := h.apart_of_ne he he' heq
        simp only [Extent.overlaps, Bool.or_eq_false_iff, overlap_false] at hapart
        omega

/-- Two ids never stand for the same one. -/
theorem Sound.down_injective {map : List Extent} (h : Sound map) {id id' lower : Nat}
    (hid : down map id = some lower) (hid' : down map id' = some lower) : id = id' := by
  obtain ⟨e, he, hlow, hhigh, hlower⟩ := down_eq_some hid
  obtain ⟨e', he', hlow', hhigh', hlower'⟩ := down_eq_some hid'
  by_cases heq : e = e'
  · subst heq
    omega
  · have hapart := h.apart_of_ne he he' heq
    simp only [Extent.overlaps, Bool.or_eq_false_iff, overlap_false] at hapart
    omega

/-! ## Reading what was written -/

theorem addExtent_eq_some {map map' : List Extent} {e : Extent}
    (he : e.first < 2 ^ 32 ∧ e.lowerFirst < 2 ^ 32 ∧ e.count < 2 ^ 32) (h : Sound map) :
    addExtent map e = some map' ↔ map' = map ++ [e] ∧ Sound (map ++ [e]) := by
  have happend : Sound (map ++ [e]) ↔
      e.Sound ∧ map.any e.overlaps = false ∧ ¬ MAX_EXTENTS ≤ map.length := by
    constructor
    · intro hsound
      refine ⟨hsound.extents e (by simp), ?_, ?_⟩
      · rw [List.any_eq_false]
        intro e' he'
        have hpair := (List.pairwise_append.mp hsound.apart).2.2 e' he' e (by simp)
        rw [show e.overlaps e' = false from hpair.symm]
        exact Bool.false_ne_true
      · have := hsound.length
        rw [List.length_append, List.length_singleton] at this
        omega
    · rintro ⟨hone, hany, hlength⟩
      refine ⟨?_, ?_, ?_⟩
      · intro e' he'
        rcases List.mem_append.mp he' with he' | he'
        · exact h.extents e' he'
        · exact List.mem_singleton.mp he' ▸ hone
      · refine List.pairwise_append.mpr ⟨h.apart, List.pairwise_singleton _ _, ?_⟩
        intro e' he' e'' he''
        obtain rfl := List.mem_singleton.mp he''
        exact Apart.symm (Bool.not_eq_true _ |>.mp (List.any_eq_false.mp hany e' he'))
      · rw [List.length_append, List.length_singleton]
        omega
  rw [happend, sound_iff he, addExtent]
  split
  next hbad =>
    simp only [reduceCtorEq, false_iff]
    rintro ⟨-, ⟨hfirst, hlower, hwraps⟩, hany, hlength⟩
    rcases hbad with hbad | hbad | hbad | hbad | hbad
    · exact hfirst hbad
    · exact hlower hbad
    · rw [hwraps] at hbad
      cases hbad
    · rw [hany] at hbad
      cases hbad
    · exact hlength hbad
  next hgood =>
    simp only [not_or, Bool.not_eq_true] at hgood
    obtain ⟨hfirst, hlower, hwraps, hany, hlength⟩ := hgood
    constructor
    · intro hmap
      exact ⟨(Option.some.inj hmap).symm, ⟨hfirst, hlower, hwraps⟩, hany, hlength⟩
    · rintro ⟨rfl, -⟩
      rfl

theorem foldlM_addExtent {map more map' : List Extent}
    (hmore : ∀ e ∈ more, e.first < 2 ^ 32 ∧ e.lowerFirst < 2 ^ 32 ∧ e.count < 2 ^ 32)
    (h : Sound map) :
    more.foldlM addExtent map = some map' ↔ map' = map ++ more ∧ Sound (map ++ more) := by
  induction more generalizing map with
  | nil => simp [h, eq_comm, pure]
  | cons e rest ih =>
      obtain ⟨he, hrest⟩ := List.forall_mem_cons.mp hmore
      have hsplit : map ++ e :: rest = (map ++ [e]) ++ rest := by simp
      rw [List.foldlM_cons, hsplit]
      constructor
      · intro hfold
        obtain ⟨next, hnext, hlater⟩ := Option.bind_eq_some_iff.mp hfold
        obtain ⟨rfl, hsound⟩ := (addExtent_eq_some he h).mp hnext
        exact (ih hrest hsound).mp hlater
      · rintro ⟨rfl, hsound⟩
        have hone : Sound (map ++ [e]) := by
          refine ⟨fun e' he' => hsound.extents e' (List.mem_append_left _ he'),
            (List.pairwise_append.mp hsound.apart).1, ?_⟩
          have := hsound.length
          rw [List.length_append] at this
          omega
        have hnext : addExtent map e = some (map ++ [e]) := (addExtent_eq_some he h).mpr ⟨rfl, hone⟩
        rw [hnext]
        exact (ih hrest hone).mpr ⟨rfl, hsound⟩

theorem readNumber_decimal {n : Nat} (hn : n < 2 ^ 32) {rest : List Char}
    (hrest : ∀ c ∈ rest.head?, c.isDigit = false) :
    readNumber (Text.decimal n ++ rest) = (n, rest) := by
  have hdigits : ∀ c ∈ Text.decimal n, c.isDigit = true := fun c hc => Text.isDigit_of_mem_decimal hc
  have htake : (Text.decimal n ++ rest).takeWhile Char.isDigit = Text.decimal n := by
    rw [List.takeWhile_append_of_pos hdigits]
    cases rest with
    | nil => simp
    | cons c rest => simp [hrest c rfl]
  have hdrop : (Text.decimal n ++ rest).dropWhile Char.isDigit = rest := by
    rw [List.dropWhile_append_of_pos hdigits]
    cases rest with
    | nil => rfl
    | cons c rest => simp [hrest c rfl]
  have hvalue : Nat.ofDigitChars 10 (Text.decimal n) 0 = n := Nat.ofDigitChars_ten_toDigits
  rw [readNumber, htake, hdrop, hvalue, Nat.mod_eq_of_lt hn]

theorem dropWhile_decimal (n : Nat) (rest : List Char) :
    (Text.decimal n ++ rest).dropWhile isSpace = Text.decimal n ++ rest := by
  cases hdecimal : Text.decimal n with
  | nil => exact absurd hdecimal Nat.toDigits_ne_nil
  | cons c digits =>
      have hc : c.isDigit = true := Text.isDigit_of_mem_decimal (hdecimal ▸ List.mem_cons_self)
      have hspace : isSpace c = false := by
        obtain ⟨hlow, hhigh⟩ : 48 ≤ c.toNat ∧ c.toNat ≤ 57 := Char.isDigit_iff_toNat.mp hc
        have hblank : c ≠ ' ' := by
          rintro rfl
          cases hc
        simp only [isSpace, hblank, false_or, decide_eq_false_iff_not]
        omega
      simp [hspace]

theorem readLine_line {e : Extent}
    (he : e.first < 2 ^ 32 ∧ e.lowerFirst < 2 ^ 32 ∧ e.count < 2 ^ 32) :
    readLine e.line = some e := by
  obtain ⟨hfirst, hlower, hcount⟩ := he
  have hcolumn : ∀ {n : Nat} (rest : List Char), n < 2 ^ 32 →
      readColumn (Text.decimal n ++ ' ' :: rest) = some (n, ' ' :: rest) := by
    intro n rest hn
    rw [readColumn, dropWhile_decimal, readNumber_decimal hn (by rintro c ⟨⟩; rfl)]
    rfl
  have hblank : ∀ {n : Nat} (rest : List Char), n < 2 ^ 32 →
      readColumn (' ' :: (Text.decimal n ++ ' ' :: rest)) = some (n, ' ' :: rest) :=
    fun rest hn => hcolumn rest hn
  have hlast : readNumber ((' ' :: Text.decimal e.count).dropWhile isSpace) = (e.count, []) := by
    have hdrop : (' ' :: Text.decimal e.count).dropWhile isSpace = Text.decimal e.count := by
      have := dropWhile_decimal e.count []
      rwa [List.append_nil] at this
    have hread : readNumber (Text.decimal e.count ++ []) = (e.count, []) :=
      readNumber_decimal hcount (by rintro c ⟨⟩)
    rwa [hdrop, ← List.append_nil (Text.decimal e.count)]
  rw [readLine, Extent.line, hcolumn _ hfirst]
  simp only [Option.bind_eq_bind, Option.bind_some, hblank _ hlower, hlast]
  rfl

theorem line_plain (e : Extent) : Text.Unbroken e.line := by
  have hdecimal : ∀ n, ∀ c ∈ Text.decimal n, c ≠ '\n' := by
    rintro n c hc rfl
    cases Text.isDigit_of_mem_decimal hc
  intro c hc
  simp only [Extent.line, List.mem_append, List.mem_cons] at hc
  rcases hc with hc | rfl | hc | rfl | hc
  · exact hdecimal _ c hc
  · decide
  · exact hdecimal _ c hc
  · decide
  · exact hdecimal _ c hc

theorem splitOn_render (map : List Extent) :
    (render map).splitOn '\n' = map.map Extent.line ++ [[]] := by
  refine Text.splitOn_joinLines ?_
  intro line hline
  obtain ⟨e, -, rfl⟩ := List.mem_map.mp hline
  exact line_plain e

/-- A map is taken whole if it is sound, and not at all otherwise. -/
theorem readMap_render {map map' : List Extent} (hne : map ≠ [])
    (hmap : ∀ e ∈ map, e.first < 2 ^ 32 ∧ e.lowerFirst < 2 ^ 32 ∧ e.count < 2 ^ 32) :
    readMap (render map) = some map' ↔
      (render map).length < PAGE_SIZE ∧ map' = map ∧ Sound map := by
  have hnil : Sound [] := ⟨by simp, List.Pairwise.nil, Nat.zero_le _⟩
  have hlines : textLines (render map) = map.map Extent.line := by
    have hlength : (map.map Extent.line ++ [[]]).length ≠ 1 := by
      simpa using hne
    rw [textLines, splitOn_render]
    simp only [List.getLast?_append, List.dropLast_concat]
    rw [if_pos ⟨hlength, rfl⟩]
  have hread : ∀ (acc : List Extent), (map.map Extent.line).foldlM
      (fun map line => (readLine line).bind (addExtent map)) acc = map.foldlM addExtent acc := by
    clear hne hlines
    induction map with
    | nil => intro acc; rfl
    | cons e rest ih =>
        obtain ⟨he, hrest⟩ := List.forall_mem_cons.mp hmap
        intro acc
        rw [List.map_cons, List.foldlM_cons, List.foldlM_cons, readLine_line he, Option.bind_some]
        exact congrArg _ (funext (ih hrest))
  rw [readMap, hlines, hread]
  split
  next hlong => simp [Nat.not_lt.mpr hlong]
  next hshort =>
    rw [foldlM_addExtent hmap hnil, List.nil_append]
    simp [Nat.lt_of_not_le hshort]

end IdMap
