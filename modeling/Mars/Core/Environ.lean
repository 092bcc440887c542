import Mathlib.Data.List.Basic

/-! # Environments

Lists of `KEY=VALUE` entries. A key has the value of the first entry that gives
it one, as for `getenv`; who appends entries may expect the last to count.
-/

namespace Environ

def Key := { chars : List Char // '=' ∉ chars }

def value (key : Key) (entry : String) : Option (List Char) :=
  entry.toList.dropPrefix? (key.val ++ ['='])

def first (key : Key) (env : List String) : Option (List Char) := env.findSome? (value key)

def last (key : Key) (env : List String) : Option (List Char) :=
  env.reverse.findSome? (value key)

variable {key other : Key} {entry : String} {v w : List Char}
  {env base overrides : List String}

theorem value_eq_some : value key entry = some v ↔ entry.toList = key.val ++ '=' :: v := by
  rw [value, List.dropPrefix?_eq_some_iff]
  simp

/-- An entry gives one key a value. -/
theorem value_key (h : value key entry = some v) (hother : value other entry = some w) :
    key = other := by
  rw [value_eq_some] at h hother
  have heq : key.val ++ '=' :: v = other.val ++ '=' :: w := h.symm.trans hother
  have hcut : ∀ (k : Key) (tail : List Char),
      (k.val ++ '=' :: tail).takeWhile (· ≠ '=') = k.val := by
    intro k tail
    rw [List.takeWhile_append_of_pos fun c hc => by
      have hne : c ≠ '=' := fun hc' => k.property (hc' ▸ hc)
      simpa using hne]
    simp
  apply Subtype.ext
  rw [← hcut key v, heq, hcut]

theorem first_append :
    first key (base ++ overrides) = (first key base).or (first key overrides) :=
  List.findSome?_append

theorem last_eq_none : last key env = none ↔ first key env = none := by
  simp [last, first, List.findSome?_eq_none_iff]

/-! ## Appended entries -/

/-- The appended entries say of the keys they give what is there before them
or, where nothing is, all the same as the last of them. -/
structure Undisputed (base overrides : List String) : Prop where
  inherited : ∀ key v w, first key base = some v → last key overrides = some w → v = w
  repeated : ∀ key v w, first key base = none → first key overrides = some v →
    last key overrides = some w → v = w

/-- The last of the appended entries counts for the keys they give. -/
structure LastWins (base overrides env : List String) : Prop where
  given : ∀ key v, last key overrides = some v → first key env = some v
  kept : ∀ key, last key overrides = none → first key env = first key base

theorem lastWins_append_iff :
    LastWins base overrides (base ++ overrides) ↔ Undisputed base overrides := by
  constructor
  · intro h
    constructor
    · intro key v w hbase hlast
      have hfirst := h.given key w hlast
      rw [first_append, hbase, Option.some_or] at hfirst
      exact Option.some.inj hfirst
    · intro key v w hbase hover hlast
      have hfirst := h.given key w hlast
      rw [first_append, hbase, Option.none_or, hover] at hfirst
      exact Option.some.inj hfirst
  · intro h
    constructor
    · intro key v hlast
      rw [first_append]
      cases hbase : first key base with
      | some w => rw [Option.some_or, h.inherited key w v hbase hlast]
      | none =>
          cases hover : first key overrides with
          | some w => rw [Option.none_or, h.repeated key w v hbase hover hlast]
          | none => rw [last_eq_none.mpr hover] at hlast; cases hlast
    · intro key hlast
      rw [first_append, last_eq_none.mp hlast, Option.or_none]

/-- One entry, for a key that nothing there gives. -/
theorem undisputed_fresh (h : ∀ key v, value key entry = some v → first key base = none) :
    Undisputed base [entry] where
  inherited := by
    intro key v w hbase hlast
    rw [h key w (by simpa [last] using hlast)] at hbase
    cases hbase
  repeated := by
    intro key v w _ hover hlast
    have hfirst : value key entry = some v := by simpa [first] using hover
    have hagain : value key entry = some w := by simpa [last] using hlast
    exact Option.some.inj (hfirst.symm.trans hagain)

end Environ
