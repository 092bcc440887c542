import Mars.Cgroup.Resources
import Mathlib.Logic.Function.Basic

/-! # What the limit files hold

A file that takes a write holds what was written; the driver always writes both halves of
`cpu.max`. Where `apply` returns, each file holds the last text meant for it.
-/

namespace Mars.V2
open UnixPath Text

/-- The text of each file, by its path. -/
abbrev Contents := String → String

def Contents.take (c : Contents) (w : Write) : Contents := Function.update c w.target w.value

def Contents.after (c : Contents) (written : List Write) : Contents := written.foldl take c

/-- The file of this name in the cgroup's directory. -/
def Cgroup.file (cgroup : Cgroup) (name : String) : String := join cgroup.path name

/-! ## Reading them -/

/-- A word of a text, by its place. -/
def word (n : Nat) (text : String) : String :=
  String.ofList ((splitWhitespace text.toList)[n]?.getD [])

/-- The limit that `memory.max` sets; `max` sets none. -/
def memoryLimit (text : String) : Option Int :=
  if text.toList ≠ [] ∧ text.toList.all Char.isDigit then
    some (Nat.ofDigitChars 10 text.toList 0 : Int)
  else none

theorem memoryLimit_intText {bytes : Int} (hpos : 0 < bytes) :
    memoryLimit (intText bytes) = some bytes := by
  obtain ⟨n, rfl⟩ := Int.eq_ofNat_of_zero_le (Int.le_of_lt hpos)
  have htext : (intText (n : Int)).toList = decimal n := by
    simp [intText, decimalInt]
  have hne : decimal n ≠ [] := Nat.toDigits_ne_nil
  have hall : (decimal n).all Char.isDigit = true :=
    List.all_eq_true.mpr fun c hc => isDigit_of_mem_decimal hc
  have hvalue : Nat.ofDigitChars 10 (decimal n) 0 = n := Nat.ofDigitChars_ten_toDigits
  rw [memoryLimit, htext, if_pos ⟨hne, hall⟩, hvalue]

theorem memoryLimit_max : memoryLimit "max" = none := by decide

theorem memoryLimit_limitValue (bytes : Int) :
    memoryLimit (limitValue bytes) = if 0 < bytes then some bytes else none := by
  unfold limitValue
  by_cases hpos : 0 < bytes
  · rw [if_neg (by omega), if_pos hpos, memoryLimit_intText hpos]
  · rw [if_pos (by omega), if_neg hpos, memoryLimit_max]

/-- A total that is translated with a limit that is none, and without one, is the same. -/
theorem swapValue_limitValue (swap bytes : Int) :
    swapValue swap (memoryLimit (limitValue bytes)) = swapValue swap (some bytes) := by
  rw [memoryLimit_limitValue]
  by_cases hpos : 0 < bytes
  · rw [if_pos hpos]
  · rw [if_neg hpos]
    simp [swapValue, hpos]

theorem word_two {first second : List Char} (hfirst : IsWord first) (hsecond : IsWord second) :
    word 0 (String.ofList (first ++ ' ' :: second)) = String.ofList first ∧
      word 1 (String.ofList (first ++ ' ' :: second)) = String.ofList second := by
  have hlast : splitWhitespace second = [second] := by
    have hone : List.splitOnP isWhitespace second = [second] := List.splitOnP_eq_singleton hsecond.2
    simp [splitWhitespace, hone, hsecond.1]
  have hspace : isWhitespace ' ' = true := by decide
  have hsplit : splitWhitespace (first ++ ' ' :: second) = [first, second] := by
    rw [splitWhitespace_word hfirst hspace, hlast]
  simp [word, hsplit]

/-- Both halves of a `cpu.max` that the driver has written. -/
theorem word_cpuMaxValue (quota : Int) (period : Nat) :
    word 0 (cpuMaxValue quota period) = (if quota ≤ 0 then "max" else intText quota) ∧
      word 1 (cpuMaxValue quota period) = natText period := by
  have hperiod := isWord_decimal period
  unfold cpuMaxValue
  split
  next =>
    have hplain : "max".toList.all (! isWhitespace ·) = true := by decide
    have hmax : IsWord "max".toList :=
      ⟨by decide, fun c hc => by simpa using List.all_eq_true.mp hplain c hc⟩
    have htext : "max " ++ natText period =
        String.ofList ("max".toList ++ ' ' :: decimal period) := by
      apply String.toList_inj.mp
      simp [natText]
    rw [htext]
    exact word_two hmax hperiod
  next =>
    have htext : intText quota ++ " " ++ natText period =
        String.ofList (decimalInt quota ++ ' ' :: decimal period) := by
      apply String.toList_inj.mp
      simp [natText, intText]
    rw [htext]
    exact word_two (isWord_decimalInt quota) hperiod

/-! ## After a list of settings -/

/-- The last text meant for a file. -/
def last (name : String) : List (String × String) → Option String
  | [] => none
  | setting :: rest =>
      match last name rest with
      | some value => some value
      | none => if setting.1 = name then some setting.2 else none

theorem last_append (name : String) (front back : List (String × String)) :
    last name (front ++ back) = (last name back).or (last name front) := by
  induction front with
  | nil => simp [last]
  | cons setting rest ih =>
      rw [List.cons_append, last, ih, last]
      cases last name back <;> simp

/-- A section that writes one file, or none. -/
theorem last_option {α : Type} (name file : String) (part : Option α) (text : α → String) :
    last name (part.map fun a => (file, text a)).toList =
      if file = name then part.map text else none := by
  cases part with
  | none => simp [last]
  | some a => simp [last]

theorem last_text (name file : String) (part : Option String) :
    last name (part.map fun text => (file, text)).toList = if file = name then part else none := by
  cases part with
  | none => simp [last]
  | some text => simp [last]

/-- One write for each setting. -/
def Cgroup.writes (cgroup : Cgroup) (todo : List (String × String)) : List Write :=
  todo.map fun setting => { target := cgroup.file setting.1, value := setting.2 }

section writes

variable {cgroup : Cgroup} {c : Contents} {name path : String} {todo : List (String × String)}

theorem file_inj {a b : String} (ha : isAbsolute a = false) (hb : isAbsolute b = false)
    (h : cgroup.file a = cgroup.file b) : a = b := by
  simp only [Cgroup.file, join, ha, hb, Bool.false_eq_true, if_false] at h
  have hlists := congrArg String.toList h
  apply String.toList_inj.mp
  split at hlists
  next => exact hlists
  next =>
    split at hlists
    next => simpa using hlists
    next => simpa using hlists

theorem isAbsolute_of_files {file : String} (h : file ∈ FILES) : isAbsolute file = false :=
  isAbsolute_of_plain (files_plain h).1

/-- Files that no setting is meant for keep what they hold. -/
theorem after_writes_other (hother : ∀ setting ∈ todo, cgroup.file setting.1 ≠ path) :
    c.after (cgroup.writes todo) path = c path := by
  induction todo generalizing c with
  | nil => rfl
  | cons setting rest ih =>
      have hfirst : path ≠ cgroup.file setting.1 := (hother setting List.mem_cons_self).symm
      have hrest := ih (c := c.take ⟨cgroup.file setting.1, setting.2⟩)
        fun s hs => hother s (List.mem_cons_of_mem _ hs)
      exact hrest.trans (Function.update_of_ne hfirst _ _)

/-- A file holds the last text meant for it. -/
theorem after_writes (htodo : ∀ setting ∈ todo, isAbsolute setting.1 = false)
    (hname : isAbsolute name = false) :
    c.after (cgroup.writes todo) (cgroup.file name) =
      (last name todo).getD (c (cgroup.file name)) := by
  induction todo generalizing c with
  | nil => rfl
  | cons setting rest ih =>
      have hrest := ih (c := c.take ⟨cgroup.file setting.1, setting.2⟩)
        fun s hs => htodo s (List.mem_cons_of_mem _ hs)
      have hstep : c.after (cgroup.writes (setting :: rest)) =
          (c.take ⟨cgroup.file setting.1, setting.2⟩).after (cgroup.writes rest) := rfl
      rw [hstep, hrest, last]
      cases last name rest with
      | some value => rfl
      | none =>
          by_cases heq : setting.1 = name
          · simp [Contents.take, heq]
          · have hne : cgroup.file name ≠ cgroup.file setting.1 := fun h =>
              heq (file_inj hname (htodo setting List.mem_cons_self) h).symm
            simp [Contents.take, heq, hne]

/-- What returns has written every setting. -/
theorem writeAll_ok {fails : Write → Bool} (hok : (writeAll fails cgroup todo).2 = .ok ()) :
    (writeAll fails cgroup todo).1 = cgroup.writes todo := by
  induction todo with
  | nil => rfl
  | cons setting rest ih =>
      simp only [writeAll] at hok ⊢
      cases hwrite : cgroup.write fails setting.1 setting.2 with
      | error error => simp [hwrite] at hok
      | ok write =>
          rw [hwrite] at hok
          have hrest := ih hok
          have heq := (write_ok hwrite).1
          simp only [hrest, heq]
          rfl

end writes

end Mars.V2
