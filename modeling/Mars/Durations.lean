import Mars.Cgroup.Resources
import Mars.Core.Text
import Mars.State

/-! # Durations from the command line and from hooks

The interval of `events` and the timeout of a hook, in the 64-bit arithmetic of
a release build: a product wraps, and an instant too late to be written makes the
sum panic.
-/

namespace Mars.Durations
open Text State

/-! ## The interval of `events` -/

def stripSuffix (suffix text : List Char) : Option (List Char) :=
  if suffix.isSuffixOf text then some (text.take (text.length - suffix.length)) else none

/-- The text before the unit, and the unit in milliseconds. -/
def splitUnit (trimmed : List Char) : List Char × UInt64 :=
  match stripSuffix ['m', 's'] trimmed with
  | some rest => (rest, 1)
  | none =>
      match stripSuffix ['s'] trimmed with
      | some rest => (rest, 1000)
      | none =>
          match stripSuffix ['m'] trimmed with
          | some rest => (rest, 60000)
          | none => (trimmed, 1000)

/-- The duration in milliseconds. -/
def parseInterval (text : List Char) : Except Error UInt64 :=
  let (value, multiplier) := splitUnit (trim text)
  match parseU64 value with
  | none => .error (.invalid ("cannot parse the interval " ++ debugText (String.ofList text)))
  | some millis =>
      if millis = 0 then .error (.invalid "the interval must be positive")
      else .ok (UInt64.ofNat millis * multiplier)

/-- The durations slept, given what each look at the container finds. -/
def watch (interval : UInt64) : List Status → List UInt64
  | [] => []
  | status :: looks => if status = .stopped then [] else interval :: watch interval looks

/-- `run`, with the status found at first. -/
def run (id : String) (stats : Bool) (interval : List Char) (first : Status)
    (looks : List Status) : Except Error (List UInt64) :=
  if [Status.created, .running, .paused].contains first then
    if stats then .ok [] else (parseInterval interval).map fun d => watch d looks
  else .error (.badState id first.toText "created or running or paused")

/-! ## The deadline of a hook -/

/-- The monotonic clock. -/
structure Instant where
  tvSec : Int64
  tvNsec : Fin 1000000000
  deriving DecidableEq

/-- No instant when the seconds do not fit. -/
def Instant.addSecs (now : Instant) (secs : UInt64) : Option Instant :=
  let sum := now.tvSec.toInt + secs.toNat
  if sum < 2 ^ 63 then some { now with tvSec := Int64.ofInt sum } else none

/-- The deadline, if there is one. The outer `none` is the panic of the sum. -/
def deadline (timeout : Option Int64) (now : Instant) : Option (Option Instant) :=
  match timeout.filter (0 < ·) with
  | none => some none
  | some seconds => (now.addSecs seconds.toUInt64).map some

/-! ## What a text says -/

def unitMillis : List Char → Option Nat
  | ['m', 's'] => some 1
  | ['s'] => some 1000
  | ['m'] => some 60000
  | [] => some 1000
  | _ => none

/-- Between blanks, a number of 64 bits and a unit behind it. -/
def Means (text : List Char) (value unit : Nat) : Prop :=
  ∃ digits suffix, trim text = digits ++ suffix ∧ parseU64 digits = some value ∧
    unitMillis suffix = some unit

theorem parseU64_last {digits : List Char} {value : Nat} (h : parseU64 digits = some value) :
    ∃ front d, digits = front ++ [d] ∧ d.isDigit = true := by
  have hlast : ∀ body : List Char, (if body ≠ [] ∧ body.all Char.isDigit = true ∧
      Nat.ofDigitChars 10 body 0 < 2 ^ 64 then some (Nat.ofDigitChars 10 body 0) else none) =
      some value → ∃ front d, body = front ++ [d] ∧ d.isDigit = true := by
    intro body hbody
    split at hbody
    next hgood =>
      refine ⟨body.dropLast, body.getLast hgood.1, (List.dropLast_append_getLast hgood.1).symm, ?_⟩
      exact List.all_eq_true.mp hgood.2.1 _ (List.getLast_mem hgood.1)
    next => cases hbody
  cases digits with
  | nil => cases h
  | cons c rest =>
      by_cases hplus : c = '+'
      · obtain ⟨front, d, heq, hd⟩ := hlast rest (by rw [← h, hplus]; rfl)
        exact ⟨c :: front, d, by rw [heq, List.cons_append], hd⟩
      · apply hlast (c :: rest)
        rw [← h, parseU64, parseUnsigned]
        rintro rest heq
        exact hplus (List.cons.inj heq).1

theorem stripSuffix_append (front suffix : List Char) :
    stripSuffix suffix (front ++ suffix) = some front := by
  have hsuffix : suffix.isSuffixOf (front ++ suffix) = true :=
    List.isSuffixOf_iff_suffix.mpr (List.suffix_append front suffix)
  rw [stripSuffix, if_pos hsuffix, List.length_append, Nat.add_sub_cancel, List.take_left']
  rfl

theorem stripSuffix_some {suffix text rest : List Char} (h : stripSuffix suffix text = some rest) :
    text = rest ++ suffix := by
  unfold stripSuffix at h
  split at h
  next hsuffix =>
    obtain ⟨front, rfl⟩ := List.isSuffixOf_iff_suffix.mp hsuffix
    have hfront : (front ++ suffix).take ((front ++ suffix).length - suffix.length) = front := by
      rw [List.length_append, Nat.add_sub_cancel, List.take_left']
      rfl
    rw [← Option.some.inj h, hfront]
  next => cases h

theorem stripSuffix_none {suffix text : List Char} (h : ¬ suffix.reverse <+: text.reverse) :
    stripSuffix suffix text = none := by
  unfold stripSuffix
  split
  next hsuffix => exact absurd (List.reverse_prefix.mpr (List.isSuffixOf_iff_suffix.mp hsuffix)) h
  next => rfl

/-- What is split off is a unit. -/
theorem splitUnit_suffix (trimmed : List Char) :
    ∃ suffix, trimmed = (splitUnit trimmed).1 ++ suffix ∧
      unitMillis suffix = some (splitUnit trimmed).2.toNat := by
  unfold splitUnit
  split
  next rest h => exact ⟨_, stripSuffix_some h, rfl⟩
  next =>
    split
    next rest h => exact ⟨_, stripSuffix_some h, rfl⟩
    next =>
      split
      next rest h => exact ⟨_, stripSuffix_some h, rfl⟩
      next => exact ⟨[], (List.append_nil _).symm, rfl⟩

/-- A unit behind a digit is split off whole. -/
theorem splitUnit_append {digits suffix : List Char} {value unit : Nat}
    (hdigits : parseU64 digits = some value) (hunit : unitMillis suffix = some unit) :
    (splitUnit (digits ++ suffix)).1 = digits ∧ (splitUnit (digits ++ suffix)).2.toNat = unit := by
  obtain ⟨front, d, rfl, hd⟩ := parseU64_last hdigits
  have hs : d ≠ 's' := by rintro rfl; cases hd
  have hm : d ≠ 'm' := by rintro rfl; cases hd
  rw [splitUnit]
  unfold unitMillis at hunit
  split at hunit
  next =>
    cases hunit
    rw [stripSuffix_append]
    exact ⟨rfl, rfl⟩
  next =>
    cases hunit
    rw [stripSuffix_none (by simp [hm.symm]), stripSuffix_append]
    exact ⟨rfl, rfl⟩
  next =>
    cases hunit
    rw [stripSuffix_none (by simp), stripSuffix_none (by simp), stripSuffix_append]
    exact ⟨rfl, rfl⟩
  next =>
    cases hunit
    rw [stripSuffix_none (by simp [hs.symm]), stripSuffix_none (by simp [hs.symm]),
      stripSuffix_none (by simp [hm.symm])]
    exact ⟨List.append_nil _, rfl⟩
  next => cases hunit

theorem means_iff (text : List Char) (value unit : Nat) :
    Means text value unit ↔
      parseU64 (splitUnit (trim text)).1 = some value ∧ (splitUnit (trim text)).2.toNat = unit := by
  constructor
  · rintro ⟨digits, suffix, htext, hdigits, hunit⟩
    obtain ⟨hvalue, hmillis⟩ := splitUnit_append hdigits hunit
    rw [htext]
    exact ⟨by rw [hvalue, hdigits], hmillis⟩
  · rintro ⟨hdigits, rfl⟩
    obtain ⟨suffix, htext, hunit⟩ := splitUnit_suffix (trim text)
    exact ⟨_, suffix, htext, hdigits, hunit⟩

/-- A text says one thing at most. -/
theorem Means.unique {text : List Char} {value unit value' unit' : Nat}
    (h : Means text value unit) (h' : Means text value' unit') : value = value' ∧ unit = unit' := by
  obtain ⟨hvalue, hunit⟩ := (means_iff text value unit).mp h
  obtain ⟨hvalue', hunit'⟩ := (means_iff text value' unit').mp h'
  exact ⟨Option.some.inj (hvalue.symm.trans hvalue'), hunit.symm.trans hunit'⟩

/-- An interval that is accepted is the product, as far as it fits. -/
theorem parseInterval_ok (text : List Char) (d : UInt64) :
    parseInterval text = .ok d ↔
      ∃ value unit, Means text value unit ∧ value ≠ 0 ∧ d.toNat = value * unit % 2 ^ 64 := by
  simp only [means_iff, parseInterval]
  cases hvalue : parseU64 (splitUnit (trim text)).1 with
  | none => simp
  | some millis =>
      have hproduct : (UInt64.ofNat millis * (splitUnit (trim text)).2).toNat =
          millis * (splitUnit (trim text)).2.toNat % 2 ^ 64 := by
        rw [UInt64.toNat_mul, UInt64.toNat_ofNat', Nat.mod_mul_mod]
      by_cases hzero : millis = 0
      · simp [hzero]
      · simp [hzero, ← UInt64.toNat_inj, hproduct, eq_comm]

/-! ## What is slept, and until when -/

/-- The product of the number and the unit, and more than nothing. -/
def Exact (text : List Char) (d : UInt64) : Prop :=
  ∃ value unit, Means text value unit ∧ d.toNat = value * unit ∧ 0 < d.toNat

theorem mem_watch {interval d : UInt64} {looks : List Status} (h : d ∈ watch interval looks) :
    d = interval := by
  induction looks with
  | nil => cases h
  | cons status looks ih =>
      rw [watch] at h
      split at h
      next => cases h
      next => exact (List.mem_cons.mp h).elim id ih

/-- Whatever the loop sleeps is the interval that was parsed. -/
theorem mem_run {id : String} {stats : Bool} {text : List Char} {first : Status}
    {looks : List Status} {sleeps : List UInt64} {d : UInt64}
    (h : run id stats text first looks = .ok sleeps) (hd : d ∈ sleeps) :
    parseInterval text = .ok d := by
  unfold run at h
  split at h
  next =>
    split at h
    next =>
      cases h
      cases hd
    next =>
      cases hparse : parseInterval text with
      | error e =>
          rw [hparse] at h
          cases h
      | ok interval =>
          rw [hparse] at h
          cases h
          rw [mem_watch hd]
  next => cases h

theorem interval_exact (text : List Char) :
    ((∀ d, parseInterval text = .ok d → Exact text d) ∧
      ∀ id stats first looks sleeps, run id stats text first looks = .ok sleeps →
        ∀ d ∈ sleeps, Exact text d) ↔
      ∀ value unit, Means text value unit → value * unit < 2 ^ 64 := by
  constructor
  · rintro ⟨hexact, -⟩ value unit hmeans
    by_cases hzero : value = 0
    · rw [hzero, Nat.zero_mul]
      decide
    · have hok : parseInterval text = .ok (UInt64.ofNat (value * unit)) :=
        (parseInterval_ok text _).mpr ⟨value, unit, hmeans, hzero, UInt64.toNat_ofNat'⟩
      obtain ⟨value', unit', hmeans', hd, -⟩ := hexact _ hok
      obtain ⟨rfl, rfl⟩ := hmeans.unique hmeans'
      rw [← hd]
      exact UInt64.toNat_lt _
  · intro hfits
    have hexact : ∀ d, parseInterval text = .ok d → Exact text d := by
      intro d hok
      obtain ⟨value, unit, hmeans, hzero, hd⟩ := (parseInterval_ok text d).mp hok
      rw [Nat.mod_eq_of_lt (hfits value unit hmeans)] at hd
      have hunit : 0 < unit := by
        obtain ⟨digits, suffix, -, -, hsuffix⟩ := hmeans
        unfold unitMillis at hsuffix
        split at hsuffix <;> cases hsuffix <;> decide
      refine ⟨value, unit, hmeans, hd, ?_⟩
      rw [hd]
      exact Nat.mul_pos (Nat.pos_of_ne_zero hzero) hunit
    exact ⟨hexact, fun id stats first looks sleeps hrun d hd => hexact d (mem_run hrun hd)⟩

/-- A timeout that is not positive sets no deadline, any other one that many
seconds ahead. -/
def DeadlineExact (timeout : Int64) (now : Instant) : Prop :=
  (0 < timeout → ∃ i, deadline (some timeout) now = some (some i) ∧
    i.tvSec.toInt = now.tvSec.toInt + timeout.toInt ∧ i.tvNsec = now.tvNsec) ∧
  (¬ 0 < timeout → deadline (some timeout) now = some none)

theorem toNat_timeout {timeout : Int64} (h : 0 < timeout) :
    (timeout.toUInt64.toNat : Int) = timeout.toInt := by
  have hle : 0 ≤ timeout := Int64.le_of_lt h
  rw [Int64.toNat_toUInt64_of_le hle, Int64.cast_toNatClampNeg timeout hle]

theorem deadline_pos {timeout : Int64} (h : 0 < timeout) (now : Instant) :
    deadline (some timeout) now =
      if now.tvSec.toInt + timeout.toInt < 2 ^ 63 then
        some (some { now with tvSec := Int64.ofInt (now.tvSec.toInt + timeout.toInt) })
      else none := by
  rw [deadline, Option.filter_some, decide_eq_true h, if_pos rfl]
  simp only [Instant.addSecs, toNat_timeout h]
  split <;> rfl

theorem deadline_nonpos {timeout : Int64} (h : ¬0 < timeout) (now : Instant) :
    deadline (some timeout) now = some none := by
  rw [deadline, Option.filter_some, decide_eq_false h, if_neg Bool.false_ne_true]

/-- The sum is an instant. -/
theorem deadline_ne_none {timeout : Option Int64} {now : Instant} :
    deadline timeout now ≠ none ↔
      ∀ seconds, timeout = some seconds → 0 < seconds →
        now.tvSec.toInt + seconds.toInt < 2 ^ 63 := by
  cases timeout with
  | none => simp [deadline]
  | some seconds =>
      by_cases hpos : 0 < seconds
      · rw [deadline_pos hpos]
        constructor
        · intro hne other hsame _
          obtain rfl := Option.some.inj hsame
          by_contra hlate
          exact hne (if_neg hlate)
        · intro hfits
          rw [if_pos (hfits seconds rfl hpos)]
          exact Option.some_ne_none _
      · rw [deadline_nonpos hpos]
        refine iff_of_true (Option.some_ne_none _) fun other hsame hother => ?_
        exact absurd (Option.some.inj hsame ▸ hother) hpos

theorem deadline_exact (timeout : Int64) (now : Instant) :
    DeadlineExact timeout now ↔ (0 < timeout → now.tvSec.toInt + timeout.toInt < 2 ^ 63) := by
  by_cases hpos : 0 < timeout
  · constructor
    · rintro ⟨hset, -⟩ -
      obtain ⟨i, hi, -⟩ := hset hpos
      by_contra hlate
      rw [deadline_pos hpos, if_neg hlate] at hi
      cases hi
    · intro hfits
      have hset := deadline_pos hpos now
      rw [if_pos (hfits hpos)] at hset
      refine ⟨fun _ => ⟨_, hset, ?_, rfl⟩, fun hneg => absurd hpos hneg⟩
      have hzero : 0 < timeout.toInt := Int64.lt_iff_toInt_lt.mp hpos
      have hnow := Int64.le_toInt now.tvSec
      exact Int64.toInt_ofInt_of_le (by omega) (hfits hpos)
  · exact ⟨fun _ h => absurd h hpos,
      fun _ => ⟨fun h => absurd h hpos, fun _ => deadline_nonpos hpos now⟩⟩

/-- Both conversions are exact where the product fits 64 bits and the deadline
can be written in seconds of 64 bits. -/
theorem durations_exact (text : List Char) (timeout : Int64) (now : Instant) :
    (((∀ d, parseInterval text = .ok d → Exact text d) ∧
        ∀ id stats first looks sleeps, run id stats text first looks = .ok sleeps →
          ∀ d ∈ sleeps, Exact text d) ↔
      ∀ value unit, Means text value unit → value * unit < 2 ^ 64) ∧
    (DeadlineExact timeout now ↔
      (0 < timeout → now.tvSec.toInt + timeout.toInt < 2 ^ 63)) :=
  ⟨interval_exact text, deadline_exact timeout now⟩

/-- A zero between the check and the sleep, and a sum past the last second. -/
theorem interval_wraps :
    parseInterval "576460752303423488m".toList = .ok 0 ∧
      run "web" false "576460752303423488m".toList .running [.running, .stopped] = .ok [0] ∧
      deadline (some Int64.maxValue) ⟨1, 0⟩ = none := by
  refine ⟨?_, ?_, ?_⟩ <;> decide +kernel

end Mars.Durations
