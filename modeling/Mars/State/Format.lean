import Mathlib.Algebra.Group.Int.Defs
import Mars.Core.JsonWriter
import Mars.State.Store

/-! # A text for a record

Both directions on a record, as one who prints and reads it could have them: an object
with ten members, each on a line of its own, in which the annotations may be missing, as
older versions did not write them.
-/

namespace Mars.State
open JsonRead Store
open JsonText (escapeChar)

/-! ## Writing -/

def members (state : Persisted) : List (String × Value) := [
  ("oci_version", .string state.ociVersion),
  ("id", .string state.id),
  ("pid", .number (numeral state.pid)),
  ("start_time", .number (numeral state.startTime)),
  ("bundle", .string state.bundle),
  ("rootfs", .string state.rootfs),
  ("cgroup", .string state.cgroup),
  ("created", .string state.created),
  ("rootless", .bool state.rootless),
  ("annotations", mapValue state.annotations)]

def toStringPretty (state : Persisted) : Option String :=
  if InRange state then some (String.ofList (pretty escapeChar 0 (.object (members state))))
  else none

/-! ## Reading -/

def ofMembers (members : List (String × Value)) : Option Persisted := do
  let ociVersion ← required asString members "oci_version"
  let id ← required asString members "id"
  let pid ← required (asInt (-2 ^ 31) (2 ^ 31)) members "pid"
  let startTime ← required (asInt 0 (2 ^ 64)) members "start_time"
  let bundle ← required asString members "bundle"
  let rootfs ← required asString members "rootfs"
  let cgroup ← required asString members "cgroup"
  let created ← required asString members "created"
  let rootless ← required asBool members "rootless"
  let annotations ← defaulted asMap [] members "annotations"
  some { ociVersion, id, pid, startTime := startTime.toNat, bundle, rootfs, cgroup, created,
         rootless, annotations }

def fromStr (text : String) : Option Persisted := do
  match ← parse text.toList with
  | .object members => ofMembers members
  | _ => none

def serde : Serde where
  toStringPretty := toStringPretty
  fromStr := fromStr

/-! ## Reading what was written -/

section read
variable {state : Persisted} {found : List (String × Value)}

theorem required_numeral {low high i : Int} {name : String} (h : low ≤ i ∧ i < high)
    (hfound : member found name = some (some (.number (numeral i)))) :
    required (asInt low high) found name = some i := by
  rw [required, hfound]
  exact asInt_numeral h

theorem ofMembers_members (h : InRange state) : ofMembers (members state) = some state := by
  obtain ⟨hpid, htime, hannotations⟩ := h
  have htime : (0 : Int) ≤ state.startTime ∧ (state.startTime : Int) < 2 ^ 64 :=
    ⟨by omega, by exact_mod_cast htime⟩
  have hpid : required (asInt (-2 ^ 31) (2 ^ 31)) (members state) "pid" = some state.pid :=
    required_numeral hpid rfl
  have hstart : required (asInt 0 (2 ^ 64)) (members state) "start_time" =
      some (state.startTime : Int) := required_numeral htime rfl
  have hmap : defaulted asMap [] (members state) "annotations" = some state.annotations :=
    asMap_mapValue hannotations
  rw [ofMembers, hpid, hstart, hmap]
  rfl

/-- What is read has values of the types of the fields. -/
theorem ofMembers_inRange (h : ofMembers found = some state) : InRange state := by
  have hint : ∀ {low high i : Int} {name : String},
      required (asInt low high) found name = some i → low ≤ i ∧ i < high := by
    intro low high i name hrequired
    obtain ⟨value, -, hvalue⟩ := Option.bind_eq_some_iff.mp hrequired
    obtain ⟨v, -, hint⟩ := Option.bind_eq_some_iff.mp hvalue
    exact asInt_range hint
  simp only [ofMembers, Option.bind_eq_bind, Option.bind_eq_some_iff] at h
  obtain ⟨_, -, _, -, pid, hpid, startTime, hstart, _, -, _, -, _, -, _, -, _, -, annotations,
    hannotations, hstate⟩ := h
  obtain rfl := Option.some.inj hstate
  refine ⟨hint hpid, ?_, ?_⟩
  · have htime := hint hstart
    show startTime.toNat < 2 ^ 64
    omega
  · obtain ⟨value, -, hvalue⟩ := Option.bind_eq_some_iff.mp hannotations
    cases value with
    | none => exact Option.some.inj hvalue ▸ List.nodup_nil
    | some v => exact asMap_nodup hvalue

theorem fromStr_object {text : String} (h : parse text.toList = some (.object found)) :
    fromStr text = ofMembers found := by
  rw [fromStr, h]
  rfl

theorem toStringPretty_parse {text : String} (h : toStringPretty state = some text) :
    parse text.toList = some (.object (members state)) := by
  unfold toStringPretty at h
  split at h
  next =>
    rw [← Option.some.inj h, String.toList_ofList]
    exact parse_pretty_escaped _
  next => cases h

end read

theorem serde_roundTrips : serde.RoundTrips := by
  intro state text h
  have hrange : InRange state := by
    by_contra hnot
    cases (if_neg hnot).symm.trans h
  exact (fromStr_object (toStringPretty_parse h)).trans (ofMembers_members hrange)

theorem serde_typed : serde.Typed := by
  intro text state h
  obtain ⟨v, -, hv⟩ := Option.bind_eq_some_iff.mp h
  cases v with
  | object found => exact ofMembers_inRange hv
  | _ => cases hv

/-! ## One record on disk -/

def savedFiles : Files := (save serde demoFiles demoLayout (demoState "a") [] .runs).1

theorem tidy_demo : Tidy serde demoLayout demoFiles :=
  tidy_empty (emptyRoot_of_keys (by decide) (by decide +kernel))

theorem load_saved : load serde savedFiles demoLayout "c1" = .ok ⟨demoLayout, demoState "a"⟩ := by
  have hanswer : (save serde demoFiles demoLayout (demoState "a") [] .runs).2 = some (.ok ()) := by
    decide +kernel
  have hsave : save serde demoFiles demoLayout (demoState "a") [] .runs =
      (savedFiles, some (.ok ())) := Prod.ext (by rw [savedFiles]) hanswer
  obtain ⟨htidy, hrecords⟩ := tidy_demo.saved serde_roundTrips (by decide) (by decide) hsave
  have hrecord : recordsOf serde demoLayout savedFiles "c1" = some (demoState "a") := by
    rw [hrecords]
    exact Function.update_self "c1" _ _
  exact (htidy.recordsOf_eq_some.mp hrecord).2

end Mars.State
