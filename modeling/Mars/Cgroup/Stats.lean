import Mars.Cgroup.Events
import Mars.Core.JsonWriter
import Mars.State.Document

/-! # The stream of events

`events` prints one JSON text to a line: what the counters of the cgroup say, over
and over, and at last that the container is gone. A counter that cannot be read is
reported as nought.
-/

namespace Mars.EventStream
open Text JsonRead State

/-! ## Reading the counters -/

/-- The texts of the files of a cgroup, where they can be read. -/
abbrev Files := String → Option (List Char)

structure MemoryEvents where
  low : Nat
  high : Nat
  max : Nat
  oom : Nat
  oomKill : Nat
  deriving DecidableEq

structure CpuStat where
  usageUsec : Nat
  nrPeriods : Nat
  nrThrottled : Nat
  throttledUsec : Nat
  deriving DecidableEq

def field (text : List Char) (key : String) : Nat :=
  (Events.get (Events.parseFlatKeyed text) key).getD 0

def memoryEvents (files : Files) : Option MemoryEvents :=
  (files "memory.events").map fun text =>
    { low := field text "low"
      high := field text "high"
      max := field text "max"
      oom := field text "oom"
      oomKill := field text "oom_kill" }

def cpuStat (files : Files) : Option CpuStat :=
  (files "cpu.stat").map fun text =>
    { usageUsec := field text "usage_usec"
      nrPeriods := field text "nr_periods"
      nrThrottled := field text "nr_throttled"
      throttledUsec := field text "throttled_usec" }

def singleValue (files : Files) (file : String) : Nat :=
  ((files file).bind fun text => parseU64 (trim text)).getD 0

/-! ## Events -/

structure Stats where
  usage : Nat
  peak : Nat
  limitEvents : Nat
  oomKill : Nat
  usageUsec : Nat
  nrPeriods : Nat
  nrThrottled : Nat
  throttledUsec : Nat
  current : Nat
  deriving DecidableEq

/-- Without data it is the last one. -/
structure Event where
  kind : String
  id : String
  data : Option Stats
  deriving DecidableEq

def sample (id : String) (files : Files) : Event :=
  let memory := (memoryEvents files).getD ⟨0, 0, 0, 0, 0⟩
  let cpu := (cpuStat files).getD ⟨0, 0, 0, 0⟩
  { kind := "stats"
    id := id
    data := some
      { usage := singleValue files "memory.current"
        peak := singleValue files "memory.peak"
        limitEvents := memory.max
        oomKill := memory.oomKill
        usageUsec := cpu.usageUsec
        nrPeriods := cpu.nrPeriods
        nrThrottled := cpu.nrThrottled
        throttledUsec := cpu.throttledUsec
        current := singleValue files "pids.current" } }

def gone (id : String) : Event := { kind := "exit", id := id, data := none }

def counter (n : Nat) : Value := .number (numeral n)

def Stats.members (stats : Stats) : List (String × Value) := [
  ("memory", .object [("usage", counter stats.usage), ("peak", counter stats.peak),
    ("limit_events", counter stats.limitEvents), ("oom_kill", counter stats.oomKill)]),
  ("cpu", .object [("usage_usec", counter stats.usageUsec), ("nr_periods", counter stats.nrPeriods),
    ("nr_throttled", counter stats.nrThrottled),
    ("throttled_usec", counter stats.throttledUsec)]),
  ("pids", .object [("current", counter stats.current)])]

def Event.members (event : Event) : List (String × Value) :=
  [("type", .string event.kind), ("id", .string event.id)] ++
    event.data.toList.map fun stats => ("data", .object stats.members)

def Event.value (event : Event) : Value := .object event.members

/-! ## The loop -/

/-- What the runtime finds when it looks at the container. -/
structure Look where
  status : Status
  files : Files

def watch (id : String) : List Look → List Event
  | [] => []
  | look :: rest =>
      if look.status = .stopped then [gone id] else sample id look.files :: watch id rest

/-- The loop ends with an event that has no text. -/
def texts (writer : Writer Event) : List Event → List (List Char)
  | [] => []
  | event :: rest =>
      match writer.toString event with
      | none => []
      | some text => text.toList :: texts writer rest

/-- What has been printed after so many looks. -/
def output (writer : Writer Event) (id : String) (looks : List Look) : List Char :=
  joinLines (texts writer (watch id looks))

/-! ## Reading the stream -/

def asCounter : Value → Option Nat := fun value => (asInt 0 (2 ^ 64) value).map Int.toNat

def asObject : Value → Option (List (String × Value))
  | .object members => some members
  | _ => none

def Stats.ofMembers (members : List (String × Value)) : Option Stats := do
  let memory ← required asObject members "memory"
  let cpu ← required asObject members "cpu"
  let pids ← required asObject members "pids"
  let usage ← required asCounter memory "usage"
  let peak ← required asCounter memory "peak"
  let limitEvents ← required asCounter memory "limit_events"
  let oomKill ← required asCounter memory "oom_kill"
  let usageUsec ← required asCounter cpu "usage_usec"
  let nrPeriods ← required asCounter cpu "nr_periods"
  let nrThrottled ← required asCounter cpu "nr_throttled"
  let throttledUsec ← required asCounter cpu "throttled_usec"
  let current ← required asCounter pids "current"
  some { usage, peak, limitEvents, oomKill, usageUsec, nrPeriods, nrThrottled, throttledUsec,
         current }

def Event.read : Value → Option Event
  | .object members => do
      let kind ← required asString members "type"
      let id ← required asString members "id"
      let data ← optional (fun value => asObject value >>= Stats.ofMembers) members "data"
      some { kind, id, data }
  | _ => none

/-- One text a line. -/
def readStream (text : List Char) : Option (List Event) :=
  (Events.lines text).mapM fun line => parse line >>= Event.read

/-! ## The files of the kernel -/

/-- The counters of a cgroup; a file is there if its controller is. -/
structure Counters where
  memoryCurrent : Option Nat
  memoryPeak : Option Nat
  pidsCurrent : Option Nat
  memoryEvents : Option (List (List Char × Nat))
  cpuStat : Option (List (List Char × Nat))

def flatKeyed (entries : List (List Char × Nat)) : List Char :=
  joinLines (entries.map fun entry => entry.1 ++ ' ' :: decimal entry.2)

def Counters.files (counters : Counters) : Files
  | "memory.current" => counters.memoryCurrent.map fun n => decimal n ++ ['\n']
  | "memory.peak" => counters.memoryPeak.map fun n => decimal n ++ ['\n']
  | "pids.current" => counters.pidsCurrent.map fun n => decimal n ++ ['\n']
  | "memory.events" => counters.memoryEvents.map flatKeyed
  | "cpu.stat" => counters.cpuStat.map flatKeyed
  | _ => none

/-- Each key is a word of its own, and each number has 64 bits. -/
structure Keyed (entries : List (List Char × Nat)) : Prop where
  word : ∀ entry ∈ entries, IsWord entry.1
  fits : ∀ entry ∈ entries, entry.2 < 2 ^ 64
  nodup : (entries.map Prod.fst).Nodup

structure Counters.Sound (counters : Counters) : Prop where
  memoryCurrent : ∀ n ∈ counters.memoryCurrent, n < 2 ^ 64
  memoryPeak : ∀ n ∈ counters.memoryPeak, n < 2 ^ 64
  pidsCurrent : ∀ n ∈ counters.pidsCurrent, n < 2 ^ 64
  memoryEvents : ∀ entries ∈ counters.memoryEvents, Keyed entries
  cpuStat : ∀ entries ∈ counters.cpuStat, Keyed entries

/-- What is counted under a key. -/
def amount (entries : Option (List (List Char × Nat))) (key : String) : Nat :=
  ((entries.getD []).lookup key.toList).getD 0

def Counters.event (id : String) (counters : Counters) : Event where
  kind := "stats"
  id := id
  data := some
    { usage := counters.memoryCurrent.getD 0
      peak := counters.memoryPeak.getD 0
      limitEvents := amount counters.memoryEvents "max"
      oomKill := amount counters.memoryEvents "oom_kill"
      usageUsec := amount counters.cpuStat "usage_usec"
      nrPeriods := amount counters.cpuStat "nr_periods"
      nrThrottled := amount counters.cpuStat "nr_throttled"
      throttledUsec := amount counters.cpuStat "throttled_usec"
      current := counters.pidsCurrent.getD 0 }

section kernel
variable {entries : List (List Char × Nat)}

theorem lines_joinLines {lines : List (List Char)} (h : ∀ line ∈ lines, Unbroken line) :
    Events.lines (joinLines lines) = lines := by
  rw [Events.lines, splitOn_joinLines h]
  simp

theorem unbroken_decimal (n : Nat) : Unbroken (decimal n) := by
  rintro c hc rfl
  cases isDigit_of_mem_decimal hc

theorem parseFlatKeyed_flatKeyed (h : Keyed entries) :
    Events.parseFlatKeyed (flatKeyed entries) = entries := by
  have hlines : ∀ line ∈ entries.map (fun entry => entry.1 ++ ' ' :: decimal entry.2),
      Unbroken line := by
    intro line hline
    obtain ⟨entry, hentry, rfl⟩ := List.mem_map.mp hline
    refine unbroken_append ?_ (unbroken_cons (by decide) (unbroken_decimal _))
    rintro c hc rfl
    have hword := (h.word entry hentry).2 _ hc
    cases hword
  rw [Events.parseFlatKeyed, flatKeyed, lines_joinLines hlines, List.filterMap_map]
  clear hlines
  have hone : ∀ entry ∈ entries,
      Events.parseLine (entry.1 ++ ' ' :: decimal entry.2) = some entry := by
    intro entry hentry
    rw [Events.parseLine, splitWhitespace_word (h.word entry hentry) (by decide),
      splitWhitespace_of_isWord (isWord_decimal _)]
    simp only [parseU64_decimal (h.fits entry hentry), Option.map_some]
  have hall := List.filterMap_congr
    (f := Events.parseLine ∘ fun entry => entry.1 ++ ' ' :: decimal entry.2)
    (g := some) hone
  rw [hall, List.filterMap_some]

theorem get_eq_lookup (h : (entries.map Prod.fst).Nodup) (key : String) :
    Events.get entries key = entries.lookup key.toList := by
  unfold Events.get
  induction entries with
  | nil => rfl
  | cons entry rest ih =>
      obtain ⟨hnew, hrest⟩ := List.nodup_cons.mp h
      rw [List.reverse_cons, List.find?_append, List.lookup_cons]
      by_cases hkey : entry.1 = key.toList
      · have hnone : rest.reverse.find? (fun entry => entry.1 == key.toList) = none := by
          refine List.find?_eq_none.mpr ?_
          intro other hother hsame
          have hsame : other.1 = key.toList := by simpa using hsame
          exact hnew (List.mem_map.mpr ⟨other, List.mem_reverse.mp hother, hsame.trans hkey.symm⟩)
        rw [hnone]
        simp [hkey]
      · have hlast : [entry].find? (fun entry => entry.1 == key.toList) = none := by
          simpa using hkey
        have hne : (key.toList == entry.1) = false := by simpa using Ne.symm hkey
        rw [hlast, Option.or_none, hne, ← ih hrest]

theorem trim_decimal (n : Nat) : trim (decimal n ++ ['\n']) = decimal n := by
  have hplain : ∀ text : List Char, (∀ c ∈ text, isWhitespace c = false) →
      text.dropWhile isWhitespace = text := by
    intro text htext
    cases text with
    | nil => rfl
    | cons c rest => simp [htext c List.mem_cons_self]
  have hdigits := (isWord_decimal n).2
  have hfront : (decimal n ++ ['\n']).dropWhile isWhitespace = decimal n ++ ['\n'] := by
    rw [List.dropWhile_append, hplain _ hdigits, if_neg]
    simpa using (isWord_decimal n).1
  have hback : (decimal n).reverse.dropWhile isWhitespace = (decimal n).reverse :=
    hplain _ fun c hc => hdigits c (List.mem_reverse.mp hc)
  have hbreak : ('\n' :: (decimal n).reverse).dropWhile isWhitespace = (decimal n).reverse := hback
  rw [trim, hfront, List.reverse_append, List.reverse_singleton, List.singleton_append, hbreak,
    List.reverse_reverse]

theorem field_flatKeyed (h : Keyed entries) (key : String) :
    field (flatKeyed entries) key = amount (some entries) key := by
  rw [field, parseFlatKeyed_flatKeyed h, get_eq_lookup h.nodup]
  rfl

theorem singleValue_decimal {files : Files} {file : String} {found : Option Nat}
    (hfile : files file = found.map fun n => decimal n ++ ['\n']) (h : ∀ n ∈ found, n < 2 ^ 64) :
    singleValue files file = found.getD 0 := by
  rw [singleValue, hfile]
  cases found with
  | none => rfl
  | some n =>
      simp only [Option.map_some, Option.bind_some, trim_decimal, parseU64_decimal (h n rfl)]

theorem memoryEvents_files {counters : Counters} (h : counters.Sound) :
    ((memoryEvents counters.files).getD ⟨0, 0, 0, 0, 0⟩).max = amount counters.memoryEvents "max" ∧
      ((memoryEvents counters.files).getD ⟨0, 0, 0, 0, 0⟩).oomKill =
        amount counters.memoryEvents "oom_kill" := by
  have hfile : counters.files "memory.events" = counters.memoryEvents.map flatKeyed := rfl
  rw [memoryEvents, hfile]
  cases hentries : counters.memoryEvents with
  | none => exact ⟨rfl, rfl⟩
  | some entries =>
      have hkeyed := h.memoryEvents entries hentries
      exact ⟨field_flatKeyed hkeyed "max", field_flatKeyed hkeyed "oom_kill"⟩

theorem cpuStat_files {counters : Counters} (h : counters.Sound) :
    (cpuStat counters.files).getD ⟨0, 0, 0, 0⟩ =
      { usageUsec := amount counters.cpuStat "usage_usec"
        nrPeriods := amount counters.cpuStat "nr_periods"
        nrThrottled := amount counters.cpuStat "nr_throttled"
        throttledUsec := amount counters.cpuStat "throttled_usec" } := by
  have hfile : counters.files "cpu.stat" = counters.cpuStat.map flatKeyed := rfl
  rw [cpuStat, hfile]
  cases hentries : counters.cpuStat with
  | none => rfl
  | some entries =>
      have hkeyed := h.cpuStat entries hentries
      simp only [Option.map_some, Option.getD_some, field_flatKeyed hkeyed]

theorem sample_files {counters : Counters} (h : counters.Sound) (id : String) :
    sample id counters.files = counters.event id := by
  obtain ⟨hmax, hkill⟩ := memoryEvents_files h
  rw [sample, Counters.event, cpuStat_files h]
  dsimp only
  rw [hmax, hkill, singleValue_decimal rfl h.memoryCurrent, singleValue_decimal rfl h.memoryPeak,
    singleValue_decimal rfl h.pidsCurrent]

end kernel

/-! ## Reading what was printed -/

structure Stats.InRange (stats : Stats) : Prop where
  usage : stats.usage < 2 ^ 64
  peak : stats.peak < 2 ^ 64
  limitEvents : stats.limitEvents < 2 ^ 64
  oomKill : stats.oomKill < 2 ^ 64
  usageUsec : stats.usageUsec < 2 ^ 64
  nrPeriods : stats.nrPeriods < 2 ^ 64
  nrThrottled : stats.nrThrottled < 2 ^ 64
  throttledUsec : stats.throttledUsec < 2 ^ 64
  current : stats.current < 2 ^ 64

theorem asCounter_counter {n : Nat} (h : n < 2 ^ 64) : asCounter (counter n) = some n := by
  have hrange : (0 : Int) ≤ (n : Int) ∧ (n : Int) < 2 ^ 64 := ⟨by omega, by exact_mod_cast h⟩
  rw [asCounter, counter, asInt_numeral hrange]
  rfl

theorem required_counter {members : List (String × Value)} {name : String} {n : Nat}
    (hmember : member members name = some (some (counter n))) (h : n < 2 ^ 64) :
    required asCounter members name = some n := by
  rw [required, hmember]
  exact asCounter_counter h

theorem Stats.ofMembers_members {stats : Stats} (h : stats.InRange) :
    Stats.ofMembers stats.members = some stats := by
  have hmemory : required asObject stats.members "memory" = some _ := rfl
  have hcpu : required asObject stats.members "cpu" = some _ := rfl
  have hpids : required asObject stats.members "pids" = some _ := rfl
  rw [Stats.ofMembers, hmemory, hcpu, hpids]
  simp only [Option.bind_eq_bind, Option.bind_some]
  rw [required_counter rfl h.usage, required_counter rfl h.peak, required_counter rfl h.limitEvents,
    required_counter rfl h.oomKill, required_counter rfl h.usageUsec,
    required_counter rfl h.nrPeriods, required_counter rfl h.nrThrottled,
    required_counter rfl h.throttledUsec, required_counter rfl h.current]
  rfl

theorem Event.read_value {event : Event} (h : ∀ stats ∈ event.data, stats.InRange) :
    Event.read event.value = some event := by
  obtain ⟨kind, id, data⟩ := event
  cases data with
  | none => rfl
  | some stats =>
      have hmember : member (Event.members ⟨kind, id, some stats⟩) "data" =
          some ((some stats).map fun stats => Value.object (Stats.members stats)) := rfl
      have hdata : optional (fun value => asObject value >>= Stats.ofMembers)
          (Event.members ⟨kind, id, some stats⟩) "data" = some (some stats) := by
        refine optional_map hmember ?_
        rintro _ ⟨⟩
        exact Stats.ofMembers_members (h stats rfl)
      rw [Event.value, Event.read, hdata]
      rfl

section stream
variable {writer : Writer Event}

theorem unbroken_texts (hwrites : writer.Writes Event.value) (events : List Event) :
    ∀ line ∈ texts writer events, Unbroken line := by
  induction events with
  | nil => simp [texts]
  | cons event rest ih =>
      rw [texts]
      split
      next => simp
      next text htext => exact List.forall_mem_cons.mpr ⟨hwrites.oneLine event text htext, ih⟩

/-- The stream is its events, a line to each. -/
theorem readStream_texts (hwrites : writer.Writes Event.value) (hsucceeds : writer.Succeeds)
    {events : List Event} (h : ∀ event ∈ events, ∀ stats ∈ event.data, stats.InRange) :
    readStream (joinLines (texts writer events)) = some events := by
  rw [readStream, lines_joinLines (unbroken_texts hwrites events)]
  induction events with
  | nil => rfl
  | cons event rest ih =>
      obtain ⟨hevent, hrest⟩ := List.forall_mem_cons.mp h
      obtain ⟨text, htext⟩ := Option.isSome_iff_exists.mp (hsucceeds event)
      have hparse := hwrites.compact event text htext
      have hline : (parse text.toList >>= Event.read) = some event := by
        rw [hparse]
        exact Event.read_value hevent
      rw [texts, htext, List.mapM_cons, hline, ih hrest]
      rfl

end stream

/-! ## Every run of the loop -/

/-- The counters as they are while the container is there, and then that it is gone. -/
def told (id : String) (looks : List (Status × Counters)) : List Event :=
  (looks.takeWhile fun look => look.1 ≠ .stopped).map (fun look => look.2.event id) ++
    if looks.any fun look => look.1 = .stopped then [gone id] else []

def look (found : Status × Counters) : Look where
  status := found.1
  files := found.2.files

theorem amount_lt {entries : Option (List (List Char × Nat))} (h : ∀ e ∈ entries, Keyed e)
    (key : String) : amount entries key < 2 ^ 64 := by
  unfold amount
  cases hlookup : (entries.getD []).lookup key.toList with
  | none => decide
  | some n =>
      obtain ⟨front, back, hsplit, -⟩ := List.lookup_eq_some_iff.mp hlookup
      have hmem : (key.toList, n) ∈ entries.getD [] := by
        rw [hsplit]
        simp
      cases entries with
      | none => cases hmem
      | some e => exact (h e rfl).fits _ hmem

theorem getD_lt {found : Option Nat} (h : ∀ n ∈ found, n < 2 ^ 64) : found.getD 0 < 2 ^ 64 := by
  cases found with
  | none => decide
  | some n => exact h n rfl

theorem event_inRange {counters : Counters} (h : counters.Sound) (id : String) :
    ∀ stats ∈ (counters.event id).data, stats.InRange := by
  rintro stats ⟨⟩
  exact ⟨getD_lt h.memoryCurrent, getD_lt h.memoryPeak, amount_lt h.memoryEvents _,
    amount_lt h.memoryEvents _, amount_lt h.cpuStat _, amount_lt h.cpuStat _,
    amount_lt h.cpuStat _, amount_lt h.cpuStat _, getD_lt h.pidsCurrent⟩

theorem watch_looks {looks : List (Status × Counters)} (h : ∀ found ∈ looks, found.2.Sound)
    (id : String) : watch id (looks.map look) = told id looks := by
  induction looks with
  | nil => rfl
  | cons found rest ih =>
      obtain ⟨hfound, hrest⟩ := List.forall_mem_cons.mp h
      rw [List.map_cons, watch, ih hrest]
      by_cases hstopped : found.1 = .stopped
      · simp [told, look, hstopped]
      · have htake : (found :: rest).takeWhile (fun look => look.1 ≠ .stopped) =
            found :: rest.takeWhile fun look => look.1 ≠ .stopped :=
          List.takeWhile_cons_of_pos (by simpa using hstopped)
        have hany : (found :: rest).any (fun look => look.1 = .stopped) =
            rest.any fun look => look.1 = .stopped := by
          rw [List.any_cons, decide_eq_false hstopped, Bool.false_or]
        rw [told, told, htake, hany, look, if_neg hstopped, sample_files hfound]
        rfl

theorem told_inRange {looks : List (Status × Counters)} (h : ∀ found ∈ looks, found.2.Sound)
    (id : String) : ∀ event ∈ told id looks, ∀ stats ∈ event.data, stats.InRange := by
  intro event hevent
  rcases List.mem_append.mp hevent with hevent | hevent
  · obtain ⟨found, hfound, rfl⟩ := List.mem_map.mp hevent
    exact event_inRange (h found ((List.takeWhile_sublist _).subset hfound)) id
  · split at hevent
    next =>
      obtain rfl := List.mem_singleton.mp hevent
      rintro stats ⟨⟩
    next => cases hevent

/-- Read line by line as JSON, the stream says at each look what the kernel counts, as long as
the container is there, and ends with its exit: whatever the container is called, however large
the counters are and whatever other counters stand in the files. -/
theorem stream_read {writer : Writer Event} (hwrites : writer.Writes Event.value)
    (hsucceeds : writer.Succeeds) {looks : List (Status × Counters)}
    (h : ∀ found ∈ looks, found.2.Sound) (id : String) :
    readStream (output writer id (looks.map look)) = some (told id looks) := by
  rw [output, watch_looks h]
  exact readStream_texts hwrites hsucceeds (told_inRange h id)

def busy : Counters where
  memoryCurrent := some 1048576
  memoryPeak := none
  pidsCurrent := some 3
  memoryEvents := some [("low".toList, 0), ("max".toList, 14), ("oom_kill".toList, 1)]
  cpuStat := none

theorem stream_read_busy :
    readStream (output (printer Event.value) "a\nb"
        ([(.running, busy), (.stopped, busy)].map look)) =
      some [busy.event "a\nb", gone "a\nb"] := by
  have hword : ∀ text : String, (text.toList ≠ [] ∧ text.toList.all fun c => !isWhitespace c) →
      IsWord text.toList := by
    rintro text ⟨hne, hall⟩
    refine ⟨hne, fun c hc => ?_⟩
    simpa using List.all_eq_true.mp hall c hc
  have hkeyed : Keyed [("low".toList, 0), ("max".toList, 14), ("oom_kill".toList, 1)] := by
    refine ⟨?_, by decide, by decide⟩
    simp only [List.forall_mem_cons]
    exact ⟨hword "low" (by decide), hword "max" (by decide), hword "oom_kill" (by decide),
      fun entry hentry => by cases hentry⟩
  have hsound : busy.Sound := by
    refine ⟨?_, ?_, ?_, ?_, ?_⟩
    · rintro n ⟨⟩
      decide
    · rintro n ⟨⟩
    · rintro n ⟨⟩
      decide
    · rintro entries ⟨⟩
      exact hkeyed
    · rintro entries ⟨⟩
  refine @stream_read _ (printer_writes _) (printer_succeeds _)
    [(.running, busy), (.stopped, busy)] ?_ "a\nb"
  intro found hfound
  simp only [List.mem_cons, List.not_mem_nil, or_false] at hfound
  rcases hfound with rfl | rfl <;> exact hsound

end Mars.EventStream
