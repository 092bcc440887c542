import Mars.State.StatLine

/-! # Liveness against the process table

The kernel writes one line per process: the pid, the command name in
parentheses, the state letter and the numeric fields. Only the name is not
text of the kernel's own. Reading it back loses two things: a name that is
not UTF-8 makes the whole line unreadable, and the state letter is skipped.
-/

namespace Mars.State
open Text

inductive ProcState where
  | running
  | sleeping
  | diskSleep
  | stopped
  | tracing
  | zombie
  | dead
  | parked
  | idle
  deriving DecidableEq

def ProcState.letter : ProcState → Char
  | .running => 'R'
  | .sleeping => 'S'
  | .diskSleep => 'D'
  | .stopped => 'T'
  | .tracing => 't'
  | .zombie => 'Z'
  | .dead => 'X'
  | .parked => 'P'
  | .idle => 'I'

/-- Exited, and at most waiting to be reaped. -/
def ProcState.exited (state : ProcState) : Prop := state = .zombie ∨ state = .dead

/-- A process as `/proc/<pid>/stat` shows it. `before` are the fields 4 to 21. -/
structure Proc where
  comm : ByteArray
  state : ProcState
  before : List Int
  startTime : Nat
  after : List Int
  commLen : comm.size ≤ 15
  beforeLen : before.length = 18
  startTimeFits : startTime < 2 ^ 64

def Proc.words (p : Proc) : List (List Char) :=
  [p.state.letter] :: p.before.map decimalInt ++ decimal p.startTime :: p.after.map decimalInt

/-- The text after the closing parenthesis of the name. -/
def Proc.tail (p : Proc) : List Char := p.words.flatMap (' ' :: ·) ++ ['\n']

def Proc.stat (pid : Int) (p : Proc) : ByteArray :=
  (String.ofList (decimalInt pid ++ [' ', '('])).toByteArray ++ p.comm ++
    (String.ofList (')' :: p.tail)).toByteArray

abbrev Table := Int → Option Proc

/-- The host whose processes are those of the table. -/
def Table.host (table : Table) : Host where
  stat := fun pid => (table pid).map (Proc.stat pid)
  cgroupFile := fun _ => none
  pathExists := fun _ => false

/-- The recorded process is in the table and has not exited. -/
def Container.Lives (container : Container) (table : Table) : Prop :=
  ∃ p, table container.state.pid = some p ∧ p.startTime = container.state.startTime ∧
    ¬ p.state.exited

/-! ## The line is read back field by field -/

theorem Proc.words_isWord (p : Proc) : ∀ w ∈ p.words, IsWord w := by
  intro w hw
  simp only [words, List.cons_append, List.mem_cons, List.mem_append, List.mem_map] at hw
  rcases hw with rfl | ⟨i, -, rfl⟩ | rfl | ⟨i, -, rfl⟩
  · refine ⟨by simp, ?_⟩
    intro c hc
    obtain rfl : c = p.state.letter := by simpa using hc
    cases p.state <;> decide
  · exact isWord_decimalInt i
  · exact isWord_decimal p.startTime
  · exact isWord_decimalInt i

theorem Proc.paren_not_mem_words (p : Proc) : ∀ w ∈ p.words, ')' ∉ w := by
  intro w hw
  simp only [words, List.cons_append, List.mem_cons, List.mem_append, List.mem_map] at hw
  rcases hw with rfl | ⟨i, -, rfl⟩ | rfl | ⟨i, -, rfl⟩
  · cases p.state <;> decide
  · exact paren_not_mem_decimalInt i
  · exact paren_not_mem_decimalInt (.ofNat p.startTime)
  · exact paren_not_mem_decimalInt i

theorem Proc.words_start (p : Proc) : p.words[19]? = some (decimal p.startTime) := by
  have hlen : (p.before.map decimalInt).length = 18 := by simp [p.beforeLen]
  simp only [words, List.cons_append, List.getElem?_cons_succ]
  rw [List.getElem?_append_right (by omega), hlen]
  rfl

/-- Whatever the name holds, the start time is field 22. -/
theorem parseStartTime_line (front : List Char) (p : Proc) :
    parseStartTime (front ++ ')' :: p.tail) = some p.startTime := by
  rw [Proc.tail, parseStartTime_words front p.words_isWord p.paren_not_mem_words
    (List.all_eq_true.mp rfl), p.words_start, Option.bind_some, parseU64_decimal p.startTimeFits]

theorem Proc.fromUTF8_stat (pid : Int) (p : Proc) (text : String)
    (htext : p.comm = text.toByteArray) :
    String.fromUTF8? (p.stat pid) =
      some (String.ofList (decimalInt pid ++ [' ', '('] ++ text.toList ++ ')' :: p.tail)) := by
  have hbytes : p.stat pid =
      (String.ofList (decimalInt pid ++ [' ', '('] ++ text.toList ++ ')' :: p.tail)).toByteArray := by
    rw [stat, htext, ← String.toByteArray_append, ← String.toByteArray_append]
    refine congrArg String.toByteArray (String.toList_inj.mp ?_)
    simp
  have hvalid : (p.stat pid).IsValidUTF8 := by rw [hbytes]; exact String.isValidUTF8 _
  rw [String.fromUTF8?, dif_pos hvalid]
  congr 1
  apply String.toByteArray_inj.mp
  exact hbytes

theorem Proc.fromUTF8_stat_none (pid : Int) (p : Proc) (h : ¬ p.comm.IsValidUTF8) :
    String.fromUTF8? (p.stat pid) = none := by
  have hinvalid : ¬ (p.stat pid).IsValidUTF8 := by
    rw [stat, isValidUTF8_framed]
    exact h
  rw [String.fromUTF8?, dif_neg hinvalid]

theorem startTime_of_valid {table : Table} {pid : Int} {p : Proc} (hp : table pid = some p)
    (hvalid : p.comm.IsValidUTF8) : startTime table.host pid = .ok p.startTime := by
  have hread := p.fromUTF8_stat pid (String.fromUTF8 p.comm hvalid) rfl
  simp only [startTime, Table.host, hp, Option.map_some, Option.bind_some, hread]
  rw [String.toList_ofList, parseStartTime_line]

theorem startTime_of_invalid {table : Table} {pid : Int} {p : Proc} (hp : table pid = some p)
    (hvalid : ¬ p.comm.IsValidUTF8) : ∃ error, startTime table.host pid = .error error := by
  simp only [startTime, Table.host, hp, Option.map_some, Option.bind_some,
    p.fromUTF8_stat_none pid hvalid]
  exact ⟨_, rfl⟩

/-- The bit the status hangs on, in terms of the table. -/
theorem Container.alive_iff (container : Container) (table : Table) :
    container.alive table.host = true ↔
      ∃ p, table container.state.pid = some p ∧ p.startTime = container.state.startTime ∧
        p.comm.IsValidUTF8 := by
  cases hp : table container.state.pid with
  | none => simp [alive, startTime, Table.host, hp]
  | some p =>
      by_cases hvalid : p.comm.IsValidUTF8
      · simp [alive, startTime_of_valid hp hvalid, hvalid]
      · obtain ⟨error, herror⟩ := startTime_of_invalid hp hvalid
        simp [alive, herror, hvalid]

/-- Liveness is exact exactly when the process found, if it is the recorded
one, has a readable name and lives or has an unreadable name and is gone. -/
theorem alive_exact_iff (container : Container) (table : Table) :
    (container.alive table.host = true ↔ container.Lives table) ↔
      ∀ p, table container.state.pid = some p → p.startTime = container.state.startTime →
        (p.comm.IsValidUTF8 ↔ ¬ p.state.exited) := by
  rw [container.alive_iff table]
  unfold Container.Lives
  constructor
  · intro hexact p hp hstart
    constructor
    · intro hvalid
      obtain ⟨q, hq, -, hlives⟩ := hexact.mp ⟨p, hp, hstart, hvalid⟩
      obtain rfl : p = q := by simpa [hp] using hq
      exact hlives
    · intro hlives
      obtain ⟨q, hq, -, hvalid⟩ := hexact.mpr ⟨p, hp, hstart, hlives⟩
      obtain rfl : p = q := by simpa [hp] using hq
      exact hvalid
  · intro hcond
    constructor
    · intro h
      obtain ⟨p, hp, hstart, hvalid⟩ := h
      exact ⟨p, hp, hstart, (hcond p hp hstart).mp hvalid⟩
    · intro h
      obtain ⟨p, hp, hstart, hlives⟩ := h
      exact ⟨p, hp, hstart, (hcond p hp hstart).mpr hlives⟩

/-! ## A renamed process and an unreaped one -/

theorem length_zeros : (List.replicate 18 (0 : Int)).length = 18 := rfl

/-- Process 7, with a name of the process's own choice. -/
def demoTable (comm : ByteArray) (h : comm.size ≤ 15) (state : ProcState) : Table := fun pid =>
  if pid = 7 then
    some { comm, state, before := List.replicate 18 0, startTime := 555, after := [],
           commLen := h, beforeLen := length_zeros, startTimeFits := by decide }
  else none

def demoContainer : Container where
  layout := ⟨"/run/mars"⟩
  state := { ociVersion := "1.0.2", id := "demo", pid := 7, startTime := 555, bundle := "/b",
             rootfs := "/b/rootfs", cgroup := "mars/demo", created := "", rootless := false,
             annotations := [] }

theorem not_isValidUTF8_ff : ¬ (ByteArray.mk #[0xff]).IsValidUTF8 := by
  intro h
  exact absurd (h.isUTF8FirstByte_getElem_zero (by decide)) (by decide)

theorem alive_wrong_for_renamed_and_unreaped :
    (demoContainer.Lives (demoTable ⟨#[0xff]⟩ (by decide) .sleeping) ∧
      demoContainer.alive (demoTable ⟨#[0xff]⟩ (by decide) .sleeping).host = false) ∧
    (¬ demoContainer.Lives (demoTable "sh".toByteArray (by decide) .zombie) ∧
      demoContainer.alive (demoTable "sh".toByteArray (by decide) .zombie).host = true) := by
  refine ⟨⟨⟨_, rfl, rfl, by simp [ProcState.exited]⟩, ?_⟩, ?_, ?_⟩
  · rw [Bool.eq_false_iff]
    intro halive
    obtain ⟨p, hp, -, hvalid⟩ := (Container.alive_iff _ _).mp halive
    obtain rfl := Option.some.inj hp
    exact not_isValidUTF8_ff hvalid
  · intro hlives
    obtain ⟨p, hp, -, hstate⟩ := hlives
    obtain rfl := Option.some.inj hp
    exact hstate (Or.inl rfl)
  · exact (Container.alive_iff _ _).mpr ⟨_, rfl, rfl, "sh".isValidUTF8⟩

end Mars.State
