import Mars.Core.BoundedPipe
import Mars.Core.Transition
import Mars.Durations
import Mars.Spec

/-! # One hook and its pipes

The runtime writes the state to a hook's standard input, closes it and waits for
the hook to exit. It has pipes for the hook's output too, and reads neither. A timeout
too long for the clock makes it panic once the input is closed.
-/

namespace Mars.HookPipes
open Spec BoundedPipe Transition Durations

/-! ## The hook -/

inductive Output where
  | stdout
  | stderr
  deriving DecidableEq

/-- What a hook does with its pipes, a byte at a time. -/
inductive Op where
  | read
  | readToEnd
  | closeStdin
  | write (stream : Output) (byte : UInt8)
  deriving DecidableEq

inductive ExitStatus where
  | exited (code : Fin 256)
  | signaled (shown : String)
  deriving DecidableEq

-- the instance behind the literal of a status
local instance neZero : @NeZero Nat Zero.ofOfNat0 256 := ⟨by decide⟩

def ExitStatus.success (status : ExitStatus) : Bool := status = .exited 0

def ExitStatus.display : ExitStatus → String
  | .exited code => "exit status: " ++ toString code.val
  | .signaled shown => "signal: " ++ shown

/-- The hook's operations up to its exit, with the capacities of its pipes. `now` is
what the clock says when its input has been written. -/
structure Setup where
  hook : Hook
  now : Instant
  ops : List Op
  status : ExitStatus
  stdin : Nat
  output : Output → Nat
  room : 0 < stdin

/-! ## The runtime's side -/

inductive ErrorKind where
  | brokenPipe
  | other
  deriving DecidableEq

inductive Pc where
  | writing (rest : List UInt8)
  | waiting (deadline : Option Instant)
  | panicked
  | returned (result : Except Error Unit)

/-- The deadline is set once the input is closed. -/
def await (c : Setup) : Pc :=
  match deadline c.hook.timeout c.now with
  | some deadline => .waiting deadline
  | none => .panicked

/-- After `write_all`. -/
def wrote (c : Setup) : Except ErrorKind Unit → Pc
  | .ok () => await c
  | .error .brokenPipe => await c
  | .error .other => .returned (.error (.io "write the container state to the hook's stdin"))

def timedOut (hook : Hook) : Error :=
  .invalid ("timed out after " ++ toString (hook.timeout.getD 0).toInt ++ "s")

def verdict (status : ExitStatus) : Except Error Unit :=
  if status.success then .ok () else .error (.invalid ("exited with " ++ status.display))

/-! ## Both together -/

structure World (c : Setup) where
  stdin : Pipe c.stdin
  outputs : (stream : Output) → Pipe (c.output stream)
  ops : List Op
  exited : Bool
  pc : Pc

def start (c : Setup) (payload : List UInt8) : World c where
  stdin := .fresh c.stdin
  outputs := fun stream => .fresh (c.output stream)
  ops := c.ops
  exited := false
  pc := .writing payload

inductive Event where
  | write
  | wait
  | poll
  | expire
  | act
  | exit
  deriving DecidableEq

variable {c : Setup}

/-- The hook's next byte has no room. -/
def World.heldUp (w : World c) : Bool :=
  match w.ops with
  | .write stream _ :: _ =>
      (w.outputs stream).reader && (w.outputs stream).bytes.length == c.output stream
  | _ => false

/-- The input is closed. A runtime that panics is gone, with its ends of the other pipes. -/
def World.settle (w : World c) (pc : Pc) : World c :=
  { w with
    stdin := w.stdin.closeWriter
    outputs :=
      match pc with
      | .panicked => fun stream => (w.outputs stream).closeReader
      | _ => w.outputs
    pc }

def World.write (w : World c) : List UInt8 → Option (World c)
  | [] => some (w.settle (wrote c (.ok ())))
  | byte :: rest =>
      match w.stdin.write byte with
      | .done stdin => some { w with stdin, pc := .writing rest }
      | .broken => some (w.settle (wrote c (.error .brokenPipe)))
      | .blocked => none

def World.act (w : World c) : Option (World c) :=
  match w.ops with
  | [] => none
  | .read :: rest =>
      match w.stdin.read with
      | .byte _ stdin => some { w with stdin, ops := rest }
      | .finished => some { w with ops := rest }
      | .blocked => none
  | .readToEnd :: rest =>
      match w.stdin.read with
      | .byte _ stdin => some { w with stdin }
      | .finished => some { w with ops := rest }
      | .blocked => none
  | .closeStdin :: rest => some { w with stdin := w.stdin.closeReader, ops := rest }
  | .write stream byte :: rest =>
      match (w.outputs stream).write byte with
      | .done p => some { w with outputs := Function.update w.outputs stream p, ops := rest }
      | .broken => some { w with ops := rest }
      | .blocked => none

/-- A hook that nothing holds up is done before the deadline. -/
def step (w : World c) : Event → Option (World c)
  | .write =>
      match w.pc with
      | .writing rest => w.write rest
      | _ => none
  | .wait =>
      match w.pc, w.exited with
      | .waiting _, true => some { w with pc := .returned (verdict c.status) }
      | _, _ => none
  | .poll =>
      match w.pc, w.exited with
      | .waiting (some _), false => some w
      | _, _ => none
  | .expire =>
      match w.pc, w.exited with
      | .waiting (some _), false =>
          if w.heldUp then
            some { w with
              stdin := w.stdin.closeReader
              exited := true
              pc := .returned (.error (timedOut c.hook)) }
          else none
      | _, _ => none
  | .act => if w.exited then none else w.act
  | .exit =>
      match w.exited, w.ops with
      | false, [] => some { w with stdin := w.stdin.closeReader, exited := true }
      | _, _ => none

/-! ## Waiting for each other -/

/-- The runtime cannot go on before the hook has done something. -/
def RuntimeWaits (w : World c) : Prop :=
  match w.pc with
  | .writing [] => False
  | .writing (byte :: _) => w.stdin.write byte = .blocked
  | .waiting _ => w.exited = false
  | .panicked => False
  | .returned _ => False

/-- The hook cannot go on before the runtime has read or written something. -/
def HookWaits (w : World c) : Prop :=
  w.exited = false ∧
    match w.ops with
    | .read :: _ => w.stdin.read = .blocked
    | .readToEnd :: _ => w.stdin.read = .blocked
    | .write stream byte :: _ => (w.outputs stream).write byte = .blocked
    | _ => False

def Deadlocked (w : World c) : Prop := RuntimeWaits w ∧ HookWaits w

/-- `one` returns, and what it returns is the verdict on the hook's status. -/
structure VerdictByStatus (c : Setup) (payload : List UInt8) : Prop where
  verdict : ∀ events w, run step (start c payload) events = some w → ∀ result,
    w.pc = .returned result → (result = .ok () ↔ c.status.success = true)
  never : ∀ events w, run step (start c payload) events = some w → ¬Deadlocked w
  goes : ∀ events w, run step (start c payload) events = some w →
    (∀ result, w.pc ≠ .returned result) → ∃ e ≠ Event.poll, (step w e).isSome = true
  ends : ∃ bound, ∀ events w, run step (start c payload) events = some w →
    (events.filter (· ≠ .poll)).length ≤ bound

def Op.writes (stream : Output) : Op → Bool
  | .write other _ => other == stream
  | _ => false

/-- How much the hook writes to a stream. -/
def written (stream : Output) (ops : List Op) : Nat := ops.countP (·.writes stream)

/-! ## What one step does -/

section steps
variable {w w' : World c} {rest : List UInt8}

@[simp] theorem written_nil (stream : Output) : written stream [] = 0 := rfl

theorem written_cons (stream : Output) (op : Op) (ops : List Op) :
    written stream (op :: ops) = written stream ops + if op.writes stream then 1 else 0 :=
  List.countP_cons

/-- One byte less to write, or the input is closed and the deadline is set. -/
theorem write_spec (h : w.write rest = some w') :
    w'.ops = w.ops ∧ w'.exited = w.exited ∧ w'.stdin.reader = w.stdin.reader ∧
      (w' = w.settle (await c) ∨
        ∃ byte later, rest = byte :: later ∧ w'.pc = .writing later ∧ w'.outputs = w.outputs ∧
          w'.stdin.bytes = w.stdin.bytes ++ [byte]) := by
  cases rest with
  | nil =>
      cases h
      exact ⟨rfl, rfl, rfl, .inl rfl⟩
  | cons byte later =>
      simp only [World.write] at h
      split at h
      next stdin hwrite =>
        cases h
        obtain ⟨hbytes, hreader, -⟩ := write_done hwrite
        exact ⟨rfl, rfl, hreader, .inr ⟨byte, later, rfl, rfl, rfl, hbytes⟩⟩
      next =>
        cases h
        exact ⟨rfl, rfl, rfl, .inl rfl⟩
      next => cases h

/-- The runtime goes on to wait exactly where the deadline is an instant. -/
theorem await_cases (c : Setup) :
    (∃ d, deadline c.hook.timeout c.now = some d ∧ await c = .waiting d) ∨
      deadline c.hook.timeout c.now = none ∧ await c = .panicked := by
  unfold await
  cases hdeadline : deadline c.hook.timeout c.now with
  | none => exact .inr ⟨rfl, rfl⟩
  | some d => exact .inl ⟨d, rfl, rfl⟩

theorem settle_waiting {d : Option Instant} (h : await c = .waiting d) :
    w.settle (await c) = { w with stdin := w.stdin.closeWriter, pc := .waiting d } := by
  rw [h]
  rfl

theorem write_not_returned (h : w.write rest = some w') (result : Except Error Unit) :
    w'.pc ≠ .returned result := by
  intro heq
  obtain ⟨-, -, -, rfl | ⟨byte, later, -, hwriting, -⟩⟩ := write_spec h
  · have hpc : await c = .returned result := heq
    rcases await_cases c with ⟨d, -, hwaiting⟩ | ⟨-, hpanicked⟩
    · cases hwaiting.symm.trans hpc
    · cases hpanicked.symm.trans hpc
  · cases hwriting.symm.trans heq

/-- What the hook leaves of its operations, and the pipes after one of them. -/
structure Acted (w w' : World c) : Prop where
  pc : w'.pc = w.pc
  exited : w'.exited = w.exited
  writer : w'.stdin.writer = w.stdin.writer
  outputs : (∀ stream, (w.outputs stream).reader = true) → ∀ stream,
    (w'.outputs stream).reader = true ∧
      (w'.outputs stream).bytes.length + written stream w'.ops =
        (w.outputs stream).bytes.length + written stream w.ops
  less : w'.stdin.bytes.length + w'.ops.length < w.stdin.bytes.length + w.ops.length

theorem acted_read {op : Op} {ops later : List Op} {stdin : Pipe c.stdin} (hops : w.ops = op :: ops)
    (hop : ∀ stream, op.writes stream = false) (hlater : later = ops ∨ later = op :: ops)
    (hwriter : stdin.writer = w.stdin.writer)
    (hless : stdin.bytes.length + later.length < w.stdin.bytes.length + w.ops.length) :
    Acted w { w with stdin, ops := later } := by
  refine ⟨rfl, rfl, hwriter, fun hopen stream => ⟨hopen stream, ?_⟩, hless⟩
  rcases hlater with rfl | rfl
  · simp [hops, written_cons, hop]
  · simp [hops]

theorem act_spec (h : w.act = some w') : Acted w w' := by
  unfold World.act at h
  split at h
  next => cases h
  next ops hops =>
    split at h
    next byte stdin hread =>
      cases h
      obtain ⟨hbytes, -, hwriter⟩ := read_byte hread
      refine acted_read hops (fun _ => rfl) (.inl rfl) hwriter ?_
      rw [hbytes, hops, List.length_cons, List.length_cons]
      omega
    next =>
      cases h
      refine acted_read hops (fun _ => rfl) (.inl rfl) rfl ?_
      rw [hops, List.length_cons]
      omega
    next => cases h
  next ops hops =>
    split at h
    next byte stdin hread =>
      cases h
      obtain ⟨hbytes, -, hwriter⟩ := read_byte hread
      refine acted_read hops (fun _ => rfl) (.inr hops) hwriter ?_
      rw [hbytes, List.length_cons]
      omega
    next =>
      cases h
      refine acted_read hops (fun _ => rfl) (.inl rfl) rfl ?_
      rw [hops, List.length_cons]
      omega
    next => cases h
  next ops hops =>
    cases h
    refine acted_read hops (fun _ => rfl) (.inl rfl) rfl ?_
    rw [hops, List.length_cons]
    exact Nat.lt_succ_self _
  next stream byte ops hops =>
    split at h
    next p hwrite =>
      cases h
      obtain ⟨hbytes, hreader, -⟩ := write_done hwrite
      refine ⟨rfl, rfl, rfl, fun hopen other => ?_, by simp [hops]⟩
      by_cases hother : other = stream
      · subst hother
        have hone : (Op.write other byte).writes other = true := by simp [Op.writes]
        simp only [Function.update_self]
        rw [hreader, hbytes, hops, written_cons, if_pos hone, List.length_append]
        exact ⟨hopen other, by simp; omega⟩
      · have hnone : (Op.write stream byte).writes other = false := by
          simpa [Op.writes] using Ne.symm hother
        simp only [Function.update_of_ne hother]
        rw [hops, written_cons, hnone]
        exact ⟨hopen other, rfl⟩
    next hwrite =>
      cases h
      refine ⟨rfl, rfl, rfl, fun hopen other => ?_, by simp [hops]⟩
      -- the runtime has its end open as long as it has not returned
      unfold Pipe.write at hwrite
      rw [if_neg (by simp [hopen stream])] at hwrite
      split at hwrite <;> cases hwrite
    next => cases h

end steps

/-! ## The bytes that nobody reads -/

structure Inv (w : World c) : Prop where
  counted : w.pc ≠ .panicked → ∀ stream,
    (w.outputs stream).bytes.length + written stream w.ops = written stream c.ops
  reading : w.pc ≠ .panicked → ∀ stream, (w.outputs stream).reader = true
  due : (∀ rest, w.pc ≠ .writing rest) →
    (w.pc = .panicked ↔ deadline c.hook.timeout c.now = none)
  closed : (∀ rest, w.pc ≠ .writing rest) → w.stdin.writer = false
  gone : w.exited = true → w.stdin.reader = false
  finished : w.exited = true → (∀ result, w.pc ≠ .returned result) → w.ops = []

theorem inv_start (payload : List UInt8) : Inv (start c payload) where
  counted := fun _ _ => Nat.zero_add _
  reading := fun _ _ => rfl
  due := fun h => absurd rfl (h payload)
  closed := fun h => absurd rfl (h payload)
  gone := nofun
  finished := nofun

/-- What one step is, where it happens. -/
inductive Stepped (w : World c) : Event → World c → Prop
  | write {rest : List UInt8} {w' : World c} (hpc : w.pc = .writing rest)
      (h : w.write rest = some w') : Stepped w .write w'
  | wait {d : Option Instant} (hpc : w.pc = .waiting d) (h : w.exited = true) :
      Stepped w .wait { w with pc := .returned (verdict c.status) }
  | poll {d : Option Instant} (hpc : w.pc = .waiting d) : Stepped w .poll w
  | expire {d : Option Instant} (hpc : w.pc = .waiting d) (h : w.exited = false)
      (hheld : w.heldUp = true) :
      Stepped w .expire { w with
        stdin := w.stdin.closeReader
        exited := true
        pc := .returned (.error (timedOut c.hook)) }
  | act {w' : World c} (h : w.exited = false) (hact : w.act = some w') : Stepped w .act w'
  | exit (h : w.exited = false) (hops : w.ops = []) :
      Stepped w .exit { w with stdin := w.stdin.closeReader, exited := true }

section invariant
variable {w w' : World c} {rest : List UInt8} {e : Event}

/-- Where the deadline is an instant the runtime waits, elsewhere it is gone. -/
theorem Inv.settle (h : Inv w) (hpc : w.pc = .writing rest) : Inv (w.settle (await c)) := by
  have hrunning : w.pc ≠ .panicked := by
    rw [hpc]
    nofun
  have hreturned : ∀ result, w.pc ≠ .returned result := by
    rw [hpc]
    nofun
  have hfinished : w.exited = true → w.ops = [] := fun hgone => h.finished hgone hreturned
  rcases await_cases c with ⟨d, hdeadline, hwaiting⟩ | ⟨hdeadline, hpanicked⟩
  · rw [settle_waiting hwaiting]
    refine ⟨fun _ => h.counted hrunning, fun _ => h.reading hrunning, fun _ => ?_,
      fun _ => rfl, h.gone, fun hgone _ => hfinished hgone⟩
    rw [hdeadline]
    exact iff_of_false nofun nofun
  · rw [hpanicked]
    exact ⟨fun hne => absurd rfl hne, fun hne => absurd rfl hne, fun _ => iff_of_true rfl hdeadline,
      fun _ => rfl, h.gone, fun hgone _ => hfinished hgone⟩

theorem Inv.write (h : Inv w) (hpc : w.pc = .writing rest) (hwrite : w.write rest = some w') :
    Inv w' := by
  obtain ⟨hops, hexited, hreader, rfl | ⟨byte, later, -, hwriting, houtputs, -⟩⟩ := write_spec hwrite
  · exact h.settle hpc
  · have hrunning : w.pc ≠ .panicked := by
      rw [hpc]
      nofun
    have hreturned : ∀ result, w.pc ≠ .returned result := by
      rw [hpc]
      nofun
    exact ⟨fun _ => houtputs ▸ hops ▸ h.counted hrunning, fun _ => houtputs ▸ h.reading hrunning,
      fun hleft => absurd hwriting (hleft later), fun hleft => absurd hwriting (hleft later),
      fun hgone => hreader.trans (h.gone (hexited ▸ hgone)),
      fun hgone _ => hops.trans (h.finished (hexited ▸ hgone) hreturned)⟩

theorem Inv.act (h : Inv w) (hexited : w.exited = false) (hact : w.act = some w') : Inv w' := by
  have hacted := act_spec hact
  have hgoing : w'.exited ≠ true := by
    rw [hacted.exited, hexited]
    nofun
  have houtputs : w'.pc ≠ .panicked → ∀ stream, (w'.outputs stream).reader = true ∧
      (w'.outputs stream).bytes.length + written stream w'.ops =
        (w.outputs stream).bytes.length + written stream w.ops := by
    rw [hacted.pc]
    exact fun hrunning => hacted.outputs (h.reading hrunning)
  refine ⟨fun hrunning stream => ?_, fun hrunning stream => (houtputs hrunning stream).1,
    hacted.pc ▸ h.due, fun hleft => ?_, fun hgone => absurd hgone hgoing,
    fun hgone => absurd hgone hgoing⟩
  · exact ((houtputs hrunning stream).2).trans (h.counted (hacted.pc ▸ hrunning) stream)
  · rw [hacted.writer]
    exact h.closed (hacted.pc ▸ hleft)

/-- What holds of a runtime that waits holds of one that has come back. -/
theorem Inv.returned {d : Option Instant} (h : Inv w) (hpc : w.pc = .waiting d)
    (result : Except Error Unit) {stdin : Pipe c.stdin} (hwriter : stdin.writer = w.stdin.writer)
    (hgone : stdin.reader = false) :
    Inv { w with stdin, exited := true, pc := .returned result } := by
  have hrunning : w.pc ≠ .panicked := by
    rw [hpc]
    nofun
  have hwrote : ∀ rest, w.pc ≠ .writing rest := by
    rw [hpc]
    nofun
  have hdue : deadline c.hook.timeout c.now ≠ none := fun hnone =>
    hrunning ((h.due hwrote).mpr hnone)
  exact ⟨fun _ => h.counted hrunning, fun _ => h.reading hrunning,
    fun _ => iff_of_false nofun hdue, fun _ => hwriter.trans (h.closed hwrote), fun _ => hgone,
    fun _ hreturned => absurd rfl (hreturned result)⟩

theorem step_stepped (h : step w e = some w') : Stepped w e w' := by
  cases e with
  | write =>
      simp only [step] at h
      split at h
      next rest hpc => exact .write hpc h
      next => cases h
  | wait =>
      simp only [step] at h
      split at h
      next d hpc hexited =>
        cases h
        exact .wait hpc hexited
      next => cases h
  | poll =>
      simp only [step] at h
      split at h
      next d hpc _ =>
        cases h
        exact .poll hpc
      next => cases h
  | expire =>
      simp only [step] at h
      split at h
      next d hpc hexited =>
        split at h
        next hheld =>
          cases h
          exact .expire hpc hexited hheld
        next => cases h
      next => cases h
  | act =>
      simp only [step] at h
      split at h
      next => cases h
      next hexited => exact .act (by simpa using hexited) h
  | exit =>
      simp only [step] at h
      split at h
      next hexited hops =>
        cases h
        exact .exit hexited hops
      next => cases h

theorem Inv.step (h : Inv w) (hstep : HookPipes.step w e = some w') : Inv w' := by
  cases step_stepped hstep with
  | write hpc hwrite => exact h.write hpc hwrite
  | wait hpc hexited =>
      have hreturned := h.returned hpc (verdict c.status) rfl (h.gone hexited)
      rwa [← hexited] at hreturned
  | poll => exact h
  | expire hpc hexited hheld => exact h.returned hpc (.error (timedOut c.hook)) rfl rfl
  | act hexited hact => exact h.act hexited hact
  | exit hexited hops =>
      exact ⟨h.counted, h.reading, h.due, h.closed, fun _ => rfl, fun _ _ => hops⟩

theorem heldUp_iff : w.heldUp = true ↔
    ∃ stream byte rest, w.ops = .write stream byte :: rest ∧
      (w.outputs stream).write byte = .blocked := by
  unfold World.heldUp
  split
  next stream byte rest hops =>
    simp only [Bool.and_eq_true, beq_iff_eq]
    constructor
    · rintro ⟨hreader, hfull⟩
      exact ⟨stream, byte, rest, hops, write_blocked.mpr ⟨hreader, hfull⟩⟩
    · rintro ⟨stream', byte', rest', hops', hblocked⟩
      rw [hops] at hops'
      cases hops'
      exact write_blocked.mp hblocked
  next hother =>
    refine iff_of_false nofun ?_
    rintro ⟨stream, byte, rest, hops, -⟩
    exact hother stream byte rest hops

theorem Inv.running (h : Inv w) (hdue : deadline c.hook.timeout c.now ≠ none) :
    w.pc ≠ .panicked := by
  intro hpc
  have hwrote : ∀ rest, w.pc ≠ .writing rest := by
    rw [hpc]
    nofun
  exact hdue ((h.due hwrote).mp hpc)

/-- With room for all that the hook writes, no write of it waits. -/
theorem Inv.not_blocked (h : Inv w) (hrunning : w.pc ≠ .panicked)
    (hroom : ∀ stream, written stream c.ops ≤ c.output stream)
    {stream : Output} {byte : UInt8} {rest : List Op} (hops : w.ops = .write stream byte :: rest) :
    (w.outputs stream).write byte ≠ .blocked := by
  intro hblocked
  have hone : (Op.write stream byte).writes stream = true := by simp [Op.writes]
  have hcounted := h.counted hrunning stream
  rw [hops, written_cons, if_pos hone, (write_blocked.mp hblocked).2] at hcounted
  have hfits := hroom stream
  omega

/-- Input holds neither up for ever: the two wait for each other only where the
hook's output has no room. -/
theorem Inv.deadlocked (h : Inv w) (hdead : Deadlocked w) : w.heldUp = true := by
  obtain ⟨hruntime, hexited, hhook⟩ := hdead
  have hread : w.stdin.read ≠ .blocked := by
    intro hblocked
    obtain ⟨hreader, hempty, hwriter⟩ := read_blocked.mp hblocked
    unfold RuntimeWaits at hruntime
    split at hruntime
    next => exact hruntime
    next =>
      have hfull := (write_blocked.mp hruntime).2
      rw [hempty] at hfull
      exact absurd hfull (Nat.ne_of_lt c.room)
    next hpc =>
      rw [h.closed fun rest heq => by rw [hpc] at heq; cases heq] at hwriter
      cases hwriter
    next => exact hruntime
    next => exact hruntime
  split at hhook
  next => exact absurd hhook hread
  next => exact absurd hhook hread
  next stream byte rest hops => exact heldUp_iff.mpr ⟨stream, byte, rest, hops, hhook⟩
  next => exact hhook.elim

end invariant

/-! ## Going on -/

def Pc.weight : Pc → Nat
  | .writing rest => 2 * rest.length + 2
  | .waiting _ => 1
  | .panicked => 0
  | .returned _ => 0

/-- What is left to do. -/
def World.weight (w : World c) : Nat :=
  w.pc.weight + w.stdin.bytes.length + w.ops.length + if w.exited then 0 else 1

section progress
variable {w w' : World c} {rest : List UInt8} {e : Event}

theorem weight_write (hpc : w.pc = .writing rest) (h : w.write rest = some w') :
    w'.weight < w.weight := by
  obtain ⟨hops, hexited, -, rfl | ⟨byte, later, rfl, hwriting, -, hbytes⟩⟩ := write_spec h <;>
    simp only [World.weight, hops, hexited, hpc]
  · have hsettled : (await c).weight ≤ 1 := by
      rcases await_cases c with ⟨d, -, hwaiting⟩ | ⟨-, hpanicked⟩
      · rw [hwaiting]
        exact Nat.le_refl 1
      · rw [hpanicked]
        exact Nat.zero_le 1
    have hwriting : (Pc.writing rest).weight = 2 * rest.length + 2 := rfl
    rw [hwriting]
    simp only [World.settle, Pipe.closeWriter]
    omega
  · simp only [hwriting, hbytes, Pc.weight, List.length_append, List.length_cons, List.length_nil]
    omega

/-- Every step but another look at a hook that still runs leaves less to do. -/
theorem weight_step (he : e ≠ .poll) (h : step w e = some w') : w'.weight < w.weight := by
  cases step_stepped h with
  | write hpc hwrite => exact weight_write hpc hwrite
  | wait hpc hexited =>
      simp only [World.weight, Pc.weight, hpc]
      omega
  | poll => exact absurd rfl he
  | expire hpc hexited hheld =>
      simp only [World.weight, Pc.weight, hpc, hexited, Pipe.closeReader, if_true,
        Bool.false_eq_true, if_false]
      omega
  | act hexited hact =>
      have hacted := act_spec hact
      have hless := hacted.less
      simp only [World.weight, hacted.pc, hacted.exited]
      omega
  | exit hexited hops =>
      simp only [World.weight, hexited, Pipe.closeReader, if_true, Bool.false_eq_true, if_false]
      omega

theorem weight_poll (he : ¬e ≠ .poll) (h : step w e = some w') : w'.weight ≤ w.weight := by
  obtain rfl := not_not.mp he
  cases step_stepped h with
  | poll => exact Nat.le_refl _

theorem write_enabled (hpc : w.pc = .writing rest) (h : ¬RuntimeWaits w) :
    (step w .write).isSome = true := by
  simp only [step, hpc]
  cases rest with
  | nil => rfl
  | cons byte later =>
      have hblocked : w.stdin.write byte ≠ .blocked := by simpa [RuntimeWaits, hpc] using h
      simp only [World.write]
      split
      next => rfl
      next => rfl
      next heq => exact absurd heq hblocked

theorem hook_enabled (hexited : w.exited = false) (h : ¬HookWaits w) :
    (step w .act).isSome = true ∨ (step w .exit).isSome = true := by
  cases hops : w.ops with
  | nil =>
      right
      simp [step, hexited, hops]
  | cons op rest =>
      left
      simp only [step, hexited, World.act, hops]
      cases op with
      | read =>
          have hread : w.stdin.read ≠ .blocked := by simpa [HookWaits, hexited, hops] using h
          cases hfound : w.stdin.read <;> simp_all
      | readToEnd =>
          have hread : w.stdin.read ≠ .blocked := by simpa [HookWaits, hexited, hops] using h
          cases hfound : w.stdin.read <;> simp_all
      | closeStdin => rfl
      | write stream byte =>
          have hwrite : (w.outputs stream).write byte ≠ .blocked := by
            simpa [HookWaits, hexited, hops] using h
          cases hfound : (w.outputs stream).write byte <;> simp_all

/-- Until the runtime has returned one of the two can go on, unless it has panicked or
they wait for each other. -/
theorem Inv.goes (h : Inv w) (hthere : w.pc ≠ .panicked)
    (hrunning : ∀ result, w.pc ≠ .returned result) (hdead : ¬Deadlocked w) :
    ∃ e ≠ Event.poll, (HookPipes.step w e).isSome = true := by
  cases hexited : w.exited with
  | true =>
      cases hpc : w.pc with
      | writing rest =>
          refine ⟨.write, nofun, write_enabled hpc fun hwaits => ?_⟩
          have hclosed := h.gone hexited
          unfold RuntimeWaits at hwaits
          rw [hpc] at hwaits
          cases rest with
          | nil => exact hwaits
          | cons byte later =>
              rw [(write_blocked.mp hwaits).1] at hclosed
              cases hclosed
      | waiting d => exact ⟨.wait, nofun, by simp [HookPipes.step, hpc, hexited]⟩
      | panicked => exact absurd hpc hthere
      | returned result => exact absurd hpc (hrunning result)
  | false =>
      by_cases hhook : HookWaits w
      · have hruntime : ¬RuntimeWaits w := fun hwaits => hdead ⟨hwaits, hhook⟩
        cases hpc : w.pc with
        | writing rest => exact ⟨.write, nofun, write_enabled hpc hruntime⟩
        | waiting d => exact absurd (by simpa [RuntimeWaits, hpc] using hexited) hruntime
        | panicked => exact absurd hpc hthere
        | returned result => exact absurd hpc (hrunning result)
      · rcases hook_enabled hexited hhook with hact | hexit
        · exact ⟨.act, nofun, hact⟩
        · exact ⟨.exit, nofun, hexit⟩

end progress

/-! ## Exactly when the verdict is the status -/

section verdicts
variable {payload : List UInt8}

theorem verdict_eq_ok (status : ExitStatus) : verdict status = .ok () ↔ status.success = true := by
  unfold verdict
  split
  next h => simp [h]
  next h => simp [h]

/-- Where the output has room the runtime returns its verdict. -/
structure Judged (w : World c) : Prop where
  inv : Inv w
  judged : ∀ result, w.pc = .returned result → result = verdict c.status

theorem Judged.step (hroom : ∀ stream, written stream c.ops ≤ c.output stream)
    {w w' : World c} {e : Event} (h : Judged w) (hstep : HookPipes.step w e = some w') :
    Judged w' := by
  refine ⟨h.inv.step hstep, fun result hresult => ?_⟩
  cases step_stepped hstep with
  | write hpc hwrite => exact absurd hresult (write_not_returned hwrite result)
  | wait hpc hexited =>
      cases hresult
      rfl
  | poll hpc => exact h.judged result hresult
  | expire hpc hexited hheld =>
      obtain ⟨stream, byte, rest, hops, hblocked⟩ := heldUp_iff.mp hheld
      have hrunning : w.pc ≠ .panicked := by
        rw [hpc]
        nofun
      exact absurd hblocked (h.inv.not_blocked hrunning hroom hops)
  | act hexited hact => exact h.judged result ((act_spec hact).pc ▸ hresult)
  | exit hexited hops => exact h.judged result hresult

theorem verdictByStatus_of_room (hroom : ∀ stream, written stream c.ops ≤ c.output stream)
    (hdue : deadline c.hook.timeout c.now ≠ none) : VerdictByStatus c payload := by
  have hjudged : ∀ events w, run step (start c payload) events = some w → Judged w :=
    fun events w hrun => run_invariant (fun w e w' h => h.step hroom)
      ⟨inv_start payload, nofun⟩ hrun
  have hnever : ∀ events w, run step (start c payload) events = some w → ¬Deadlocked w := by
    intro events w hrun hdead
    have hinv := (hjudged events w hrun).inv
    obtain ⟨stream, byte, rest, hops, hblocked⟩ := heldUp_iff.mp (hinv.deadlocked hdead)
    exact hinv.not_blocked (hinv.running hdue) hroom hops hblocked
  refine ⟨?_, hnever, ?_, (start c payload).weight, ?_⟩
  · intro events w hrun result hresult
    rw [(hjudged events w hrun).judged result hresult]
    exact verdict_eq_ok c.status
  · intro events w hrun hrunning
    have hinv := (hjudged events w hrun).inv
    exact hinv.goes (hinv.running hdue) hrunning (hnever events w hrun)
  · intro events w hrun
    have hcount := counted_le (fun _ _ _ he h => weight_step he h)
      (fun _ _ _ he h => weight_poll he h) hrun
    omega

/-- Where the two never wait for each other, the runtime returns after the whole
of the hook's operations. -/
structure Finished (payload : List UInt8) (w : World c) : Prop where
  reached : ∃ events, run step (start c payload) events = some w
  inv : Inv w
  finished : ∀ result, w.pc = .returned result → w.ops = []

theorem Finished.step (hnever : ∀ events w, run step (start c payload) events = some w →
    ¬Deadlocked w) {w w' : World c} {e : Event} (h : Finished payload w)
    (hstep : HookPipes.step w e = some w') : Finished payload w' := by
  obtain ⟨events, hrun⟩ := h.reached
  refine ⟨⟨events ++ [e], run_snoc hrun hstep⟩, h.inv.step hstep, fun result hresult => ?_⟩
  cases step_stepped hstep with
  | write hpc hwrite => exact absurd hresult (write_not_returned hwrite result)
  | wait hpc hexited =>
      exact h.inv.finished hexited fun result heq => by rw [hpc] at heq; cases heq
  | poll hpc => exact h.finished result hresult
  | expire hpc hexited hheld =>
      obtain ⟨stream, byte, rest, hops, hblocked⟩ := heldUp_iff.mp hheld
      refine absurd ⟨?_, hexited, ?_⟩ (hnever events w hrun)
      · simpa [RuntimeWaits, hpc] using hexited
      · simpa only [hops] using hblocked
  | act hexited hact =>
      have hops := h.finished result ((act_spec hact).pc ▸ hresult)
      simp [World.act, hops] at hact
  | exit hexited hops => exact hops

/-- Some run ends with a result. -/
theorem returned_of_verdictByStatus (h : VerdictByStatus c payload) :
    ∃ (w : World c) (result : Except Error Unit),
      Finished payload w ∧ w.pc = .returned result := by
  have hless : ∀ (w : World c) e w', e ≠ Event.poll → step w e = some w' → w'.weight < w.weight :=
    fun _ _ _ he hstep => weight_step he hstep
  obtain ⟨events, w, hrun, hstuck⟩ := exists_stuck hless (start c payload)
  have hfinished : Finished payload w :=
    run_invariant (fun w e w' hw => hw.step h.never) ⟨⟨[], rfl⟩, inv_start payload, nofun⟩ hrun
  by_contra hnone
  have hrunning : ∀ result, w.pc ≠ .returned result :=
    fun result hpc => hnone ⟨w, result, hfinished, hpc⟩
  obtain ⟨e, he, hsome⟩ := h.goes events w hrun hrunning
  rw [hstuck e he] at hsome
  cases hsome

theorem room_of_verdictByStatus (h : VerdictByStatus c payload) :
    (∀ stream, written stream c.ops ≤ c.output stream) ∧
      deadline c.hook.timeout c.now ≠ none := by
  obtain ⟨w, result, hfinished, hpc⟩ := returned_of_verdictByStatus h
  have hrunning : w.pc ≠ .panicked := by
    rw [hpc]
    nofun
  have hwrote : ∀ rest, w.pc ≠ .writing rest := by
    rw [hpc]
    nofun
  refine ⟨fun stream => ?_, fun hnone => hrunning ((hfinished.inv.due hwrote).mpr hnone)⟩
  have hcounted := hfinished.inv.counted hrunning stream
  rw [hfinished.finished result hpc, written_nil] at hcounted
  have hbound := (w.outputs stream).bounded
  omega

end verdicts

/-- `one` returns with the verdict on the exit status, whatever the hook reads,
exactly where each stream of its output fits into its pipe and its deadline can be
written in seconds of 64 bits. -/
theorem verdictByStatus_iff (c : Setup) (payload : List UInt8) :
    VerdictByStatus c payload ↔
      (∀ stream, written stream c.ops ≤ c.output stream) ∧
        ∀ seconds, c.hook.timeout = some seconds → 0 < seconds →
          c.now.tvSec.toInt + seconds.toInt < 2 ^ 63 := by
  rw [← deadline_ne_none]
  exact ⟨room_of_verdictByStatus, fun h => verdictByStatus_of_room h.1 h.2⟩

/-- A hook that prints some lines and succeeds. -/
def chatty (bytes : Nat) : Setup where
  hook := { path := "/bin/hook", args := none, env := none, timeout := none }
  now := ⟨0, 0⟩
  ops := List.replicate bytes (.write .stdout 10)
  status := .exited 0
  stdin := 65536
  output := fun _ => 65536
  room := by decide

theorem written_replicate (stream : Output) (byte : UInt8) (bytes : Nat) :
    written stream (List.replicate bytes (.write stream byte)) = bytes := by
  rw [written, List.countP_replicate, if_pos (by simp [Op.writes])]

/-- One byte more than the pipe holds, and the two wait for each other. -/
theorem chatty_hangs : ¬VerdictByStatus (chatty 65537) [] := by
  intro h
  have hroom : written .stdout (chatty 65537).ops ≤ 65536 := (room_of_verdictByStatus h).1 .stdout
  have hall : written .stdout (chatty 65537).ops = 65537 := written_replicate .stdout 10 65537
  rw [hall] at hroom
  exact absurd hroom (by decide)

end Mars.HookPipes
