import Mars.Core.JsonText
import Mars.Core.Transition
import Mars.Sync
import Mathlib.Data.String.Basic

/-! # The channel between the parties of a create

A message is written as one packet of JSON and read into a buffer of fixed size.
What a packet has beyond the buffer is gone.
-/

namespace Mars.Sync
open JsonText PrefixCode Transition

/-! ## Messages as JSON -/

def Phase.json (phase : Phase) : List Char :=
  "\x7b\"name\":".toList ++ (quoted phase.name ++ (",\"start_us\":".toList ++
    ((number phase.startUs ++ [',']) ++ ("\"end_us\":".toList ++ (number phase.endUs ++ ['\x7d'])))))

/-- The variants of a message. -/
inductive Variant where
  | requestUserMapping
  | userMappingDone
  | initPid
  | cgroupApplied
  | initReady
  | failed
  deriving DecidableEq

def Message.variant : Message → Variant
  | .requestUserMapping => .requestUserMapping
  | .userMappingDone => .userMappingDone
  | .initPid _ _ => .initPid
  | .cgroupApplied _ => .cgroupApplied
  | .initReady _ => .initReady
  | .failed _ => .failed

def Variant.head : Variant → List Char
  | .requestUserMapping => "\"RequestUserMapping\"".toList
  | .userMappingDone => "\"UserMappingDone\"".toList
  | .initPid => "\x7b\"InitPid\":[".toList
  | .cgroupApplied => "\x7b\"CgroupApplied\":".toList
  | .initReady => "\x7b\"InitReady\":".toList
  | .failed => "\x7b\"Failed\":".toList

def Message.body : Message → List Char
  | .requestUserMapping => []
  | .userMappingDone => []
  | .initPid pid phases => (integer pid ++ [',']) ++ (list Phase.json phases ++ "]\x7d".toList)
  | .cgroupApplied pid => integer pid ++ ['\x7d']
  | .initReady phases => list Phase.json phases ++ ['\x7d']
  | .failed reason => quoted reason ++ ['\x7d']

def Message.json (message : Message) : List Char := message.variant.head ++ message.body

def Message.toVec (message : Message) : ByteArray := (String.ofList message.json).toByteArray

/-- The reader of the same library: it gives back what was written, and nothing
for a text that breaks off. -/
structure Serde where
  fromSlice : ByteArray → Option Message
  roundTrip : ∀ m : Message, fromSlice m.toVec = some m
  broken : ∀ (m : Message) (n : Nat), n < m.toVec.size → fromSlice (m.toVec.extract 0 n) = none

/-! ## The channel -/

def MAX_MESSAGE : Nat := 16 * 1024

/-- `recv`, from the packet that is read. -/
def recv (serde : Serde) (packet : ByteArray) : Except Error Message :=
  let buf := packet.extract 0 MAX_MESSAGE
  if buf.size = 0 then .error .syncClosed
  else
    match serde.fromSlice buf with
    | some message => .ok message
    | none => .error .json

/-- One direction of a socket pair, with what was sent and what was received. -/
structure Wire where
  packets : List ByteArray
  sent : List Message
  received : List (Except Error Message)
  closed : Bool

inductive Event where
  | send (message : Message) (refused : Bool)
  | recv
  | close

/-- A send that is refused is not counted, nor is a receive at the end. -/
def wireStep (serde : Serde) (w : Wire) : Event → Option Wire
  | .send message refused =>
      if refused || w.closed then some w
      else some { w with packets := w.packets ++ [message.toVec], sent := w.sent ++ [message] }
  | .recv =>
      match w.packets with
      | packet :: rest =>
          some { w with packets := rest, received := w.received ++ [recv serde packet] }
      | [] => if w.closed then some w else none
  | .close => some { w with closed := true }

def pair : Wire where
  packets := []
  sent := []
  received := []
  closed := false

/-! ## Reading messages back -/

theorem reads_phase : Reads Phase.json id := by
  have hend : Reads (fun p : Phase => number p.endUs ++ ['\x7d']) Phase.endUs :=
    (reads_number rfl).comp Phase.endUs
  have hstart : Reads (fun p : Phase => number p.startUs ++ [',']) Phase.startUs :=
    (reads_number rfl).comp Phase.startUs
  have hname : Reads (fun p : Phase => quoted p.name) Phase.name := reads_quoted.comp Phase.name
  have hall := (reads_const "\x7b\"name\":".toList).append (hname.append
    ((reads_const ",\"start_us\":".toList).append (hstart.append
      ((reads_const "\"end_us\":".toList).append hend))))
  refine hall.of_key fun a b h => ?_
  cases a
  cases b
  simpa using h

theorem reads_phases : Reads (list Phase.json) id :=
  reads_list reads_phase fun p => ⟨'\x7b', _, rfl, by decide⟩

theorem reads_head : Reads Variant.head id := by
  apply reads_of_prefix
  intro a b h
  revert h
  cases a <;> cases b <;> decide +kernel

theorem reads_pidPhases : Reads (fun p : Int × List Phase =>
    (integer p.1 ++ [',']) ++ (list Phase.json p.2 ++ "]\x7d".toList)) id := by
  have hpid : Reads (fun p : Int × List Phase => integer p.1 ++ [',']) Prod.fst :=
    (reads_integer rfl (by decide)).comp Prod.fst
  have hphases : Reads (fun p : Int × List Phase => list Phase.json p.2) Prod.snd :=
    reads_phases.comp Prod.snd
  refine (hpid.append (hphases.append (reads_const "]\x7d".toList))).of_key fun a b h => ?_
  cases a
  cases b
  simpa using h

/-- A text with one more symbol to close it. -/
theorem reads_closed {α : Type} {text : α → List Char} (h : Reads text id) (stop : Char) :
    Reads (fun a => text a ++ [stop]) id :=
  (h.append (reads_const [stop])).of_key fun _ _ heq => congrArg Prod.fst heq

/-- A message ends where its text ends. -/
theorem reads_json : Reads Message.json id := by
  refine reads_head.tagged ?_
  intro a b s t hvariant h
  cases a with
  | requestUserMapping =>
      cases b <;> cases hvariant
      exact ⟨rfl, h⟩
  | userMappingDone =>
      cases b <;> cases hvariant
      exact ⟨rfl, h⟩
  | initPid pid phases =>
      cases b <;> cases hvariant
      obtain ⟨hsame, hrest⟩ := @reads_pidPhases (pid, phases) (_, _) _ _ h
      cases hsame
      exact ⟨rfl, hrest⟩
  | cgroupApplied pid =>
      cases b <;> cases hvariant
      obtain ⟨hsame, hrest⟩ := reads_integer rfl (by decide) h
      cases hsame
      exact ⟨rfl, hrest⟩
  | initReady phases =>
      cases b <;> cases hvariant
      obtain ⟨hsame, hrest⟩ := reads_closed reads_phases '\x7d' h
      cases hsame
      exact ⟨rfl, hrest⟩
  | failed reason =>
      cases b <;> cases hvariant
      obtain ⟨hsame, hrest⟩ := reads_closed reads_quoted '\x7d' h
      cases hsame
      exact ⟨rfl, hrest⟩

theorem toVec_eq (m : Message) : m.toVec = m.json.utf8Encode := String.toByteArray_ofList

/-- The packet of a message is not the beginning of another one's. -/
theorem eq_of_toVec_front {m m' : Message} {n : Nat} (hn : n ≤ m.toVec.size)
    (h : m'.toVec = m.toVec.extract 0 n) : m' = m := by
  have happend : m'.toVec ++ m.toVec.extract n m.toVec.size = m.toVec := by
    rw [h, ← ByteArray.extract_eq_extract_append_extract n (Nat.zero_le n) hn,
      ByteArray.extract_zero_size]
  rw [toVec_eq m', toVec_eq m] at happend
  exact reads_json.eq_of_front (List.isPrefix_of_utf8Encode_append_eq_utf8Encode _ happend)

theorem toVec_injective {m m' : Message} (h : m'.toVec = m.toVec) : m' = m :=
  eq_of_toVec_front (Nat.le_refl _) (by rw [ByteArray.extract_zero_size, h])

open Classical in
/-- The reader that knows nothing but what is written. -/
noncomputable def exactSerde : Serde where
  fromSlice := fun buf => if h : ∃ m : Message, m.toVec = buf then some h.choose else none
  roundTrip := by
    intro m
    have hm : ∃ m' : Message, m'.toVec = m.toVec := ⟨m, rfl⟩
    rw [dif_pos hm, toVec_injective hm.choose_spec]
  broken := by
    intro m n hn
    refine dif_neg ?_
    rintro ⟨m', hm'⟩
    have hsize : m'.toVec.size = n := by
      rw [hm', ByteArray.size_extract]
      omega
    rw [eq_of_toVec_front (Nat.le_of_lt hn) hm'] at hsize
    omega

/-! ## What is received -/

section received
variable {serde : Serde}

theorem toVec_size_pos (m : Message) : 0 < m.toVec.size := by
  have hne : m.json ≠ [] := by
    cases m <;> exact List.cons_ne_nil _ _
  rw [toVec_eq]
  refine Nat.pos_of_ne_zero fun hzero => hne ?_
  exact List.utf8Encode_eq_empty.mp (ByteArray.size_eq_zero_iff.mp hzero)

theorem buf_size_ne (m : Message) : (m.toVec.extract 0 MAX_MESSAGE).size ≠ 0 := by
  have hpos := toVec_size_pos m
  rw [ByteArray.size_extract]
  simp only [MAX_MESSAGE]
  omega

theorem recv_whole {m : Message} (h : m.toVec.size ≤ MAX_MESSAGE) :
    recv serde m.toVec = .ok m := by
  have hwhole : m.toVec.extract 0 MAX_MESSAGE = m.toVec := by
    have hall := ByteArray.extract_zero_max_size (a := m.toVec) (i := MAX_MESSAGE)
    rwa [Nat.max_eq_left h] at hall
  have hbuf := buf_size_ne m
  simp only [recv, if_neg hbuf]
  rw [hwhole, serde.roundTrip]

/-- What is left of a longer message is no JSON. -/
theorem recv_cut {m : Message} (h : MAX_MESSAGE < m.toVec.size) :
    recv serde m.toVec = .error .json := by
  simp only [recv, if_neg (buf_size_ne m)]
  rw [serde.broken m MAX_MESSAGE h]

/-- A message comes through exactly where it fits into the buffer. -/
theorem recv_eq_ok (m : Message) : recv serde m.toVec = .ok m ↔ m.toVec.size ≤ MAX_MESSAGE := by
  constructor
  · intro hok
    by_contra hlong
    rw [recv_cut (Nat.lt_of_not_le hlong)] at hok
    cases hok
  · exact recv_whole

/-- The packets that are left are those of the messages not received yet. -/
structure Held (serde : Serde) (w : Wire) : Prop where
  received : w.received = (w.sent.take w.received.length).map fun m => recv serde m.toVec
  packets : w.packets = (w.sent.drop w.received.length).map Message.toVec
  behind : w.received.length ≤ w.sent.length

theorem held_pair (serde : Serde) : Held serde pair := ⟨rfl, rfl, Nat.le_refl _⟩

theorem Held.step {w w' : Wire} {e : Event} (h : Held serde w)
    (hstep : wireStep serde w e = some w') :
    Held serde w' := by
  cases e with
  | send message refused =>
      simp only [wireStep] at hstep
      split at hstep
      next =>
        cases hstep
        exact h
      next =>
        cases hstep
        refine ⟨?_, ?_, ?_⟩
        · rw [List.take_append_of_le_length h.behind]
          exact h.received
        · rw [List.drop_append_of_le_length h.behind, List.map_append, ← h.packets]
          rfl
        · rw [List.length_append]
          exact Nat.le_add_right_of_le h.behind
  | recv =>
      simp only [wireStep] at hstep
      split at hstep
      next packet rest hpackets =>
        cases hstep
        have hdrop := h.packets
        rw [hpackets] at hdrop
        obtain ⟨m, later, hlater, hpacket, hrest⟩ := List.map_eq_cons_iff.mp hdrop.symm
        have hlt : w.received.length < w.sent.length := by
          by_contra hall
          rw [List.drop_eq_nil_of_le (Nat.le_of_not_lt hall)] at hlater
          cases hlater
        have hget : w.sent[w.received.length] = m := by
          rw [List.drop_eq_getElem_cons hlt] at hlater
          exact (List.cons.inj hlater).1
        refine ⟨?_, ?_, ?_⟩
        · simp only [List.length_append, List.length_singleton]
          rw [List.take_succ_eq_append_getElem hlt, List.map_append, ← h.received, hget, ← hpacket]
          rfl
        · simp only [List.length_append, List.length_singleton]
          rw [List.drop_eq_getElem_cons hlt] at hlater
          rw [(List.cons.inj hlater).2, ← hrest]
        · simp only [List.length_append, List.length_singleton]
          omega
      next =>
        split at hstep
        next =>
          cases hstep
          exact h
        next => cases hstep
  | close =>
      cases hstep
      exact ⟨h.received, h.packets, h.behind⟩

/-- In every run the message sent at some place is received at that place exactly
where it fits. -/
theorem received_iff {events : List Event} {w : Wire}
    (h : run (wireStep serde) pair events = some w) {i : Nat} {m : Message}
    {r : Except Error Message} (hsent : w.sent[i]? = some m) (hreceived : w.received[i]? = some r) :
    r = .ok m ↔ m.toVec.size ≤ MAX_MESSAGE := by
  have hheld : Held serde w := run_invariant (fun _ _ _ h => h.step) (held_pair serde) h
  have hlt : i < w.received.length := (List.getElem?_eq_some_iff.mp hreceived).1
  rw [hheld.received, List.getElem?_map, List.getElem?_take_of_lt hlt, hsent] at hreceived
  rw [← Option.some.inj hreceived]
  exact recv_eq_ok m

/-- A report takes at least thirteen bytes more than its reason has characters. -/
theorem failed_size (reason : String) :
    reason.toList.length + 13 ≤ (Message.failed reason).toVec.size := by
  have hbytes : ∀ chars : List Char, chars.length ≤ String.utf8Len chars := by
    intro chars
    induction chars with
    | nil => exact Nat.le_refl _
    | cons c rest ih =>
        have hc : 0 < c.utf8Size := Char.utf8Size_pos c
        rw [List.length_cons, String.utf8Len]
        omega
  have hjson : (Message.failed reason).toVec.size = String.utf8Len (Message.failed reason).json := by
    rw [Message.toVec, String.size_toByteArray, String.utf8ByteSize_ofList]
  have hhead : Variant.failed.head.length = 10 := by decide
  have hquoted := length_le_quoted reason
  have hall := hbytes (Message.failed reason).json
  rw [hjson]
  simp only [Message.json, Message.variant, Message.body, List.length_append, hhead,
    List.length_singleton] at hall ⊢
  omega

end received

end Mars.Sync
