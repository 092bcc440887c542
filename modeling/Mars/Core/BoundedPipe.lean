import Mathlib.Data.List.Basic

/-! # A pipe of finite capacity

A writer waits while the pipe is full and fails once the reader is closed. A
reader waits while the pipe is empty and finds the end once the writer is closed.
-/

namespace BoundedPipe

structure Pipe (capacity : Nat) where
  bytes : List UInt8
  bounded : bytes.length ≤ capacity
  reader : Bool
  writer : Bool
  deriving DecidableEq

variable {capacity : Nat}

/-- An empty pipe, open at both ends. -/
def Pipe.fresh (capacity : Nat) : Pipe capacity where
  bytes := []
  bounded := Nat.zero_le capacity
  reader := true
  writer := true

def Pipe.closeReader (p : Pipe capacity) : Pipe capacity := { p with reader := false }

def Pipe.closeWriter (p : Pipe capacity) : Pipe capacity := { p with writer := false }

inductive Written (capacity : Nat) where
  | done (p : Pipe capacity)
  | blocked
  | broken

def Pipe.write (p : Pipe capacity) (byte : UInt8) : Written capacity :=
  if p.reader = false then .broken
  else if h : p.bytes.length < capacity then
    .done { p with
      bytes := p.bytes ++ [byte]
      bounded := by rw [List.length_append]; exact h }
  else .blocked

/-- `finished` also where the reader has closed its own end. -/
inductive Found (capacity : Nat) where
  | byte (value : UInt8) (p : Pipe capacity)
  | blocked
  | finished

def Pipe.read (p : Pipe capacity) : Found capacity :=
  if p.reader = false then .finished
  else
    match h : p.bytes with
    | value :: rest =>
        .byte value { p with
          bytes := rest
          bounded := Nat.le_trans (by rw [h]; exact Nat.le_succ _) p.bounded }
    | [] => if p.writer then .blocked else .finished

/-! ## What the operations say -/

variable {p q : Pipe capacity} {byte : UInt8}

theorem write_done (h : p.write byte = .done q) :
    q.bytes = p.bytes ++ [byte] ∧ q.reader = p.reader ∧ q.writer = p.writer := by
  unfold Pipe.write at h
  split at h
  next => cases h
  next =>
    split at h
    next =>
      cases h
      exact ⟨rfl, rfl, rfl⟩
    next => cases h

theorem write_blocked : p.write byte = .blocked ↔ p.reader = true ∧ p.bytes.length = capacity := by
  unfold Pipe.write
  split
  next h => simp [h]
  next h =>
    have hbound := p.bounded
    split
    next hroom => exact iff_of_false nofun fun hfull => absurd hfull.2 (Nat.ne_of_lt hroom)
    next hfull => exact iff_of_true rfl ⟨by simpa using h, by omega⟩

theorem read_byte (h : p.read = .byte byte q) :
    p.bytes = byte :: q.bytes ∧ q.reader = p.reader ∧ q.writer = p.writer := by
  unfold Pipe.read at h
  split at h
  next => cases h
  next =>
    split at h
    next hbytes =>
      cases h
      exact ⟨hbytes, rfl, rfl⟩
    next =>
      split at h <;> cases h

theorem read_blocked :
    p.read = .blocked ↔ p.reader = true ∧ p.bytes = [] ∧ p.writer = true := by
  unfold Pipe.read
  split
  next h => simp [h]
  next h =>
    split
    next hbytes => simp [hbytes]
    next hbytes =>
      have hopen : p.reader = true := by simpa using h
      cases hwriter : p.writer <;> simp [hopen, hbytes]

end BoundedPipe
