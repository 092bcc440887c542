import Mathlib.Data.List.Basic

/-! # A named pipe

A handle counts as a reader or a writer from the moment its open begins. The
open returns once it has met a handle of the other side, even if that one is
gone again by then. Removing the name leaves the handles as they are. What was
written and not read is lost when the last handle is closed.
-/

namespace NamedPipe

structure Pipe (H : Type) where
  linked : Bool
  readers : List H
  writers : List H
  met : List H
  buffer : List UInt8
  deriving DecidableEq

variable {H : Type}

/-- A pipe somebody has just made. -/
def Pipe.fresh : Pipe H := { linked := true, readers := [], writers := [], met := [], buffer := [] }

def Pipe.beginRead (p : Pipe H) (h : H) : Pipe H :=
  { p with
    readers := h :: p.readers
    met := (if p.writers = [] then [] else [h]) ++ p.writers ++ p.met }

def Pipe.beginWrite (p : Pipe H) (h : H) : Pipe H :=
  { p with
    writers := h :: p.writers
    met := (if p.readers = [] then [] else [h]) ++ p.readers ++ p.met }

/-- What a read finds: a byte, the end where no writer is left, or nothing yet. -/
inductive Found (H : Type) where
  | byte (value : UInt8) (rest : Pipe H)
  | eof
  | blocked

def Pipe.read (p : Pipe H) : Found H :=
  match p.buffer with
  | value :: rest => .byte value { p with buffer := rest }
  | [] => if p.writers = [] then .eof else .blocked

/-- Without a reader there is nobody to write to. -/
def Pipe.write (p : Pipe H) (value : UInt8) : Option (Pipe H) :=
  if p.readers = [] then none else some { p with buffer := p.buffer ++ [value] }

def Pipe.unlink (p : Pipe H) : Pipe H := { p with linked := false }

/-! ## What the operations leave in the buffer -/

theorem buffer_write {p p' : Pipe H} {value : UInt8} (h : p.write value = some p') :
    p'.buffer = p.buffer ++ [value] := by
  unfold Pipe.write at h
  split at h
  · cases h
  · rw [← Option.some.inj h]

theorem read_byte {p rest : Pipe H} {value : UInt8} (h : p.read = .byte value rest) :
    p.buffer = value :: rest.buffer := by
  unfold Pipe.read at h
  split at h
  next hbuffer =>
    cases h
    exact hbuffer
  next =>
    split at h <;> cases h

/-! ## Meetings -/

theorem mem_met_beginWrite {p : Pipe H} {h other : H} (hmet : other ∈ (p.beginWrite h).met) :
    other ∈ p.met ∨ p.readers ≠ [] := by
  simp only [Pipe.beginWrite, List.mem_append] at hmet
  rcases hmet with (hmet | hmet) | hmet
  · split at hmet
    · cases hmet
    · right
      assumption
  · exact Or.inr (List.ne_nil_of_mem hmet)
  · exact Or.inl hmet

/-! ## Closing -/

variable [DecidableEq H]

def Pipe.close (p : Pipe H) (h : H) : Pipe H :=
  let readers := p.readers.filter (· ≠ h)
  let writers := p.writers.filter (· ≠ h)
  { p with
    readers := readers
    writers := writers
    met := p.met.filter (· ≠ h)
    buffer := if readers = [] ∧ writers = [] then [] else p.buffer }

/-- Closing can only lose bytes. -/
theorem buffer_close_length (p : Pipe H) (h : H) :
    (p.close h).buffer.length ≤ p.buffer.length := by
  unfold Pipe.close
  dsimp only
  split
  · exact Nat.zero_le _
  · exact Nat.le_refl _

theorem mem_met_close {p : Pipe H} {h other : H} (hmet : other ∈ (p.close h).met) :
    other ∈ p.met := (List.mem_filter.mp hmet).1

end NamedPipe
