import Mars.Core.UnixPath
import Mars.Error

/-! # The state directory and container ids -/

namespace Mars.Paths
open UnixPath

def STATE_FILE : String := "state.json"
def EXEC_FIFO : String := "exec.fifo"

structure Layout where
  root : String
  deriving DecidableEq

def Layout.containerDir (layout : Layout) (id : String) : String := join layout.root id

def Layout.stateFile (layout : Layout) (id : String) : String :=
  join (layout.containerDir id) STATE_FILE

def Layout.execFifo (layout : Layout) (id : String) : String :=
  join (layout.containerDir id) EXEC_FIFO

def idChar (c : Char) : Bool :=
  c.isAlphanum || c == '.' || c == '_' || c == '+' || c == '-'

def validateId (id : String) : Except Error Unit :=
  if id ≠ "" ∧ id ≠ "." ∧ id ≠ ".." ∧ id.toList.all idChar then .ok ()
  else .error (.invalidId id)

theorem validateId_ok {id : String} (h : validateId id = .ok ()) :
    id ≠ "" ∧ id ≠ "." ∧ id ≠ ".." ∧ id.toList.all idChar := by
  unfold validateId at h
  split at h
  next hid => exact hid
  next => cases h

/-- An accepted id names one entry of the state directory. -/
theorem plain_of_validateId {id : String} (h : validateId id = .ok ()) : Plain id := by
  obtain ⟨hne, hdot, hdots, hall⟩ := validateId_ok h
  refine ⟨hne, hdot, hdots, ?_⟩
  intro hslash
  have := List.all_eq_true.mp hall '/' hslash
  exact absurd this (by decide)

end Mars.Paths
