import Mathlib.Data.List.Sort
import Mars.Core.Flags
import Mars.Error
import Mars.Spec

/-! # Namespaces to create and to join -/

namespace Mars.Namespace
open Spec

abbrev CloneFlags := BitVec 32

def CLONE_NEWTIME : CloneFlags := .twoPow 32 7
def CLONE_NEWNS : CloneFlags := .twoPow 32 17
def CLONE_NEWCGROUP : CloneFlags := .twoPow 32 25
def CLONE_NEWUTS : CloneFlags := .twoPow 32 26
def CLONE_NEWIPC : CloneFlags := .twoPow 32 27
def CLONE_NEWUSER : CloneFlags := .twoPow 32 28
def CLONE_NEWPID : CloneFlags := .twoPow 32 29
def CLONE_NEWNET : CloneFlags := .twoPow 32 30

def contains (flags flag : CloneFlags) : Bool := flags &&& flag == flag

def flagFor : LinuxNamespaceType → CloneFlags
  | .mount => CLONE_NEWNS
  | .pid => CLONE_NEWPID
  | .network => CLONE_NEWNET
  | .ipc => CLONE_NEWIPC
  | .uts => CLONE_NEWUTS
  | .user => CLONE_NEWUSER
  | .cgroup => CLONE_NEWCGROUP
  | .time => CLONE_NEWTIME

def debugType : LinuxNamespaceType → String
  | .mount => "Mount"
  | .pid => "Pid"
  | .network => "Network"
  | .ipc => "Ipc"
  | .uts => "Uts"
  | .user => "User"
  | .cgroup => "Cgroup"
  | .time => "Time"

def JOIN_ORDER : List LinuxNamespaceType :=
  [.user, .ipc, .uts, .network, .pid, .cgroup, .mount]

structure Layout where
  create : CloneFlags
  join : List (LinuxNamespaceType × String)
  deriving DecidableEq

/-- The position in `JOIN_ORDER`; a type that is not listed goes last. -/
def joinRank (kind : LinuxNamespaceType) : Nat := JOIN_ORDER.idxOf kind

def layoutStep (pathExists : String → Bool) (layout : Layout) (ns : LinuxNamespace) :
    Except Error Layout :=
  match ns.path with
  | some path =>
      if path = "" then .ok { layout with create := layout.create ||| flagFor ns.typ }
      else if pathExists path then .ok { layout with join := layout.join ++ [(ns.typ, path)] }
      else .error (.invalid ("namespace " ++ debugType ns.typ ++ " points at " ++ path ++
        ", which does not exist"))
  | none => .ok { layout with create := layout.create ||| flagFor ns.typ }

def layout (pathExists : String → Bool) (namespaces : List LinuxNamespace) :
    Except Error Layout := do
  let found ← namespaces.foldlM (layoutStep pathExists) { create := 0, join := [] }
  pure { found with join := found.join.insertionSort fun a b => joinRank a.1 ≤ joinRank b.1 }

def insertType (seen : List LinuxNamespaceType) (ns : LinuxNamespace) :
    Except Error (List LinuxNamespaceType) :=
  if ns.typ ∈ seen then
    .error (.invalid ("namespace type " ++ debugType ns.typ ++ " is listed more than once"))
  else .ok (ns.typ :: seen)

/-- The check that no type is listed twice. -/
def namespaceTypes (namespaces : List LinuxNamespace) : Except Error (List LinuxNamespaceType) :=
  namespaces.foldlM insertType []

def without (flags unwanted : CloneFlags) : CloneFlags := flags &&& ~~~unwanted

/-! ## The flag of each type -/

def bitFor : LinuxNamespaceType → Nat
  | .mount => 17
  | .pid => 29
  | .network => 30
  | .ipc => 27
  | .uts => 26
  | .user => 28
  | .cgroup => 25
  | .time => 7

theorem flagFor_eq (kind : LinuxNamespaceType) : flagFor kind = .twoPow 32 (bitFor kind) := by
  cases kind <;> rfl

theorem bitFor_lt (kind : LinuxNamespaceType) : bitFor kind < 32 := by
  cases kind <;> decide

theorem contains_flagFor (flags : CloneFlags) (kind : LinuxNamespaceType) :
    contains flags (flagFor kind) = flags.getLsbD (bitFor kind) := by
  rw [flagFor_eq]
  exact Flags.and_twoPow_beq flags (bitFor_lt kind)

theorem getLsbD_flagFor (kind other : LinuxNamespaceType) :
    (flagFor other).getLsbD (bitFor kind) = decide (kind = other) := by
  cases kind <;> cases other <;> rfl

theorem contains_or (flags : CloneFlags) (kind other : LinuxNamespaceType) :
    contains (flags ||| flagFor other) (flagFor kind) =
      (contains flags (flagFor kind) || decide (kind = other)) := by
  rw [contains_flagFor, contains_flagFor, BitVec.getLsbD_or, getLsbD_flagFor]

theorem contains_without (flags : CloneFlags) (kind other : LinuxNamespaceType) :
    contains (without flags (flagFor other)) (flagFor kind) =
      (contains flags (flagFor kind) && !decide (kind = other)) := by
  rw [contains_flagFor, contains_flagFor, without, BitVec.getLsbD_and, BitVec.getLsbD_not,
    getLsbD_flagFor]
  simp [bitFor_lt]

end Mars.Namespace
