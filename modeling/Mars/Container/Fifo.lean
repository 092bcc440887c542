import Mars.Core.NamedPipe
import Mars.Core.Transition
import Mars.Error

/-! # The exec fifo: `park` in init, `release` in whoever starts it

Init parks by opening the fifo for writing, which waits for a reader, and
writes one byte. A caller releases it by opening the fifo for reading, reading
that byte and removing the name. Callers, init and their deaths interleave
freely; every step of a caller or of init may also fail.
-/

namespace Mars.Fifo
open NamedPipe

def HANDSHAKE : UInt8 := 0x30

/-- Where a call stands. `start` enters at the status check, the release inside
`run` at the existence check. -/
inductive Point where
  | requireCreated
  | checkExists
  | openFifo
  | opening
  | reading
  | removing
  | poststart
  | ok
  | failed (error : Error)
  | died
  deriving DecidableEq

inductive InitPoint where
  | openFifo
  | opening
  | writing
  | closing
  | startContainer
  | unblock
  | execve
  | program
  | dead
  deriving DecidableEq

/-- The parties share the pipe. Init's handle is `none`, a caller's its own name.
The last four fields are the history the results speak of. -/
structure World (ι : Type) where
  id : String
  path : String
  pipe : Pipe (Option ι)
  init : InitPoint
  caller : ι → Point
  wrote : Bool
  opened : List ι
  executed : Nat
  poststarts : List ι

inductive Event (ι : Type) where
  | call (caller : ι)
  | callFails (caller : ι) (error : Error)
  | callerDies (caller : ι)
  | init
  | initFails
  | initDies

variable {ι : Type} [DecidableEq ι]

def World.setCaller (w : World ι) (i : ι) (point : Point) : World ι :=
  { w with caller := Function.update w.caller i point }

/-- A call that ends early drops its reader. -/
def World.drop (w : World ι) (i : ι) (point : Point) : World ι :=
  { w.setCaller i point with pipe := w.pipe.close (some i) }

def World.fail (w : World ι) (i : ι) (error : Error) : World ι := w.drop i (.failed error)

def World.initExit (w : World ι) : World ι :=
  { w with init := .dead, pipe := w.pipe.close none }

/-! ## The steps of a call -/

def goneError (path : String) : Error :=
  .invalid (path ++ " is gone, so the container was already started")

def closedError : Error :=
  .initFailed ("the container init closed the exec fifo without writing; it died between " ++
    "create and start")

def unexpectedError (byte : UInt8) : Error :=
  .sync ("unexpected byte " ++ toString byte ++ " on the exec fifo")

def callStep (w : World ι) (i : ι) : Option (World ι) :=
  match w.caller i with
  -- a dead init may still read as alive until it is reaped, and every other
  -- refusal of the status check is a call that fails
  | .requireCreated =>
      if w.pipe.linked then some (w.setCaller i .checkExists)
      else some (w.fail i (.badState w.id "running" "created"))
  | .checkExists =>
      if w.pipe.linked then some (w.setCaller i .openFifo)
      else some (w.fail i (goneError w.path))
  | .openFifo =>
      if w.pipe.linked then
        some { w.setCaller i .opening with
          pipe := w.pipe.beginRead (some i)
          opened := i :: w.opened }
      else some (w.fail i (.nix ("open the exec fifo " ++ w.path ++ " to start the container")))
  | .opening => if some i ∈ w.pipe.met then some (w.setCaller i .reading) else none
  | .reading =>
      match w.pipe.read with
      | .byte value rest =>
          if value = HANDSHAKE then some { w.setCaller i .removing with pipe := rest }
          else some (World.fail { w with pipe := rest } i (unexpectedError value))
      | .eof => some (w.fail i closedError)
      | .blocked => none
  | .removing =>
      -- the reader is dropped when `release` returns
      if w.pipe.linked then
        some { w.setCaller i .poststart with pipe := w.pipe.unlink.close (some i) }
      else some (w.fail i (.io ("remove " ++ w.path ++ " so start cannot run twice")))
  | .poststart => some { w.setCaller i .ok with poststarts := i :: w.poststarts }
  | .ok => none
  | .failed _ => none
  | .died => none

/-! ## The steps of init -/

def initStep (w : World ι) : Option (World ι) :=
  match w.init with
  | .openFifo => some { w with init := .opening, pipe := w.pipe.beginWrite none }
  | .opening => if none ∈ w.pipe.met then some { w with init := .writing } else none
  | .writing =>
      match w.pipe.write HANDSHAKE with
      | some pipe => some { w with init := .closing, pipe := pipe, wrote := true }
      | none => some w.initExit
  | .closing => some { w with init := .startContainer, pipe := w.pipe.close none }
  | .startContainer => some { w with init := .unblock }
  | .unblock => some { w with init := .execve }
  | .execve => some { w with init := .program, executed := w.executed + 1 }
  | .program => none
  | .dead => none

/-- A call is over, well or not. -/
def Point.over : Point → Bool
  | .ok => true
  | .failed _ => true
  | .died => true
  | _ => false

def step (w : World ι) : Event ι → Option (World ι)
  | .call i => callStep w i
  | .callFails i error => if (w.caller i).over then none else some (w.fail i error)
  | .callerDies i => if (w.caller i).over then none else some (w.drop i .died)
  | .init => initStep w
  | .initFails =>
      if w.init = .program ∨ w.init = .dead then none else some w.initExit
  | .initDies => if w.init = .dead then none else some w.initExit

/-- A created container: the fifo is there, init is about to park, and each
caller is at one of the two entries. -/
def created (id path : String) (entry : ι → Bool) : World ι where
  id := id
  path := path
  pipe := .fresh
  init := .openFifo
  caller := fun i => if entry i then .requireCreated else .checkExists
  wrote := false
  opened := []
  executed := 0
  poststarts := []

end Mars.Fifo
