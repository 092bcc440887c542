import Mars.Error
import Mars.Spec

/-! # Bundles -/

namespace Mars
open Spec

structure Bundle where
  dir : String
  spec : Spec
  deriving DecidableEq

namespace Bundle

def mounts (bundle : Bundle) : List Mount := bundle.spec.mounts.getD []

def readonlyRootfs (bundle : Bundle) : Bool := (bundle.spec.root.bind (·.readonly)).getD false

def cwd (bundle : Bundle) : Option String := bundle.spec.process.map (·.cwd)

def env (bundle : Bundle) : List String := (bundle.spec.process.bind (·.env)).getD []

def argv (bundle : Bundle) : Except Error (List String) :=
  match bundle.spec.process with
  | none => .error (.specField "process")
  | some process =>
      let args := process.args.getD []
      if args = [] then .error (.specField "process.args") else .ok args

end Bundle

end Mars
