import Mars.Error

/-! # Messages between the parties of a create -/

namespace Mars.Sync

/-- A span of a recorder, in microseconds since its origin. -/
structure Phase where
  name : String
  startUs : Nat
  endUs : Nat
  deriving DecidableEq

inductive Message where
  | requestUserMapping
  | userMappingDone
  | initPid (pid : Int) (phases : List Phase)
  | cgroupApplied (pid : Int)
  | initReady (phases : List Phase)
  | failed (reason : String)
  deriving DecidableEq

def debugPhases (phases : List Phase) : String :=
  "[" ++ ", ".intercalate (phases.map fun phase => "Phase \x7b name: \"" ++ phase.name ++
    "\", start_us: " ++ toString phase.startUs ++ ", end_us: " ++ toString phase.endUs ++
    " \x7d") ++ "]"

def Message.debug : Message → String
  | .requestUserMapping => "RequestUserMapping"
  | .userMappingDone => "UserMappingDone"
  | .initPid pid phases => "InitPid(" ++ toString pid ++ ", " ++ debugPhases phases ++ ")"
  | .cgroupApplied pid => "CgroupApplied(" ++ toString pid ++ ")"
  | .initReady phases => "InitReady(" ++ debugPhases phases ++ ")"
  | .failed reason => "Failed(\"" ++ reason ++ "\")"

/-- The names `expect` is called with. -/
inductive Want where
  | userMappingDone
  | initPid
  | cgroupApplied
  | initReady
  | requestUserMapping
  deriving DecidableEq

def Want.text : Want → String
  | .userMappingDone => "UserMappingDone"
  | .initPid => "InitPid"
  | .cgroupApplied => "CgroupApplied"
  | .initReady => "InitReady"
  | .requestUserMapping => "RequestUserMapping"

def Want.matches : Want → Message → Bool
  | .userMappingDone, .userMappingDone => true
  | .initPid, .initPid _ _ => true
  | .cgroupApplied, .cgroupApplied _ => true
  | .initReady, .initReady _ => true
  | .requestUserMapping, .requestUserMapping => true
  | _, _ => false

/-- What `expect` makes of a message it has received. -/
def expect (want : Want) : Message → Except Error Message
  | .failed reason => .error (.initFailed reason)
  | message =>
      if want.matches message then .ok message
      else .error (.sync ("expected " ++ want.text ++ ", got " ++ message.debug))

theorem expect_ok {want : Want} {message result : Message} (h : expect want message = .ok result) :
    result = message ∧ want.matches message = true := by
  cases message with
  | failed reason => cases h
  | _ =>
      simp only [expect] at h
      split at h
      next hmatch => exact ⟨(Except.ok.inj h).symm, hmatch⟩
      next => cases h

section wanted
variable {message : Message}

theorem of_matches_userMappingDone (h : Want.userMappingDone.matches message = true) :
    message = .userMappingDone := by
  cases message with
  | userMappingDone => rfl
  | _ => cases h

theorem of_matches_cgroupApplied (h : Want.cgroupApplied.matches message = true) :
    ∃ pid, message = .cgroupApplied pid := by
  cases message with
  | cgroupApplied pid => exact ⟨pid, rfl⟩
  | _ => cases h

theorem of_matches_initReady (h : Want.initReady.matches message = true) :
    ∃ phases, message = .initReady phases := by
  cases message with
  | initReady phases => exact ⟨phases, rfl⟩
  | _ => cases h

end wanted

end Mars.Sync
