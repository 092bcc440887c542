import Mars.Error
import Mars.Spec

/-! # Hook phases

A phase's hooks run one after the other. The first that fails ends a fatal
phase with its error; the other two phases go on and report nothing.
-/

namespace Mars.Hooks
open Spec

inductive Phase where
  | prestart
  | createRuntime
  | createContainer
  | startContainer
  | poststart
  | poststop
  deriving DecidableEq

def Phase.name : Phase → String
  | .prestart => "prestart"
  | .createRuntime => "createRuntime"
  | .createContainer => "createContainer"
  | .startContainer => "startContainer"
  | .poststart => "poststart"
  | .poststop => "poststop"

def Phase.isFatal (phase : Phase) : Bool := phase ≠ .poststart && phase ≠ .poststop

def Phase.select (phase : Phase) (hooks : Hooks) : Option (List Hook) :=
  match phase with
  | .prestart => hooks.prestart
  | .createRuntime => hooks.createRuntime
  | .createContainer => hooks.createContainer
  | .startContainer => hooks.startContainer
  | .poststart => hooks.poststart
  | .poststop => hooks.poststop

/-- The hooks a phase runs, in order. -/
def selected (hooks : Option Hooks) (phase : Phase) : List Hook :=
  (hooks.bind phase.select).getD []

/-! ## Running a phase -/

/-- What became of each hook: an error, or an exit with success. -/
abbrev Outcomes := Phase → Nat → Option Error

def failure (phase : Phase) (index : Nat) (hook : Hook) (error : Error) : Error :=
  .invalid (phase.name ++ " hook " ++ toString index ++ " (" ++ hook.path ++ ") failed: " ++
    error.text)

/-- The loop of `run` from one hook on, with the indices of those it executes. -/
def runFrom (phase : Phase) (outcome : Nat → Option Error) :
    Nat → List Hook → List Nat × Except Error Unit
  | _, [] => ([], .ok ())
  | index, hook :: rest =>
      let later := runFrom phase outcome (index + 1) rest
      match outcome index with
      | none => (index :: later.1, later.2)
      | some error =>
          if phase.isFatal then ([index], .error (failure phase index hook error))
          else (index :: later.1, later.2)

/-- The state that hooks read can be serialised; where it cannot, none of them runs. -/
def run (hooks : Option Hooks) (phase : Phase) (outcome : Nat → Option Error) :
    List Nat × Except Error Unit :=
  runFrom phase outcome 0 (selected hooks phase)

section runs
variable {hooks : Option Hooks} {phase : Phase} {outcome : Nat → Option Error}

theorem runFrom_tolerant (h : phase.isFatal = false) (index : Nat) (list : List Hook) :
    runFrom phase outcome index list = (List.range' index list.length, .ok ()) := by
  induction list generalizing index with
  | nil => rfl
  | cons hook rest ih =>
      have hlater : runFrom phase outcome (index + 1) rest =
          (List.range' (index + 1) rest.length, .ok ()) := ih (index + 1)
      cases houtcome : outcome index <;>
        simp [runFrom, houtcome, h, hlater, List.range'_succ]

/-- Such a phase executes all its hooks and succeeds, whatever they do. -/
theorem run_tolerant (h : phase.isFatal = false) :
    run hooks phase outcome = (List.range (selected hooks phase).length, .ok ()) := by
  rw [run, runFrom_tolerant h, List.range_eq_range']

theorem runFrom_executed (index : Nat) (list : List Hook) :
    (runFrom phase outcome index list).1 <+: List.range' index list.length := by
  induction list generalizing index with
  | nil => exact List.prefix_refl _
  | cons hook rest ih =>
      have hlater := List.prefix_cons_inj index |>.mpr (ih (index + 1))
      have hone : [index] <+: index :: List.range' (index + 1) rest.length := ⟨_, rfl⟩
      rw [List.length_cons, List.range'_succ]
      simp only [runFrom]
      split
      · exact hlater
      · split
        · exact hone
        · exact hlater

/-- No hook is executed twice, and none out of its turn. -/
theorem run_executed : (run hooks phase outcome).1 <+: List.range (selected hooks phase).length := by
  rw [List.range_eq_range']
  exact runFrom_executed 0 _

theorem runFrom_ok (index : Nat) (list : List Hook)
    (h : (runFrom phase outcome index list).2 = .ok ()) (hfatal : phase.isFatal = true) :
    ∀ i ∈ List.range' index list.length, outcome i = none := by
  induction list generalizing index with
  | nil => nofun
  | cons hook rest ih =>
      simp only [runFrom] at h
      intro i hi
      rw [List.length_cons, List.range'_succ] at hi
      cases houtcome : outcome index with
      | some error => simp [houtcome, hfatal] at h
      | none =>
          simp only [houtcome] at h
          rcases List.mem_cons.mp hi with rfl | hi
          · exact houtcome
          · exact ih (index + 1) h i hi

theorem runFrom_error (index : Nat) (list : List Hook) {error : Error}
    (h : (runFrom phase outcome index list).2 = .error error) :
    ∃ i ∈ (runFrom phase outcome index list).1, outcome i ≠ none := by
  induction list generalizing index with
  | nil => cases h
  | cons hook rest ih =>
      simp only [runFrom] at h ⊢
      have hlater : (runFrom phase outcome (index + 1) rest).2 = .error error →
          ∃ i ∈ index :: (runFrom phase outcome (index + 1) rest).1, outcome i ≠ none := by
        intro hrest
        obtain ⟨i, hi, hne⟩ := ih (index + 1) hrest
        exact ⟨i, List.mem_cons_of_mem _ hi, hne⟩
      cases houtcome : outcome index with
      | none =>
          simp only [houtcome] at h
          exact hlater h
      | some failed =>
          refine ⟨index, ?_, by simp [houtcome]⟩
          dsimp only
          split <;> exact List.mem_cons_self

/-- A fatal phase fails exactly where one of its hooks does, and executes one that does. -/
theorem run_error (hfatal : phase.isFatal = true) {index : Nat}
    (hindex : index < (selected hooks phase).length) (hfails : outcome index ≠ none) :
    ∃ error, (run hooks phase outcome).2 = .error error ∧
      ∃ i ∈ (run hooks phase outcome).1, outcome i ≠ none := by
  cases hresult : (run hooks phase outcome).2 with
  | error error => exact ⟨error, rfl, runFrom_error 0 _ hresult⟩
  | ok =>
      have hnone : outcome index = none :=
        runFrom_ok 0 _ hresult hfatal index (by simpa [List.mem_range'] using hindex)
      exact absurd hnone hfails

end runs

end Mars.Hooks
