import Mars.Container.StatusMoves
import Mars.Core.Transition

/-! # The freezer between commands

`pause` and `resume` write `cgroup.freeze` and wait until `cgroup.events` says the same;
`kill --all` does so twice, around its signals, where it has not found the container
frozen. The steps of one such kill lie between those of pauses and resumes, one after
another, while processes come and go and the frozen state follows as it may.
-/

namespace Mars.Freezer
open V2 State

/-! ## Writing and waiting -/

/-- Where a `freeze` stands. -/
inductive Freezing where
  | writing
  | polling (polls : Nat)
  deriving DecidableEq

/-- What one step of a `freeze` comes to: it goes on, or it returns. -/
inductive Waited where
  | on (phase : Freezing)
  | returned (result : Except Error Unit)

def lateError (cgroup : Cgroup) (frozen : Bool) : Error :=
  .invalid (UnixPath.display (UnixPath.components cgroup.path) ++ " did not reach frozen=" ++
    (if frozen then "true" else "false") ++ " within 5s")

/-- One step of `freeze`, on the value of `cgroup.freeze`. An unreadable `cgroup.events`
counts as not frozen. -/
def Freezing.step (cgroup : Cgroup) (target observed : Bool) (fault : Option Error)
    (value : Bool) : Freezing → Bool × Waited
  | .writing =>
      match fault with
      | some error => (value, .returned (.error error))
      | none => (target, .on (.polling 0))
  | .polling polls =>
      if (fault.isNone && observed) = target then (value, .returned (.ok ()))
      else if polls = 499 then (value, .returned (.error (lateError cgroup target)))
      else (value, .on (.polling (polls + 1)))

/-! ## The two commands -/

/-- Where `kill --all` stands. Once the container has been found frozen it is left so. -/
inductive Killing where
  | requiring
  | looking
  | freezing (phase : Freezing)
  | listing (frozen : Bool)
  | signalling (frozen : Bool) (left : List Int)
  | thawing (sent : Except Error Unit) (phase : Freezing)
  | returned (result : Except Error Unit)

/-- Where the `pause` or `resume` stands that is under way, if any. -/
inductive Pausing where
  | idle
  | requiring (target : Bool)
  | freezing (target : Bool) (phase : Freezing)
  deriving DecidableEq

/-- `value` is what `cgroup.freeze` holds, `frozen` what `cgroup.events` says. No step reads the
other two: `settled` is the last pause or resume that returned `Ok`, and `asked` what pauses and
resumes have written last since the kill's look, save for a 0 under its own 1. -/
structure World where
  value : Bool
  frozen : Bool
  alive : Bool
  fifo : Bool
  procs : List Int
  killing : Killing
  pausing : Pausing
  settled : Option Bool
  asked : Option Bool

/-- The host does what it likes to all but `cgroup.freeze`; a step of a command may fail. -/
inductive Event where
  | host (frozen alive fifo : Bool) (procs : List Int)
  | kill (fault : Option Error)
  | begins (target : Bool)
  | pause (fault : Option Error)

def World.status (w : World) : Status := Lifecycle.statusOf w.alive w.frozen w.fifo

def notExpected (id : String) (w : World) (expected : List Status) : Error :=
  .badState id w.status.toText (" or ".intercalate (expected.map Status.toText))

/-- What is asked for after a step of a pause or resume. -/
def Freezing.asks (target : Bool) (asked : Option Bool) : Freezing → Option Bool
  | .writing => some target
  | .polling _ => asked

/-- What is still asked for after a step of the kill's freeze. -/
def Freezing.covers (asked : Option Bool) : Freezing → Option Bool
  | .writing => asked.filter fun target => target
  | .polling _ => asked

variable (cgroup : Cgroup) (id : String)

/-- After the signals the container is thawed, unless it was frozen before. -/
def afterSignals (frozen : Bool) (sent : Except Error Unit) : Killing :=
  if frozen then .returned sent else .thawing sent .writing

def killStep (w : World) (fault : Option Error) : Option World :=
  match w.killing with
  | .requiring =>
      match fault with
      | some error => some { w with killing := .returned (.error error) }
      | none =>
          let expected := [Status.created, .running, .paused]
          if w.status ∈ expected then some { w with killing := .looking }
          else some { w with killing := .returned (.error (notExpected id w expected)) }
  | .looking =>
      if fault.isNone && w.frozen then some { w with killing := .listing true }
      else some { w with killing := .freezing .writing, asked := none }
  | .freezing phase =>
      match phase.step cgroup true w.frozen fault w.value with
      | (value, .on next) =>
          some { w with value := value, killing := .freezing next, asked := phase.covers w.asked }
      | (value, .returned (.ok ())) => some { w with value := value, killing := .listing false }
      | (value, .returned (.error error)) =>
          some { w with value := value, killing := .returned (.error error) }
  | .listing frozen =>
      match fault with
      | some error => some { w with killing := afterSignals frozen (.error error) }
      | none => some { w with killing := .signalling frozen w.procs }
  | .signalling frozen [] => some { w with killing := afterSignals frozen (.ok ()) }
  | .signalling frozen (_ :: left) =>
      match fault with
      | some error => some { w with killing := afterSignals frozen (.error error) }
      | none => some { w with killing := .signalling frozen left }
  | .thawing sent phase =>
      match phase.step cgroup false w.frozen fault w.value with
      | (value, .on phase) => some { w with value := value, killing := .thawing sent phase }
      | (value, .returned (.ok ())) => some { w with value := value, killing := .returned sent }
      | (value, .returned (.error error)) =>
          some { w with value := value, killing := .returned (.error error) }
  | .returned _ => none

/-- A pause asks for a container that is not frozen, a resume for one that is. -/
def expected (target : Bool) : List Status := if target then [.created, .running] else [.paused]

def pauseStep (w : World) (fault : Option Error) : Option World :=
  match w.pausing with
  | .idle => none
  | .requiring target =>
      match fault with
      | some _ => some { w with pausing := .idle }
      | none =>
          if w.status ∈ expected target then
            some { w with pausing := .freezing target .writing }
          else some { w with pausing := .idle }
  | .freezing target phase =>
      match phase.step cgroup target w.frozen fault w.value with
      | (value, .on next) =>
          some { w with value := value, pausing := .freezing target next,
                        asked := phase.asks target w.asked }
      | (value, .returned (.ok ())) =>
          some { w with value := value, pausing := .idle, settled := some target }
      | (value, .returned (.error _)) => some { w with value := value, pausing := .idle }

def step (w : World) : Event → Option World
  | .host frozen alive fifo procs =>
      some { w with frozen := frozen, alive := alive, fifo := fifo, procs := procs }
  | .kill fault => killStep cgroup id w fault
  | .begins target =>
      match w.pausing with
      | .idle => some { w with pausing := .requiring target }
      | _ => none
  | .pause fault => pauseStep cgroup w fault

/-- No pause or resume is under way and the kill is at its beginning. -/
def World.Begins (w : World) : Prop :=
  w.killing = .requiring ∧ w.pausing = .idle ∧ w.settled = none

/-! ## What is due -/

/-- The value that pauses and resumes have asked for: that of the one that has written and not
returned, else of the last that returned `Ok`, else the first. -/
def due (initial : Bool) (w : World) : Bool :=
  match w.pausing with
  | .freezing target (.polling _) => target
  | _ => w.settled.getD initial

/-- The kill has written 1 and not yet 0. -/
def Killing.Holds : Killing → Prop
  | .freezing (.polling _) | .listing false | .signalling false _ | .thawing _ .writing => True
  | _ => False

/-- The kill has found the container thawed and not written 0 yet. -/
def Killing.Looked : Killing → Prop
  | .freezing _ | .listing false | .signalling false _ | .thawing _ .writing => True
  | _ => False

/-- What is set to freeze is seen frozen by the kill's look. Where the kill thaws, no pause has
been the last to write since the look; where it gives up before, because that write is refused
or the container does not freeze in time, a pause or resume has. One that times out itself has
asked for what the last one that returned `Ok` had, or for the first value. -/
def Careful (initial : Bool) (w : World) : Event → Prop
  | .host .. | .begins _ => True
  | .kill fault =>
      match w.killing with
      | .looking => w.value = true → (fault.isNone && w.frozen) = true
      | .thawing _ .writing =>
          if fault.isSome then w.asked.isSome = true else w.asked ≠ some true
      | .freezing (.polling 499) => (fault.isNone && w.frozen) = false → w.asked.isSome = true
      | _ => True
  | .pause fault =>
      match w.pausing with
      | .freezing target (.polling 499) =>
          (fault.isNone && w.frozen) ≠ target → w.settled.getD initial = target
      | _ => True

instance (initial : Bool) (w : World) (e : Event) : Decidable (Careful initial w e) := by
  unfold Careful
  split <;> (try split) <;> infer_instance

/-- Outside the kill's hold on it the freezer has the value that is due, and from the kill's look
on a pause or resume that has written since is what is due. -/
structure Kept (initial : Bool) (w : World) : Prop where
  value : ¬w.killing.Holds → w.value = due initial w
  unasked : w.killing.Looked → w.asked = none → due initial w = false
  asked : ∀ target, w.killing.Looked → w.asked = some target →
    due initial w = target ∧ w.value = target

section steps

variable {cgroup : Cgroup} {id : String} {initial : Bool} {w w' : World} {fault : Option Error}

theorem writing_step {target observed value : Bool} :
    Freezing.writing.step cgroup target observed fault value =
      match fault with
      | some error => (value, .returned (.error error))
      | none => (target, .on (.polling 0)) := rfl

/-- A wait leaves the value as it is; it ends with an error after the last poll only. -/
theorem polling_cases (cgroup : Cgroup) (target observed value : Bool) (fault : Option Error)
    (polls : Nat) :
    (Freezing.polling polls).step cgroup target observed fault value =
        (value, .returned (.ok ())) ∨
      polls = 499 ∧ (fault.isNone && observed) ≠ target ∧
        (Freezing.polling polls).step cgroup target observed fault value =
          (value, .returned (.error (lateError cgroup target))) ∨
      (Freezing.polling polls).step cgroup target observed fault value =
        (value, .on (.polling (polls + 1))) := by
  simp only [Freezing.step]
  split
  next => exact .inl rfl
  next hunseen =>
    split
    next hlast => exact .inr (.inl ⟨hlast, hunseen, rfl⟩)
    next => exact .inr (.inr rfl)

theorem Killing.Holds.looked {killing : Killing} (h : killing.Holds) : killing.Looked := by
  unfold Killing.Holds at h
  split at h <;> trivial

/-- What a step of the kill does to the freezer. -/
inductive KillMove (w : World) (fault : Option Error) (value : Bool) (killing : Killing)
    (asked : Option Bool) : Prop
  | keeps (same : value = w.value) (free : ¬w.killing.Holds) (outside : ¬killing.Looked)
  | looks (here : w.killing = .looking) (unseen : (fault.isNone && w.frozen) = false)
      (same : value = w.value) (there : killing = .freezing .writing) (fresh : asked = none)
  | freezes (here : w.killing = .freezing .writing) (written : value = true)
      (held : killing.Holds) (covered : asked = w.asked.filter fun target => target)
  | holds (holding : w.killing.Holds) (held : killing.Holds) (same : value = w.value)
      (unchanged : asked = w.asked)
  | thaws (sent : Except Error Unit) (here : w.killing = .thawing sent .writing)
      (granted : fault = none) (written : value = false) (outside : ¬killing.Looked)
  | refused (sent : Except Error Unit) (here : w.killing = .thawing sent .writing)
      (failed : fault.isSome = true) (same : value = w.value) (outside : ¬killing.Looked)
  | late (here : w.killing = .freezing (.polling 499))
      (unseen : (fault.isNone && w.frozen) = false) (same : value = w.value)
      (outside : ¬killing.Looked)

theorem kill_move (hstep : killStep cgroup id w fault = some w') :
    KillMove w fault w'.value w'.killing w'.asked ∧
      w' = { w with value := w'.value, killing := w'.killing, asked := w'.asked } := by
  unfold killStep at hstep
  cases hkilling : w.killing with
  | requiring =>
      have hfree : ¬w.killing.Holds := by simp [hkilling, Killing.Holds]
      rw [hkilling] at hstep
      simp only at hstep
      split at hstep
      next => cases hstep; exact ⟨.keeps rfl hfree not_false, rfl⟩
      next =>
        split at hstep
        next => cases hstep; exact ⟨.keeps rfl hfree not_false, rfl⟩
        next => cases hstep; exact ⟨.keeps rfl hfree not_false, rfl⟩
  | looking =>
      have hfree : ¬w.killing.Holds := by simp [hkilling, Killing.Holds]
      rw [hkilling] at hstep
      simp only at hstep
      split at hstep
      next => cases hstep; exact ⟨.keeps rfl hfree not_false, rfl⟩
      next hunseen =>
        cases hstep
        exact ⟨.looks hkilling (by simpa using hunseen) rfl rfl rfl, rfl⟩
  | freezing phase =>
      rw [hkilling] at hstep
      cases phase with
      | writing =>
          have hfree : ¬w.killing.Holds := by simp [hkilling, Killing.Holds]
          simp only [writing_step] at hstep
          cases fault with
          | some error => cases hstep; exact ⟨.keeps rfl hfree not_false, rfl⟩
          | none => cases hstep; exact ⟨.freezes hkilling rfl trivial rfl, rfl⟩
      | polling polls =>
          have hholding : w.killing.Holds := by simp [hkilling, Killing.Holds]
          rcases polling_cases cgroup true w.frozen w.value fault polls with
            heq | ⟨rfl, hunseen, heq⟩ | heq
          · simp only [heq] at hstep
            cases hstep
            exact ⟨.holds hholding trivial rfl rfl, rfl⟩
          · simp only [heq] at hstep
            cases hstep
            exact ⟨.late hkilling (by simpa using hunseen) rfl not_false, rfl⟩
          · simp only [heq] at hstep
            cases hstep
            exact ⟨.holds hholding trivial rfl rfl, rfl⟩
  | listing frozen =>
      rw [hkilling] at hstep
      simp only at hstep
      cases frozen with
      | true =>
          have hfree : ¬w.killing.Holds := by simp [hkilling, Killing.Holds]
          cases fault <;> cases hstep <;> exact ⟨.keeps rfl hfree not_false, rfl⟩
      | false =>
          have hholding : w.killing.Holds := by simp [hkilling, Killing.Holds]
          cases fault <;> cases hstep <;> exact ⟨.holds hholding trivial rfl rfl, rfl⟩
  | signalling frozen left =>
      rw [hkilling] at hstep
      cases frozen with
      | true =>
          have hfree : ¬w.killing.Holds := by simp [hkilling, Killing.Holds]
          cases left with
          | nil => cases hstep; exact ⟨.keeps rfl hfree not_false, rfl⟩
          | cons pid left =>
              cases fault <;> cases hstep <;> exact ⟨.keeps rfl hfree not_false, rfl⟩
      | false =>
          have hholding : w.killing.Holds := by simp [hkilling, Killing.Holds]
          cases left with
          | nil => cases hstep; exact ⟨.holds hholding trivial rfl rfl, rfl⟩
          | cons pid left =>
              cases fault <;> cases hstep <;> exact ⟨.holds hholding trivial rfl rfl, rfl⟩
  | thawing sent phase =>
      rw [hkilling] at hstep
      cases phase with
      | writing =>
          simp only [writing_step] at hstep
          cases fault with
          | some error => cases hstep; exact ⟨.refused sent hkilling rfl rfl not_false, rfl⟩
          | none => cases hstep; exact ⟨.thaws sent hkilling rfl rfl not_false, rfl⟩
      | polling polls =>
          have hfree : ¬w.killing.Holds := by simp [hkilling, Killing.Holds]
          rcases polling_cases cgroup false w.frozen w.value fault polls with
            heq | ⟨-, -, heq⟩ | heq
          · simp only [heq] at hstep
            cases hstep
            exact ⟨.keeps rfl hfree not_false, rfl⟩
          · simp only [heq] at hstep
            cases hstep
            exact ⟨.keeps rfl hfree not_false, rfl⟩
          · simp only [heq] at hstep
            cases hstep
            exact ⟨.keeps rfl hfree not_false, rfl⟩
  | returned result =>
      rw [hkilling] at hstep
      cases hstep

/-- Where the freezer has what is due and the kill is not between its look and its thaw, nothing
else is to be kept. -/
theorem Kept.outside (hvalue : w.value = due initial w) (houtside : ¬w.killing.Looked) :
    Kept initial w :=
  ⟨fun _ => hvalue, fun h => absurd h houtside, fun _ h => absurd h houtside⟩

/-- A pause or resume that has written since the look has left what is due. -/
theorem Kept.value_of_asked (kept : Kept initial w) (hlooked : w.killing.Looked)
    (hasked : w.asked.isSome = true) : w.value = due initial w := by
  obtain ⟨target, htarget⟩ := Option.isSome_iff_exists.mp hasked
  obtain ⟨hdue, hvalue⟩ := kept.asked target hlooked htarget
  rw [hdue, hvalue]

theorem Kept.killStep (kept : Kept initial w) (hok : Careful initial w (.kill fault))
    (hstep : Freezer.killStep cgroup id w fault = some w') : Kept initial w' := by
  obtain ⟨move, hsame⟩ := kill_move hstep
  have hdue : due initial w' = due initial w := by
    rw [hsame]
    rfl
  cases move with
  | keeps same free outside =>
      exact .outside (by rw [same, hdue, kept.value free]) outside
  | looks here unseen same there fresh =>
      simp only [Careful, here, unseen] at hok
      have hthawed : w.value = false := by simpa using hok
      have hfree : ¬w.killing.Holds := by simp [here, Killing.Holds]
      have hnone : due initial w' = false := by rw [hdue, ← kept.value hfree, hthawed]
      refine ⟨fun _ => by rw [same, hthawed, hnone], fun _ _ => hnone, ?_⟩
      intro target _ hasked
      rw [fresh] at hasked
      cases hasked
  | freezes here written held covered =>
      have hlooked : w.killing.Looked := by simp [here, Killing.Looked]
      refine ⟨fun h => absurd held h, ?_, ?_⟩
      · intro _ hunasked
        rw [hdue]
        rw [covered] at hunasked
        cases hasked : w.asked with
        | none => exact kept.unasked hlooked hasked
        | some target =>
            obtain ⟨hsome, -⟩ := kept.asked target hlooked hasked
            rw [hsome]
            simpa [hasked] using hunasked
      · intro target _ hasked
        rw [covered, Option.filter_eq_some_iff] at hasked
        obtain ⟨hasked, htrue⟩ := hasked
        rw [hdue, written]
        exact ⟨(kept.asked target hlooked hasked).1, htrue.symm⟩
  | holds holding held same unchanged =>
      have hlooked : w.killing.Looked := holding.looked
      refine ⟨fun h => absurd held h, ?_, ?_⟩
      · rw [hdue, unchanged]
        exact fun _ => kept.unasked hlooked
      · rw [hdue, unchanged, same]
        exact fun target _ => kept.asked target hlooked
  | thaws sent here granted written outside =>
      have hlooked : w.killing.Looked := by simp [here, Killing.Looked]
      simp only [Careful, here, granted] at hok
      apply Kept.outside _ outside
      rw [written, hdue]
      cases hasked : w.asked with
      | none => exact (kept.unasked hlooked hasked).symm
      | some target =>
          rw [(kept.asked target hlooked hasked).1]
          simpa [hasked] using hok
  | refused sent here failed same outside =>
      have hlooked : w.killing.Looked := by simp [here, Killing.Looked]
      simp only [Careful, here, failed] at hok
      exact .outside (by rw [same, hdue, kept.value_of_asked hlooked hok]) outside
  | late here unseen same outside =>
      have hlooked : w.killing.Looked := by simp [here, Killing.Looked]
      simp only [Careful, here] at hok
      exact .outside (by rw [same, hdue, kept.value_of_asked hlooked (hok unseen)]) outside

/-- A step of a pause or resume that writes nothing keeps what it leaves due. -/
theorem Kept.pauses (kept : Kept initial w) {pausing : Pausing} {settled : Option Bool}
    (hdue : due initial { w with pausing := pausing, settled := settled } = due initial w) :
    Kept initial { w with pausing := pausing, settled := settled } := by
  constructor
  · rw [hdue]
    exact kept.value
  · rw [hdue]
    exact kept.unasked
  · rw [hdue]
    exact kept.asked

theorem Kept.pauseStep (kept : Kept initial w) (hok : Careful initial w (.pause fault))
    (hstep : Freezer.pauseStep cgroup w fault = some w') : Kept initial w' := by
  unfold Freezer.pauseStep at hstep
  cases hpausing : w.pausing with
  | idle => simp [hpausing] at hstep
  | requiring target =>
      have hdue : due initial w = w.settled.getD initial := by rw [due, hpausing]
      rw [hpausing] at hstep
      simp only at hstep
      split at hstep
      next => cases hstep; exact kept.pauses hdue.symm
      next =>
        split at hstep
        next => cases hstep; exact kept.pauses hdue.symm
        next => cases hstep; exact kept.pauses hdue.symm
  | freezing target phase =>
      rw [hpausing] at hstep
      cases phase with
      | writing =>
          have hdue : due initial w = w.settled.getD initial := by rw [due, hpausing]
          simp only [writing_step] at hstep
          cases fault with
          | some error => cases hstep; exact kept.pauses hdue.symm
          | none =>
              cases hstep
              constructor
              · exact fun _ => rfl
              · intro _ hunasked
                cases hunasked
              · intro asked _ hasked
                cases hasked
                exact ⟨rfl, rfl⟩
      | polling polls =>
          have hdue : due initial w = target := by rw [due, hpausing]
          rcases polling_cases cgroup target w.frozen w.value fault polls with
            heq | ⟨rfl, hunseen, heq⟩ | heq
          · simp only [heq] at hstep
            cases hstep
            exact kept.pauses hdue.symm
          · simp only [heq] at hstep
            cases hstep
            simp only [Careful, hpausing] at hok
            exact kept.pauses ((hok hunseen).trans hdue.symm)
          · simp only [heq] at hstep
            cases hstep
            exact kept.pauses hdue.symm

theorem Kept.step {e : Event} (kept : Kept initial w) (hok : Careful initial w e)
    (hstep : Freezer.step cgroup id w e = some w') : Kept initial w' := by
  cases e with
  | host frozen alive fifo procs =>
      cases hstep
      exact ⟨kept.value, kept.unasked, kept.asked⟩
  | kill fault => exact kept.killStep hok hstep
  | begins target =>
      unfold Freezer.step at hstep
      cases hpausing : w.pausing with
      | idle =>
          have hdue : due initial w = w.settled.getD initial := by rw [due, hpausing]
          simp only [hpausing] at hstep
          cases hstep
          exact kept.pauses hdue.symm
      | requiring target => simp [hpausing] at hstep
      | freezing target phase => simp [hpausing] at hstep
  | pause fault => exact kept.pauseStep hok hstep

end steps

/-- Everybody has returned. -/
def World.Ended (w : World) : Prop := (∃ result, w.killing = .returned result) ∧ w.pausing = .idle

/-- Once all have returned, the freezer has the value of the last pause or resume that
returned `Ok`, or its first, in every run whose steps are careful. -/
theorem freezer_kept {cgroup : Cgroup} {id : String} {first w : World} {events : List Event}
    (hbegins : first.Begins)
    (hrun : Transition.run (step cgroup id) first events = some w)
    (hok : Transition.Along (step cgroup id) (Careful first.value) first events)
    (hended : w.Ended) : w.value = w.settled.getD first.value := by
  obtain ⟨hkilling, hpausing, hsettled⟩ := hbegins
  have hfirst : Kept first.value first := by
    apply Kept.outside
    · rw [due, hpausing, hsettled]
      rfl
    · rw [hkilling]
      exact not_false
  have kept := Transition.run_invariant_along (I := Kept first.value)
    (fun _ _ _ kept hcareful hstep => kept.step hcareful hstep) hfirst hrun hok
  obtain ⟨⟨result, hreturned⟩, hidle⟩ := hended
  have hvalue := kept.value (by simp [hreturned, Killing.Holds])
  rw [hvalue, due, hidle]

/-! ## Runs with one pause -/

def demoCgroup : Cgroup := Cgroup.attach "mars/demo"

def running : World where
  value := false
  frozen := false
  alive := true
  fifo := false
  procs := [7]
  killing := .requiring
  pausing := .idle
  settled := none
  asked := none

def kills (n : Nat) : List Event := List.replicate n (.kill none)

/-- A pause that returns before the kill looks, and a resume after it. -/
def pausedFirst : List Event :=
  [.begins true, .pause none, .pause none, .host true true false [7], .pause none] ++ kills 5 ++
    [.begins false, .pause none, .pause none, .host false true false [], .pause none]

/-- A pause that comes between the kill's look and its thaw. -/
def pausedBetween : List Event :=
  kills 3 ++ [.begins true, .pause none, .pause none, .host true true false [7], .pause none] ++
    kills 5 ++ [.host false true false [], .kill none]

/-- The write of 0 is refused. -/
def notThawed : List Event :=
  kills 3 ++ [.host true true false [7]] ++ kills 4 ++ [.kill (some (.io "write"))]

theorem pausedFirst_enabled :
    (Transition.run (step demoCgroup "demo") running pausedFirst).isSome = true := by rfl

theorem freezer_kept_pausedFirst :
    running.Begins ∧
      Transition.Along (step demoCgroup "demo") (Careful running.value) running pausedFirst ∧
      (Option.get _ pausedFirst_enabled).Ended ∧
      (Option.get _ pausedFirst_enabled).value =
        (Option.get _ pausedFirst_enabled).settled.getD running.value := by
  have hbegins : running.Begins := ⟨rfl, rfl, rfl⟩
  have hok : Transition.Along (step demoCgroup "demo") (Careful running.value) running
      pausedFirst := by decide
  have hended : (Option.get _ pausedFirst_enabled).Ended := ⟨⟨_, rfl⟩, rfl⟩
  exact ⟨hbegins, hok, hended,
    freezer_kept hbegins (Option.some_get pausedFirst_enabled).symm hok hended⟩

theorem pausedBetween_enabled :
    (Transition.run (step demoCgroup "demo") running pausedBetween).isSome = true := by rfl

theorem notThawed_enabled :
    (Transition.run (step demoCgroup "demo") running notThawed).isSome = true := by rfl

/-- A pause that has returned is undone by the kill's thaw; a kill whose thaw is refused leaves
frozen what nobody has paused. -/
theorem kill_moves_freezer :
    (∃ w, Transition.run (step demoCgroup "demo") running pausedBetween = some w ∧ w.Ended ∧
        w.settled = some true ∧ w.value = false) ∧
      ∃ w, Transition.run (step demoCgroup "demo") running notThawed = some w ∧ w.Ended ∧
        w.settled = none ∧ running.value = false ∧ w.value = true :=
  ⟨⟨_, (Option.some_get pausedBetween_enabled).symm, ⟨⟨_, rfl⟩, rfl⟩, rfl, rfl⟩,
    ⟨_, (Option.some_get notThawed_enabled).symm, ⟨⟨_, rfl⟩, rfl⟩, rfl, rfl, rfl⟩⟩

end Mars.Freezer
