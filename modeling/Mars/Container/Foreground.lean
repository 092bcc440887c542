import Mars.Container.HooksOnce

/-! # What a foreground run leaves behind

Once its create step has succeeded, `run` loads the record, releases the fifo,
executes the poststart hooks, supervises init, executes the poststop hooks and
tidies up. Every step but the last two of the tidying can end it early, and only
the tidying takes the directory away: after a step that fails, what was there is
still there (`failed_leaves`).
-/

namespace Mars.Foreground
open Commands HooksOnce Transition

variable {ι : Type} [DecidableEq ι]

/-- Besides, `supervise` may fail, at any time. -/
inductive Event (ι : Type) where
  | command (event : Commands.Event ι)
  | superviseFails (error : Error)

def step (c : Setup ι) (w : World ι) : Event ι → Option (World ι)
  | .command event => Commands.step c w event
  | .superviseFails error =>
      match w.stage none with
      | .supervise => some (w.setStage none (.poststop (.error error)))
      | _ => none

/-- Nothing of the container is left: neither its directory nor its init. -/
structure Clean (w : World ι) : Prop where
  stateFile : w.stateFile = false
  fifo : w.fifo.pipe.linked = false
  init : w.fifo.init = .dead

/-! ## The condition -/

/-- The next step of `release` finds the name of the fifo gone, or not the byte of init. -/
def ReleaseFails (fifo : Fifo.World (Option ι)) : Prop :=
  match fifo.caller none with
  | .requireCreated => fifo.pipe.linked = false
  | .checkExists => fifo.pipe.linked = false
  | .openFifo => fifo.pipe.linked = false
  | .removing => fifo.pipe.linked = false
  | .reading =>
      match fifo.pipe.read with
      | .byte value _ => value ≠ Fifo.HANDSHAKE
      | .eof => True
      | .blocked => False
  | _ => False

/-- A step of `run` fails: the record is gone, the release is met by nobody, or the
system refuses a call. -/
def Fails (w : World ι) : Event ι → Prop
  | .command (.callFails none _) => True
  | .command (.call none _) =>
      match w.stage none with
      | .load => w.stateFile = false
      | .release => ReleaseFails w.fifo
      | _ => False
  | _ => False

/-- `run` fails only where nothing is left to tidy up, `supervise` only when init is dead. -/
def Careful (w : World ι) : Event ι → Prop
  | .superviseFails _ => w.fifo.init = .dead
  | e => Fails w e → Clean w

section decidable

omit [DecidableEq ι] in
theorem clean_iff {w : World ι} : Clean w ↔
    w.stateFile = false ∧ w.fifo.pipe.linked = false ∧ w.fifo.init = .dead :=
  ⟨fun h => ⟨h.stateFile, h.fifo, h.init⟩, fun h => ⟨h.1, h.2.1, h.2.2⟩⟩

instance (w : World ι) : Decidable (Clean w) := decidable_of_iff _ clean_iff.symm

instance (fifo : Fifo.World (Option ι)) : Decidable (ReleaseFails fifo) := by
  unfold ReleaseFails
  cases fifo.caller none with
  | reading => cases fifo.pipe.read <;> dsimp only <;> infer_instance
  | _ => dsimp only; infer_instance

instance (w : World ι) (e : Event ι) : Decidable (Fails w e) :=
  match e with
  | .command (.callFails none _) => isTrue trivial
  | .command (.call none _) => by
      unfold Fails
      cases w.stage none <;> dsimp only <;> infer_instance
  | .command (.call (some _) _) => isFalse id
  | .command (.callFails (some _) _) => isFalse id
  | .command (.callerDies _ _) => isFalse id
  | .command .init => isFalse id
  | .command .initFails => isFalse id
  | .command (.initDies _) => isFalse id
  | .superviseFails _ => isFalse id

instance (w : World ι) (e : Event ι) : Decidable (Careful w e) :=
  match e with
  | .superviseFails _ => inferInstanceAs (Decidable (_ = _))
  | .command event => inferInstanceAs (Decidable (Fails w (.command event) → Clean w))

end decidable

/-! ## What is gone stays gone -/

section gone
variable {c : Setup ι} {w w' : World ι} {e : Commands.Event ι}

theorem callStep_linked {fifo fifo' : Fifo.World (Option ι)} {i : Option ι}
    (h : Fifo.callStep fifo i = some fifo') (hlinked : fifo.pipe.linked = false) :
    fifo'.pipe.linked = false := by
  unfold Fifo.callStep at h
  split at h
  case h_5 =>
    split at h
    next value rest hread =>
      have hrest : rest.linked = false := by
        unfold NamedPipe.Pipe.read at hread
        split at hread
        next => cases hread; exact hlinked
        next => split at hread <;> cases hread
      split at h <;> exact Option.some.inj h ▸ hrest
    next => exact Option.some.inj h ▸ hlinked
    next => cases h
  all_goals
    first
    | cases h; done
    | exact Option.some.inj h ▸ hlinked
    | (split at h <;> first
        | (cases h; done)
        | exact Option.some.inj h ▸ hlinked
        | exact Option.some.inj h ▸ rfl)

theorem initStep_linked {fifo fifo' : Fifo.World (Option ι)} (h : Fifo.initStep fifo = some fifo')
    (hlinked : fifo.pipe.linked = false) : fifo'.pipe.linked = false := by
  unfold Fifo.initStep at h
  split at h
  case h_3 =>
    split at h
    next pipe hwrite =>
      have hpipe : pipe.linked = false := by
        unfold NamedPipe.Pipe.write at hwrite
        split at hwrite
        next => cases hwrite
        next => exact Option.some.inj hwrite ▸ hlinked
      exact Option.some.inj h ▸ hpipe
    next => exact Option.some.inj h ▸ hlinked
  all_goals
    first
    | cases h; done
    | exact Option.some.inj h ▸ hlinked
    | (split at h <;> first | (cases h; done) | exact Option.some.inj h ▸ hlinked)

theorem goes_stateFile {i : Option ι} {stage : Stage} {fifo : Fifo.World (Option ι)}
    {stateFile : Bool} (h : Goes c w i e stage fifo stateFile) (hgone : w.stateFile = false) :
    stateFile = false := by
  cases h <;> first | exact hgone | rfl

theorem goes_linked {i : Option ι} {stage : Stage} {fifo : Fifo.World (Option ι)}
    {stateFile : Bool} (h : Goes c w i e stage fifo stateFile)
    (hlinked : w.fifo.pipe.linked = false) : fifo.pipe.linked = false := by
  cases h with
  | release _ hfifo => exact callStep_linked hfifo hlinked
  | poststart _ hfifo => exact callStep_linked hfifo hlinked
  | removed => rfl
  | _ => exact hlinked

theorem step_dead (h : Commands.step c w e = some w') (hdead : w.fifo.init = .dead) :
    w'.fifo.init = .dead := by
  cases hcaller : e.caller with
  | some i =>
      obtain ⟨stage, hgoes, -⟩ := step_goes h hcaller
      exact hgoes.init.trans hdead
  | none =>
      obtain ⟨hmove | hexit, -⟩ := step_init h hcaller
      · simp [Fifo.initStep, hdead] at hmove
      · rw [hexit]
        rfl

theorem step_clean (h : Commands.step c w e = some w') (hclean : Clean w) : Clean w' := by
  refine ⟨?_, ?_, step_dead h hclean.init⟩
  · cases hcaller : e.caller with
    | some i =>
        obtain ⟨stage, hgoes, -⟩ := step_goes h hcaller
        exact goes_stateFile hgoes hclean.stateFile
    | none => exact (step_init h hcaller).2.2.trans hclean.stateFile
  · cases hcaller : e.caller with
    | some i =>
        obtain ⟨stage, hgoes, -⟩ := step_goes h hcaller
        exact goes_linked hgoes hclean.fifo
    | none =>
        obtain ⟨hmove | hexit, -⟩ := step_init h hcaller
        · exact initStep_linked hmove hclean.fifo
        · rw [hexit]
          exact hclean.fifo

/-- Whoever else acts, `run` stays where it is. -/
theorem step_others (h : Commands.step c w e = some w') (hcaller : e.caller ≠ some none) :
    w'.stage none = w.stage none := by
  cases hwho : e.caller with
  | some i =>
      obtain ⟨stage, -, hstage⟩ := step_goes h hwho
      have hne : none ≠ i := by
        rintro rfl
        exact hcaller hwho
      rw [hstage, Function.update_of_ne hne]
  | none => rw [(step_init h hwho).2.1]

end gone

/-! ## The invariant -/

structure Inv (w : World ι) : Prop where
  tidying : ∀ result, w.stage none = .poststop result ∨ w.stage none = .remove result →
    w.fifo.init = .dead
  returned : ∀ result, w.stage none = .done result → Clean w

section invariant
variable {c : Setup ι} {w w' : World ι} {answer : Answer} {error : Error}

omit [DecidableEq ι] in
theorem inv_early (htidying : ∀ result, w.stage none ≠ .poststop result ∧
    w.stage none ≠ .remove result ∧ w.stage none ≠ .done result) : Inv w where
  tidying result h := by
    rcases h with h | h
    · exact absurd h (htidying result).1
    · exact absurd h (htidying result).2.1
  returned result h := absurd h (htidying result).2.2

omit [DecidableEq ι] in
theorem inv_done {result : Except Error Nat} (hstage : w.stage none = .done result)
    (hclean : Clean w) : Inv w where
  tidying other h := by rcases h with h | h <;> cases hstage.symm.trans h
  returned _ _ := hclean

omit [DecidableEq ι] in
theorem inv_tidying {result : Except Error Nat}
    (hstage : w.stage none = .poststop result ∨ w.stage none = .remove result)
    (hdead : w.fifo.init = .dead) : Inv w where
  tidying _ _ := hdead
  returned other h := by rcases hstage with hstage | hstage <;> cases hstage.symm.trans h

omit [DecidableEq ι] in
theorem inv_start (hcreated : c.origin = .run false false) : Inv (Commands.start c (.ok ())) :=
  inv_early fun result => by simp [Commands.start, hcreated]

theorem setStage_stage (stage : Stage) : (w.setStage none stage).stage none = stage := by
  simp [World.setStage]

omit [DecidableEq ι] in
/-- A release that has just failed was met by nobody. -/
theorem releaseFails_of_failed [DecidableEq ι] {fifo fifo' : Fifo.World (Option ι)}
    (h : Fifo.callStep fifo none = some fifo') (hfailed : fifo'.caller none = .failed error) :
    ReleaseFails fifo := by
  unfold ReleaseFails
  unfold Fifo.callStep at h
  cases hpoint : fifo.caller none with
  | requireCreated =>
      simp only [hpoint] at h ⊢
      split at h
      next =>
        obtain rfl := Option.some.inj h
        simp [Fifo.World.setCaller] at hfailed
      next hgone => simpa using hgone
  | checkExists =>
      simp only [hpoint] at h ⊢
      split at h
      next =>
        obtain rfl := Option.some.inj h
        simp [Fifo.World.setCaller] at hfailed
      next hgone => simpa using hgone
  | openFifo =>
      simp only [hpoint] at h ⊢
      split at h
      next =>
        obtain rfl := Option.some.inj h
        simp [Fifo.World.setCaller] at hfailed
      next hgone => simpa using hgone
  | opening =>
      simp only [hpoint] at h
      split at h
      next =>
        obtain rfl := Option.some.inj h
        simp [Fifo.World.setCaller] at hfailed
      next => cases h
  | reading =>
      simp only [hpoint] at h ⊢
      cases hread : fifo.pipe.read with
      | byte value rest =>
          simp only [hread] at h ⊢
          split at h
          next =>
            obtain rfl := Option.some.inj h
            simp [Fifo.World.setCaller] at hfailed
          next hvalue => exact hvalue
      | eof => trivial
      | blocked => simp [hread] at h
  | removing =>
      simp only [hpoint] at h ⊢
      split at h
      next =>
        obtain rfl := Option.some.inj h
        simp [Fifo.World.setCaller] at hfailed
      next hgone => simpa using hgone
  | poststart =>
      simp only [hpoint, Option.some.injEq] at h
      obtain rfl := h
      simp [Fifo.World.setCaller] at hfailed
  | _ => simp [hpoint] at h

theorem inv_load (hcareful : w.stateFile = false → Clean w) : Inv (load c w none) := by
  unfold load
  dsimp only
  split
  next => exact inv_early fun result => by simp [setStage_stage]
  next hgone =>
    have hclean := hcareful (by simpa using hgone)
    exact inv_done (setStage_stage _) ⟨hclean.stateFile, hclean.fifo, hclean.init⟩

theorem inv_release {fifo : Fifo.World (Option ι)}
    (hcareful : ReleaseFails w.fifo → Clean w) (hfifo : Fifo.callStep w.fifo none = some fifo) :
    Inv ({ w with fifo := fifo }.setStage none (released (fifo.caller none))) := by
  cases hpoint : fifo.caller none with
  | failed error =>
      have hclean := hcareful (releaseFails_of_failed hfifo hpoint)
      refine inv_done (setStage_stage _) ⟨hclean.stateFile, callStep_linked hfifo hclean.fifo, ?_⟩
      exact (Fifo.callStep_init hfifo).1.trans hclean.init
  | _ => exact inv_early fun result => by simp [setStage_stage, released]

theorem inv_call (hforeground : c.origin = .run false false) (h : Inv w)
    (hcareful : Fails w (.command (.call none answer)) → Clean w)
    (hstep : callStep c w none answer = some w') : Inv w' := by
  unfold callStep at hstep
  cases hstage : w.stage none with
  | load =>
      simp only [hstage, Option.some.injEq] at hstep
      obtain rfl := hstep
      exact inv_load fun hgone => hcareful (by simpa [Fails, hstage] using hgone)
  | release =>
      simp only [hstage, Option.map_eq_some_iff] at hstep
      obtain ⟨fifo, hfifo, rfl⟩ := hstep
      exact inv_release (fun hfails => hcareful (by simpa [Fails, hstage] using hfails)) hfifo
  | poststart =>
      simp only [hstage, tolerant_poststart, Option.map_eq_some_iff] at hstep
      obtain ⟨fifo, -, rfl⟩ := hstep
      exact inv_early fun result => by simp [setStage_stage, afterPoststart, hforeground]
  | supervise =>
      simp only [hstage, Option.ite_none_right_eq_some, Option.some.injEq] at hstep
      obtain ⟨hdead, rfl⟩ := hstep
      exact inv_tidying (.inl (setStage_stage _)) hdead
  | poststop result =>
      simp only [hstage, tolerant_poststop, Option.some.injEq] at hstep
      obtain rfl := hstep
      exact inv_tidying (.inr (setStage_stage _)) (h.tidying result (.inl hstage))
  | remove result =>
      have hkeeps : keeps c none = false := by simp [keeps, hforeground]
      simp only [hstage, hkeeps, Bool.false_eq_true, if_false, Option.some.injEq] at hstep
      obtain rfl := hstep
      exact inv_done (setStage_stage _) ⟨rfl, rfl, h.tidying result (.inr hstage)⟩
  | done result => simp [hstage] at hstep
  | died => simp [hstage] at hstep

theorem inv_callFails (hclean : Clean w) (hstep : callFails w none error = some w') : Inv w' := by
  unfold callFails at hstep
  split at hstep
  all_goals
    first
    | cases hstep; done
    | (obtain rfl := Option.some.inj hstep
       exact inv_done (setStage_stage _) ⟨hclean.stateFile, hclean.fifo, hclean.init⟩)

theorem inv_callerDies {executed : Nat} (hstep : callerDies c w none executed = some w') :
    Inv w' := by
  unfold callerDies at hstep
  dsimp only at hstep
  split at hstep
  all_goals
    first
    | cases hstep; done
    | (obtain rfl := Option.some.inj hstep
       exact inv_early fun result => by simp [setStage_stage])

theorem inv_others {e : Commands.Event ι} (h : Inv w) (hstep : Commands.step c w e = some w')
    (hcaller : e.caller ≠ some none) : Inv w' := by
  have hstage := step_others hstep hcaller
  refine ⟨fun result hresult => ?_, fun result hresult => ?_⟩
  · rw [hstage] at hresult
    exact step_dead hstep (h.tidying result hresult)
  · rw [hstage] at hresult
    exact step_clean hstep (h.returned result hresult)

theorem Inv.step {e : Event ι} (hforeground : c.origin = .run false false) (h : Inv w)
    (hcareful : Careful w e) (hstep : step c w e = some w') : Inv w' := by
  cases e with
  | superviseFails error =>
      simp only [Foreground.step] at hstep
      split at hstep
      next =>
        obtain rfl := Option.some.inj hstep
        exact inv_tidying (.inl (setStage_stage _)) hcareful
      next => cases hstep
  | command event =>
      by_cases hcaller : event.caller = some none
      · cases event with
        | call i answer =>
            obtain rfl : i = none := Option.some.inj hcaller
            exact inv_call hforeground h hcareful hstep
        | callFails i error =>
            obtain rfl : i = none := Option.some.inj hcaller
            exact inv_callFails (hcareful trivial) hstep
        | callerDies i executed =>
            obtain rfl : i = none := Option.some.inj hcaller
            exact inv_callerDies hstep
        | _ => cases hcaller
      · exact inv_others h hstep hcaller

end invariant

/-- A foreground run none of whose steps fails while something is left, and whose
`supervise` fails only with init dead, leaves nothing behind when it returns. -/
theorem returned_clean {c : Setup ι} (hforeground : c.origin = .run false false)
    {events : List (Event ι)} {w : World ι}
    (hrun : run (step c) (Commands.start c (.ok ())) events = some w)
    (hcareful : Along (step c) Careful (Commands.start c (.ok ())) events)
    {result : Except Error Nat} (hdone : w.stage none = .done result) : Clean w :=
  (run_invariant_along (fun _ _ _ h hok hstep => Inv.step hforeground h hok hstep)
    (inv_start hforeground) hrun hcareful).returned result hdone

/-! ## A run that returns early -/

/-- A step that fails ends the run and leaves everything as it is. -/
theorem failed_leaves {w w' : World ι} {error : Error}
    (hstep : callFails w none error = some w') :
    (∃ result, w'.stage none = .done result) ∧ (Clean w' ↔ Clean w) := by
  unfold callFails at hstep
  split at hstep
  all_goals
    first
    | cases hstep; done
    | (obtain rfl := Option.some.inj hstep
       exact ⟨⟨_, setStage_stage _⟩, by rw [clean_iff, clean_iff]; rfl⟩)

open HooksOnce in
def foreground : Setup Unit := pair (.run false false) (.delete false)

open HooksOnce in
/-- Init dies with the fifo open and nothing written. -/
def diesUnwritten : List (Event Unit) :=
  [own, own, own, .init, own, .initDies 0, own].map .command

open HooksOnce in
/-- Init is on its way, and the name of the fifo cannot be removed. -/
def unlinkRefused : List (Event Unit) :=
  [own, own, own, .init, own, .init, .init, own, .callFails none .syscall].map .command

theorem diesUnwritten_enabled :
    (run (step foreground) (Commands.start foreground (.ok ())) diesUnwritten).isSome := by rfl

theorem unlinkRefused_enabled :
    (run (step foreground) (Commands.start foreground (.ok ())) unlinkRefused).isSome := by rfl

/-- The directory is left behind, and init may be too. -/
theorem returned_unclean :
    (∃ w, run (step foreground) (Commands.start foreground (.ok ())) diesUnwritten = some w ∧
      (∃ result, w.stage none = .done result) ∧ w.stateFile = true) ∧
    ∃ w, run (step foreground) (Commands.start foreground (.ok ())) unlinkRefused = some w ∧
      (∃ result, w.stage none = .done result) ∧ w.stateFile = true ∧ w.fifo.init ≠ .dead := by
  refine ⟨⟨_, (Option.some_get diesUnwritten_enabled).symm, ⟨_, rfl⟩, rfl⟩,
    ⟨_, (Option.some_get unlinkRefused_enabled).symm, ⟨_, rfl⟩, rfl, ?_⟩⟩
  decide

open HooksOnce in
def wholeRun : List (Event Unit) := foregroundRun.map .command

theorem wholeRun_enabled :
    (run (step foreground) (Commands.start foreground (.ok ())) wholeRun).isSome := by rfl

theorem returned_clean_whole :
    Clean (Option.get _ wholeRun_enabled) :=
  returned_clean (c := foreground) rfl (Option.some_get wholeRun_enabled).symm (by decide) rfl

end Mars.Foreground
