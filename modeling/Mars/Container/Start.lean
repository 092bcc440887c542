import Mars.Container.Fifo

/-! # Starting happens once

The byte that init writes is a token: there is at most one of it, in the
buffer or with one caller, and every success needs it. Init's own open returns
only after some caller's open has begun.
-/

namespace Mars.Fifo
open NamedPipe Transition

/-- The caller has read the handshake and not given up since. -/
def Point.holds : Point → Bool
  | .removing => true
  | .poststart => true
  | .ok => true
  | _ => false

def InitPoint.beforeWrite : InitPoint → Bool
  | .openFifo => true
  | .opening => true
  | .writing => true
  | _ => false

/-- Init has come out of its open. -/
def InitPoint.metReader : InitPoint → Bool
  | .openFifo => false
  | .opening => false
  | .dead => false
  | _ => true

variable {ι : Type}

structure Inv (w : World ι) : Prop where
  written : w.wrote = true → w.init.beforeWrite = false
  unwritten : w.wrote = false → w.pipe.buffer = [] ∧ ∀ i, (w.caller i).holds = false
  single : w.pipe.buffer.length ≤ 1
  buffered : w.pipe.buffer ≠ [] → ∀ i, (w.caller i).holds = false
  holder : ∀ i j, (w.caller i).holds = true → (w.caller j).holds = true → i = j
  poststarts : w.poststarts = [] ∨ ∃ i, w.poststarts = [i] ∧ w.caller i = .ok
  executed : w.executed = 0 ∨ w.executed = 1 ∧ (w.init = .program ∨ w.init = .dead) ∧ w.opened ≠ []
  readers : w.pipe.readers ≠ [] → w.opened ≠ []
  met : none ∈ w.pipe.met → w.opened ≠ []
  running : w.init.metReader = true → w.opened ≠ []

theorem inv_created (id path : String) (entry : ι → Bool) : Inv (created id path entry) := by
  have hidle : ∀ i, ((created id path entry).caller i).holds = false := by
    intro i
    unfold created
    dsimp only
    split <;> rfl
  refine ⟨by simp [created], fun _ => ⟨rfl, hidle⟩, by simp [created, Pipe.fresh], fun _ => hidle,
    ?_, Or.inl rfl, Or.inl rfl, by simp [created, Pipe.fresh], by simp [created, Pipe.fresh],
    by simp [created, InitPoint.metReader]⟩
  intro i j hi
  rw [hidle i] at hi
  cases hi

variable [DecidableEq ι]

/-! ## Steps of one caller -/

section caller
variable {w : World ι} {i : ι} {point : Point} {pipe : Pipe (Option ι)} {opened : List ι}

/-- A caller without the token moves on, or gives the token up. -/
theorem Inv.caller (hw : Inv w) (hover : w.caller i ≠ .ok) (hpoint : point.holds = false)
    (hbuffer : pipe.buffer = w.pipe.buffer ∨ pipe.buffer = [])
    (hopened : w.opened ≠ [] → opened ≠ []) (hreaders : pipe.readers ≠ [] → opened ≠ [])
    (hmet : none ∈ pipe.met → opened ≠ []) :
    Inv { w.setCaller i point with pipe := pipe, opened := opened } := by
  have hpoints : ∀ j, (Function.update w.caller i point j).holds = true →
      (w.caller j).holds = true := by
    intro j hj
    by_cases heq : j = i
    · rw [heq, Function.update_self, hpoint] at hj
      cases hj
    · rwa [Function.update_of_ne heq] at hj
  have hnone : ∀ j, (w.caller j).holds = false →
      (Function.update w.caller i point j).holds = false := by
    intro j hj
    by_contra htrue
    have := hpoints j (by simpa using htrue)
    rw [hj] at this
    cases this
  constructor
  · exact hw.written
  · intro hwrote
    obtain ⟨hempty, hholds⟩ := hw.unwritten hwrote
    refine ⟨?_, fun j => hnone j (hholds j)⟩
    rcases hbuffer with hbuffer | hbuffer
    · exact hbuffer.trans hempty
    · exact hbuffer
  · show pipe.buffer.length ≤ 1
    rcases hbuffer with hbuffer | hbuffer
    · rw [hbuffer]
      exact hw.single
    · simp [hbuffer]
  · intro hfull j
    rcases hbuffer with hbuffer | hbuffer
    · exact hnone j (hw.buffered (hbuffer ▸ hfull) j)
    · exact absurd hbuffer hfull
  · intro j k hj hk
    exact hw.holder j k (hpoints j hj) (hpoints k hk)
  · rcases hw.poststarts with hnil | ⟨j, hone, hok⟩
    · exact Or.inl hnil
    · refine Or.inr ⟨j, hone, ?_⟩
      have hne : j ≠ i := fun heq => hover (heq ▸ hok)
      exact (Function.update_of_ne hne _ _).trans hok
  · rcases hw.executed with hzero | ⟨hone, hinit, hsome⟩
    · exact Or.inl hzero
    · exact Or.inr ⟨hone, hinit, hopened hsome⟩
  · exact hreaders
  · exact hmet
  · exact fun hinit => hopened (hw.running hinit)

theorem Inv.readers_close (hw : Inv w) (h : Option ι)
    (hreaders : (w.pipe.close h).readers ≠ []) : w.opened ≠ [] := by
  apply hw.readers
  intro hnil
  apply hreaders
  simp [Pipe.close, hnil]

theorem buffer_close (p : Pipe (Option ι)) (h : Option ι) :
    (p.close h).buffer = p.buffer ∨ (p.close h).buffer = [] := by
  unfold Pipe.close
  dsimp only
  split
  · exact Or.inr rfl
  · exact Or.inl rfl

theorem Inv.drop (hw : Inv w) (hover : w.caller i ≠ .ok) (hpoint : point.holds = false) :
    Inv (w.drop i point) :=
  hw.caller hover hpoint (buffer_close _ _) id (hw.readers_close _)
    (fun hmet => hw.met (mem_met_close hmet))

/-- The byte goes from the buffer to the caller that reads it. -/
theorem Inv.take {value : UInt8} (hw : Inv w) (hread : w.pipe.read = .byte value pipe) :
    Inv { w.setCaller i point with pipe := pipe } := by
  have hbuffer := read_byte hread
  have hnobody := hw.buffered (by simp [hbuffer])
  have hempty : pipe.buffer = [] := by
    have hlength := hw.single
    rw [hbuffer, List.length_cons] at hlength
    exact List.length_eq_zero_iff.mp (by omega)
  have hwrote : w.wrote = true := by
    by_contra hnot
    have := (hw.unwritten (by simpa using hnot)).1
    rw [hbuffer] at this
    cases this
  have hsame : pipe.readers = w.pipe.readers ∧ pipe.met = w.pipe.met := by
    unfold Pipe.read at hread
    split at hread
    next =>
      cases hread
      exact ⟨rfl, rfl⟩
    next => split at hread <;> cases hread
  have honly : ∀ j, (Function.update w.caller i point j).holds = true → j = i := by
    intro j hj
    by_contra hne
    rw [Function.update_of_ne hne, hnobody j] at hj
    cases hj
  constructor
  · exact hw.written
  · intro hnot
    cases hwrote.symm.trans hnot
  · simp [hempty]
  · exact fun hfull => absurd hempty hfull
  · intro j k hj hk
    rw [honly j hj, honly k hk]
  · rcases hw.poststarts with hnil | ⟨j, -, hok⟩
    · exact Or.inl hnil
    · have := hnobody j
      rw [hok] at this
      cases this
  · exact hw.executed
  · exact fun hreaders => hw.readers (hsame.1 ▸ hreaders)
  · exact fun hmet => hw.met (hsame.2 ▸ hmet)
  · exact hw.running

/-- The caller with the token goes on with it. -/
theorem Inv.keep (hw : Inv w) (hholds : (w.caller i).holds = true) (hover : w.caller i ≠ .ok)
    {poststarts : List ι}
    (hposts : poststarts = w.poststarts ∨ poststarts = i :: w.poststarts ∧ point = .ok)
    (hbuffer : pipe.buffer = w.pipe.buffer ∨ pipe.buffer = [])
    (hreaders : pipe.readers ≠ [] → w.opened ≠ []) (hmet : none ∈ pipe.met → w.opened ≠ []) :
    Inv { w.setCaller i point with pipe := pipe, poststarts := poststarts } := by
  have hempty : w.pipe.buffer = [] := by
    by_contra hfull
    have := hw.buffered hfull i
    rw [hholds] at this
    cases this
  have hempty' : pipe.buffer = [] := by
    rcases hbuffer with hbuffer | hbuffer
    · exact hbuffer.trans hempty
    · exact hbuffer
  have honly : ∀ j, (Function.update w.caller i point j).holds = true → j = i := by
    intro j hj
    by_contra hne
    rw [Function.update_of_ne hne] at hj
    exact hne (hw.holder j i hj hholds)
  -- nobody else has the token, so nobody has run the hooks
  have hnone : w.poststarts = [] := by
    rcases hw.poststarts with hnil | ⟨j, -, hok⟩
    · exact hnil
    · have hj : (w.caller j).holds = true := by
        rw [hok]
        rfl
      rw [hw.holder j i hj hholds] at hok
      exact absurd hok hover
  constructor
  · exact hw.written
  · intro hnot
    have := (hw.unwritten hnot).2 i
    rw [hholds] at this
    cases this
  · simp [hempty']
  · exact fun hfull => absurd hempty' hfull
  · intro j k hj hk
    rw [honly j hj, honly k hk]
  · rcases hposts with hsame | ⟨hmore, hok⟩
    · exact Or.inl (hsame.trans hnone)
    · refine Or.inr ⟨i, ?_, ?_⟩
      · rw [hmore, hnone]
      · show Function.update w.caller i point i = .ok
        rw [Function.update_self, hok]
  · exact hw.executed
  · exact hreaders
  · exact hmet
  · exact hw.running

end caller

theorem callStep_inv {w w' : World ι} {i : ι} (hw : Inv w) (h : callStep w i = some w') :
    Inv w' := by
  unfold callStep at h
  have hsame : ∀ point, w.caller i ≠ .ok → Point.holds point = false → Inv (w.setCaller i point) :=
    fun point hover hpoint => hw.caller hover hpoint (Or.inl rfl) id hw.readers hw.met
  cases hcaller : w.caller i with
  | requireCreated =>
      simp only [hcaller] at h
      split at h
      · exact Option.some.inj h ▸ hsame .checkExists (by simp [hcaller]) rfl
      · exact Option.some.inj h ▸ hw.drop (by simp [hcaller]) rfl
  | checkExists =>
      simp only [hcaller] at h
      split at h
      · exact Option.some.inj h ▸ hsame .openFifo (by simp [hcaller]) rfl
      · exact Option.some.inj h ▸ hw.drop (by simp [hcaller]) rfl
  | openFifo =>
      simp only [hcaller] at h
      split at h
      · rw [← Option.some.inj h]
        exact hw.caller (by simp [hcaller]) rfl (Or.inl rfl) (by simp) (by simp) (by simp)
      · exact Option.some.inj h ▸ hw.drop (by simp [hcaller]) rfl
  | opening =>
      simp only [hcaller] at h
      split at h
      · exact Option.some.inj h ▸ hsame .reading (by simp [hcaller]) rfl
      · cases h
  | reading =>
      simp only [hcaller] at h
      split at h
      next value rest hread =>
        split at h
        · exact Option.some.inj h ▸ hw.take hread
        · have htaken : Inv { w.setCaller i .removing with pipe := rest } :=
            hw.take hread
          have hdropped : Inv (World.drop { w.setCaller i .removing with pipe := rest } i
              (.failed (unexpectedError value))) := htaken.drop (by simp [World.setCaller]) rfl
          rw [← Option.some.inj h]
          simpa [World.fail, World.drop, World.setCaller] using hdropped
      next => exact Option.some.inj h ▸ hw.drop (by simp [hcaller]) rfl
      next => cases h
  | removing =>
      simp only [hcaller] at h
      split at h
      · rw [← Option.some.inj h]
        exact hw.keep (by simp [hcaller, Point.holds]) (by simp [hcaller]) (Or.inl rfl)
          (buffer_close _ _) (hw.readers_close _) (fun hmet => hw.met (mem_met_close hmet))
      · exact Option.some.inj h ▸ hw.drop (by simp [hcaller]) rfl
  | poststart =>
      simp only [hcaller] at h
      rw [← Option.some.inj h]
      exact hw.keep (by simp [hcaller, Point.holds]) (by simp [hcaller])
        (Or.inr ⟨rfl, rfl⟩) (Or.inl rfl) hw.readers hw.met
  | ok => simp [hcaller] at h
  | failed error => simp [hcaller] at h
  | died => simp [hcaller] at h

/-! ## Steps of init -/

/-- Init exits, in whichever way. -/
theorem Inv.initExit {w : World ι} (hw : Inv w) : Inv w.initExit := by
  constructor
  · exact fun _ => rfl
  · intro hwrote
    obtain ⟨hempty, hholds⟩ := hw.unwritten hwrote
    refine ⟨?_, hholds⟩
    rcases buffer_close w.pipe none with hbuffer | hbuffer
    · exact hbuffer.trans hempty
    · exact hbuffer
  · exact Nat.le_trans (buffer_close_length _ _) hw.single
  · intro hfull
    rcases buffer_close w.pipe none with hbuffer | hbuffer
    · exact hw.buffered (hbuffer ▸ hfull)
    · exact absurd hbuffer hfull
  · exact hw.holder
  · exact hw.poststarts
  · rcases hw.executed with hzero | ⟨hone, -, hsome⟩
    · exact Or.inl hzero
    · exact Or.inr ⟨hone, Or.inr rfl, hsome⟩
  · exact hw.readers_close none
  · exact fun hmet => hw.met (mem_met_close hmet)
  · intro hmet
    cases hmet

omit [DecidableEq ι] in
theorem Inv.unexecuted {w : World ι} (hw : Inv w) (hprogram : w.init ≠ .program)
    (hdead : w.init ≠ .dead) : w.executed = 0 := by
  rcases hw.executed with hzero | ⟨-, hinit, -⟩
  · exact hzero
  · rcases hinit with hinit | hinit
    · exact absurd hinit hprogram
    · exact absurd hinit hdead

omit [DecidableEq ι] in
/-- Init goes on without touching the buffer. -/
theorem Inv.initMove {w : World ι} {point : InitPoint} {pipe : Pipe (Option ι)} (hw : Inv w)
    (hexecuted : w.executed = 0) (hwritten : w.wrote = true → point.beforeWrite = false)
    (hbuffer : pipe.buffer = w.pipe.buffer ∨ pipe.buffer = [])
    (hreaders : pipe.readers ≠ [] → w.opened ≠ []) (hmet : none ∈ pipe.met → w.opened ≠ [])
    (hrunning : point.metReader = true → w.opened ≠ []) :
    Inv { w with init := point, pipe := pipe } := by
  constructor
  · exact hwritten
  · intro hwrote
    obtain ⟨hempty, hholds⟩ := hw.unwritten hwrote
    refine ⟨?_, hholds⟩
    rcases hbuffer with hbuffer | hbuffer
    · exact hbuffer.trans hempty
    · exact hbuffer
  · show pipe.buffer.length ≤ 1
    rcases hbuffer with hbuffer | hbuffer
    · rw [hbuffer]
      exact hw.single
    · simp [hbuffer]
  · intro hfull
    rcases hbuffer with hbuffer | hbuffer
    · exact hw.buffered (hbuffer ▸ hfull)
    · exact absurd hbuffer hfull
  · exact hw.holder
  · exact hw.poststarts
  · exact Or.inl hexecuted
  · exact hreaders
  · exact hmet
  · exact hrunning

omit [DecidableEq ι] in
/-- The one write puts the token into the empty buffer. -/
theorem Inv.initWrite {w : World ι} {pipe : Pipe (Option ι)} (hw : Inv w)
    (hinit : w.init = .writing) (hwrite : w.pipe.write HANDSHAKE = some pipe) :
    Inv { w with init := .closing, pipe := pipe, wrote := true } := by
  have hunwritten : w.wrote = false := by
    by_contra hwrote
    have := hw.written (by simpa using hwrote)
    rw [hinit] at this
    cases this
  obtain ⟨hempty, hholds⟩ := hw.unwritten hunwritten
  have hbuffer := buffer_write hwrite
  have hopened : w.opened ≠ [] := hw.running (by rw [hinit]; rfl)
  constructor
  · exact fun _ => rfl
  · intro hnot
    cases hnot
  · show pipe.buffer.length ≤ 1
    simp [hbuffer, hempty]
  · exact fun _ => hholds
  · exact hw.holder
  · exact hw.poststarts
  · exact Or.inl (hw.unexecuted (by simp [hinit]) (by simp [hinit]))
  · exact fun _ => hopened
  · exact fun _ => hopened
  · exact fun _ => hopened

theorem initStep_inv {w w' : World ι} (hw : Inv w) (h : initStep w = some w') : Inv w' := by
  unfold initStep at h
  cases hinit : w.init with
  | openFifo =>
      simp only [hinit] at h
      rw [← Option.some.inj h]
      refine hw.initMove (hw.unexecuted (by simp [hinit]) (by simp [hinit])) ?_ (Or.inl rfl)
        hw.readers ?_ (by simp [InitPoint.metReader])
      · intro hwrote
        have := hw.written hwrote
        rw [hinit] at this
        cases this
      · intro hmet
        rcases mem_met_beginWrite hmet with hmet | hreaders
        · exact hw.met hmet
        · exact hw.readers hreaders
  | opening =>
      simp only [hinit] at h
      split at h
      next hmet =>
        rw [← Option.some.inj h]
        refine hw.initMove (hw.unexecuted (by simp [hinit]) (by simp [hinit])) ?_ (Or.inl rfl)
          hw.readers hw.met (fun _ => hw.met hmet)
        intro hwrote
        have := hw.written hwrote
        rw [hinit] at this
        cases this
      next => cases h
  | writing =>
      simp only [hinit] at h
      split at h
      next pipe hwrite => exact Option.some.inj h ▸ hw.initWrite hinit hwrite
      next => exact Option.some.inj h ▸ hw.initExit
  | closing =>
      simp only [hinit] at h
      rw [← Option.some.inj h]
      exact hw.initMove (hw.unexecuted (by simp [hinit]) (by simp [hinit])) (fun _ => rfl)
        (buffer_close _ _) (hw.readers_close none) (fun hmet => hw.met (mem_met_close hmet))
        (fun _ => hw.running (by rw [hinit]; rfl))
  | startContainer =>
      simp only [hinit] at h
      rw [← Option.some.inj h]
      exact hw.initMove (hw.unexecuted (by simp [hinit]) (by simp [hinit])) (fun _ => rfl)
        (Or.inl rfl) hw.readers hw.met (fun _ => hw.running (by rw [hinit]; rfl))
  | unblock =>
      simp only [hinit] at h
      rw [← Option.some.inj h]
      exact hw.initMove (hw.unexecuted (by simp [hinit]) (by simp [hinit])) (fun _ => rfl)
        (Or.inl rfl) hw.readers hw.met (fun _ => hw.running (by rw [hinit]; rfl))
  | execve =>
      simp only [hinit] at h
      rw [← Option.some.inj h]
      have hopened : w.opened ≠ [] := hw.running (by rw [hinit]; rfl)
      have hzero := hw.unexecuted (by simp [hinit]) (by simp [hinit])
      exact ⟨fun _ => rfl, hw.unwritten, hw.single, hw.buffered, hw.holder, hw.poststarts,
        Or.inr ⟨by simp [hzero], Or.inl rfl, hopened⟩, hw.readers, hw.met, fun _ => hopened⟩
  | program => simp [hinit] at h
  | dead => simp [hinit] at h

theorem step_inv {w w' : World ι} {e : Event ι} (hw : Inv w) (h : step w e = some w') :
    Inv w' := by
  cases e with
  | call i => exact callStep_inv hw h
  | callFails i error =>
      simp only [step] at h
      split at h
      next => cases h
      next hrunning =>
        rw [← Option.some.inj h]
        exact hw.drop (fun hok => hrunning (by simp [hok, Point.over])) rfl
  | callerDies i =>
      simp only [step] at h
      split at h
      next => cases h
      next hrunning =>
        rw [← Option.some.inj h]
        exact hw.drop (fun hok => hrunning (by simp [hok, Point.over])) rfl
  | init => exact initStep_inv hw h
  | initFails =>
      simp only [step] at h
      split at h
      · cases h
      · exact Option.some.inj h ▸ hw.initExit
  | initDies =>
      simp only [step] at h
      split at h
      · cases h
      · exact Option.some.inj h ▸ hw.initExit

theorem run_inv {id path : String} {entry : ι → Bool} {events : List (Event ι)} {w : World ι}
    (h : run step (created id path entry) events = some w) : Inv w :=
  run_invariant (fun _ _ _ => step_inv) (inv_created id path entry) h

/-! ## A dead init stays dead -/

/-- Calls leave init and what it wrote alone. -/
theorem callStep_init {w w' : World ι} {i : ι} (h : callStep w i = some w') :
    w'.init = w.init ∧ w'.wrote = w.wrote := by
  unfold callStep at h
  repeat' split at h
  all_goals first
    | cases h; done
    | (rw [← Option.some.inj h]; exact ⟨rfl, rfl⟩)

/-- A call moves its own caller alone. -/
theorem callStep_other {w w' : World ι} {i j : ι} (h : callStep w i = some w') (hne : j ≠ i) :
    w'.caller j = w.caller j := by
  unfold callStep at h
  repeat' split at h
  all_goals first
    | cases h; done
    | (rw [← Option.some.inj h]; exact Function.update_of_ne hne _ _)

theorem initStep_caller {w w' : World ι} (h : initStep w = some w') : w'.caller = w.caller := by
  unfold initStep at h
  repeat' split at h
  all_goals first
    | cases h; done
    | exact Option.some.inj h ▸ rfl

/-- Init died with nothing written. -/
def DiedUnwritten (w : World ι) : Prop := w.init = .dead ∧ w.wrote = false

theorem step_diedUnwritten {w w' : World ι} {e : Event ι} (hw : DiedUnwritten w)
    (h : step w e = some w') : DiedUnwritten w' := by
  cases e with
  | call i =>
      obtain ⟨hinit, hwrote⟩ := callStep_init h
      exact ⟨hinit.trans hw.1, hwrote.trans hw.2⟩
  | callFails i error =>
      simp only [step] at h
      split at h
      · cases h
      · exact Option.some.inj h ▸ hw
  | callerDies i =>
      simp only [step] at h
      split at h
      · cases h
      · exact Option.some.inj h ▸ hw
  | init => simp [step, initStep, hw.1] at h
  | initFails => simp [step, hw.1] at h
  | initDies => simp [step, hw.1] at h

/-- Whatever the interleaving: one success at most and only on init's byte, one
execution at most and only after some open, the hooks once at most, and no
success after a death that came before the byte. -/
theorem start_exactly_once {id path : String} {entry : ι → Bool} {events : List (Event ι)}
    {w : World ι} (h : run step (created id path entry) events = some w) :
    (∀ i j, w.caller i = .ok → w.caller j = .ok → i = j) ∧
    (∀ i, w.caller i = .ok → w.wrote = true) ∧
    w.executed ≤ 1 ∧ (w.executed ≠ 0 → w.opened ≠ []) ∧ w.poststarts.length ≤ 1 ∧
    (DiedUnwritten w → ∀ later w', run step w later = some w' → ∀ i, w'.caller i ≠ .ok) := by
  have hw := run_inv h
  have hneeds : ∀ {w : World ι}, Inv w → ∀ i, w.caller i = .ok → w.wrote = true := by
    intro w hw i hok
    by_contra hnot
    have := (hw.unwritten (by simpa using hnot)).2 i
    rw [hok] at this
    cases this
  refine ⟨?_, hneeds hw, ?_, ?_, ?_, ?_⟩
  · intro i j hi hj
    apply hw.holder i j
    · rw [hi]
      rfl
    · rw [hj]
      rfl
  · rcases hw.executed with hzero | ⟨hone, -, -⟩
    · omega
    · omega
  · intro hsome
    rcases hw.executed with hzero | ⟨-, -, hopened⟩
    · exact absurd hzero hsome
    · exact hopened
  · rcases hw.poststarts with hnil | ⟨i, hone, -⟩
    · simp [hnil]
    · simp [hone]
  · intro hdied later w' hrun i hok
    have hlater := run_invariant (fun _ _ _ => step_inv) hw hrun
    have hstill := run_invariant (fun _ _ _ => step_diedUnwritten) hdied hrun
    have hwrote := hneeds hlater i hok
    rw [hstill.2] at hwrote
    cases hwrote

/-- Two starts at once: the first gets the byte, the second finds the pipe closed. -/
def twoStarts : List (Event Bool) :=
  [.call true, .call true, .call false, .call false, .call true, .init, .call false, .init,
    .call true, .call false, .init, .init, .call true, .call false, .call true, .call true,
    .init, .init, .init]

theorem start_exactly_once_two :
    ∃ w, run step (created "c1" "/run/mars/c1/exec.fifo" fun _ => true) twoStarts = some w ∧
      w.caller true = .ok ∧ w.caller false = .failed closedError ∧ w.executed = 1 ∧
      w.poststarts.length ≤ 1 :=
  ⟨_, rfl, rfl, rfl, rfl,
    (start_exactly_once (show run step
      (created "c1" "/run/mars/c1/exec.fifo" fun _ => true) twoStarts = some _ from
        rfl)).2.2.2.2.1⟩

end Mars.Fifo
