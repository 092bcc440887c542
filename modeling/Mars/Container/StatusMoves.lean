import Mars.Container.Lifecycle
import Mars.Core.Transition

/-! # The derived status as a state machine

As long as nothing but a start touches the fifo and nothing but a create the
state file, the four facts the status is read from move along the lifecycle.
-/

namespace Mars.Lifecycle
open UnixPath Paths V2 State

variable (place : Place)

/-! ## The condition -/

/-- No update and no pid file is written over the container's own files, and no
delete that fails takes the fifo of a live container and leaves its state file. -/
def Careful (w : World) : Event → Prop
  | .update resources _ =>
      match w.load place with
      | .ok container => ∀ setting ∈ settings resources,
          place.tree (join container.cgroup.path setting.1) = none
      | .error _ => True
  | .exec _ (some path) _ _ => place.tree path = none
  | .delete true _ dies (.partly true false _) =>
      w.fifo = true → w.status place ≠ some .stopped → dies = true
  | _ => True

instance (w : World) (e : Event) : Decidable (Careful place w e) := by
  unfold Careful
  split
  · split <;> infer_instance
  · infer_instance
  · infer_instance
  · infer_instance

/-! ## The status from the facts -/

def World.Alive (w : World) (record : Persisted) : Prop :=
  (w.procs record.pid).map UInt64.toNat = some record.startTime

instance (w : World) (record : Persisted) : Decidable (w.Alive record) :=
  inferInstanceAs (Decidable (_ = _))

def statusOf (alive frozen fifo : Bool) : Status :=
  if !alive then .stopped else if frozen then .paused else if fifo then .created else .running

section status
variable {place} {w : World} {container : Container} {record : Persisted}

theorem frozen_eventsText (frozen : Bool) :
    ((Events.get (Events.parseFlatKeyed (eventsText frozen).toList) "frozen").getD 0 == 1) =
      frozen := by
  cases frozen <;> decide

theorem isFrozen_host : isFrozen (w.host place container) container.cgroup = w.frozen := by
  have hread : (w.host place container).cgroupFile (join container.cgroup.path "cgroup.events") =
      some (eventsText w.frozen) := if_pos rfl
  rw [isFrozen, hread]
  exact frozen_eventsText w.frozen

theorem alive_host :
    container.alive (w.host place container) = decide (w.Alive container.state) := by
  let table : Table := fun pid => (w.procs pid).map procOf
  have hstat : startTime (w.host place container) container.state.pid =
      startTime table.host container.state.pid := by
    simp [startTime, World.host, Table.host, table, Option.map_map, Function.comp_def]
  have halive : container.alive (w.host place container) = container.alive table.host := by
    rw [Container.alive, hstat, Container.alive]
  rw [halive, Bool.eq_iff_iff, Container.alive_iff, decide_eq_true_iff, World.Alive]
  constructor
  · rintro ⟨p, hp, hstart, -⟩
    obtain ⟨time, htime, rfl⟩ := Option.map_eq_some_iff.mp hp
    rw [htime]
    exact congrArg some hstart
  · intro h
    obtain ⟨time, htime, hstart⟩ := Option.map_eq_some_iff.mp h
    exact ⟨procOf time, by simp [table, htime], hstart, "init".isValidUTF8⟩

theorem status_host (hlayout : container.layout = place.layout)
    (hid : container.state.id = place.id) :
    container.status (w.host place container) =
      statusOf (decide (w.Alive container.state)) w.frozen w.fifo := by
  have hpath : (w.host place container).pathExists container.execFifo = w.fifo := by
    simp [World.host, Container.execFifo, hlayout, hid]
  rw [Container.status, alive_host, isFrozen_host, hpath, statusOf]

theorem load_holds (h : w.stateFile = .holds record) :
    w.load place = .ok { layout := place.layout, state := record } := by
  rw [World.load, h]

theorem load_ok (h : w.load place = .ok container) :
    w.stateFile = .holds container.state ∧ container.layout = place.layout := by
  unfold World.load at h
  split at h
  next => cases h
  next => cases h
  next record hfile => cases h; exact ⟨hfile, rfl⟩

theorem status_holds (h : w.stateFile = .holds record) (hid : record.id = place.id) :
    w.status place = some (statusOf (decide (w.Alive record)) w.frozen w.fifo) := by
  rw [World.status, load_holds h]
  exact congrArg some (status_host rfl hid)

theorem status_some {s : Status} (h : w.status place = some s) :
    ∃ record, w.stateFile = .holds record := by
  unfold World.status at h
  split at h
  next => cases h
  next container hload => exact ⟨_, (load_ok hload).1⟩

end status

/-! ## What one event can do -/

structure Made (w w' : World) : Prop where
  absent : w.stateFile = .absent
  holds : ∃ record, w'.stateFile = .holds record ∧ record.id = place.id
  fifo : w'.fifo = true
  started : w'.started = false
  beforePause : w'.beforePause = none
  life : w'.life ≠ w.life

structure Started (w w' : World) : Prop where
  created : w.status place = some .created
  changed : w' = { w with fifo := false, started := true, beforePause := none, result := .ok () }

/-- Nothing that the status depends on changes but the freezer and the death of init. -/
structure Keeps (w w' : World) : Prop where
  file : w'.stateFile = w.stateFile ∨ w'.stateFile = .absent
  alive : ∀ record, w.stateFile = .holds record → w'.Alive record → w.Alive record
  fifo : ∀ record, w'.stateFile = .holds record → w'.Alive record → w'.fifo = w.fifo
  started : w'.started = w.started
  beforePause : w'.beforePause = w.beforePause ∨ w'.beforePause = w.status place ∧
    (w.status place = some .created ∨ w.status place = some .running)

section step
variable {place} {w w' : World} {container : Container} {record : Persisted}

theorem Keeps.refl : Keeps place w w :=
  ⟨Or.inl rfl, fun _ _ h => h, fun _ _ _ => rfl, rfl, Or.inl rfl⟩

theorem Keeps.finish {result : Except Error Unit} (h : Keeps place w w') :
    Keeps place w (w'.finish result) :=
  ⟨h.file, h.alive, h.fifo, h.started, h.beforePause⟩

theorem Keeps.frozen (h : Keeps place w w') (frozen : Bool) :
    Keeps place w { w' with frozen := frozen } :=
  ⟨h.file, h.alive, h.fifo, h.started, h.beforePause⟩

/-- A table in which nobody comes to life leaves everything else alone. -/
theorem Keeps.procs {procs : Int → Option UInt64}
    (h : ∀ record, w.stateFile = .holds record →
      World.Alive { w with procs := procs } record → w.Alive record) :
    Keeps place w { w with procs := procs } :=
  ⟨Or.inl rfl, h, fun _ _ _ => rfl, rfl, Or.inl rfl⟩

theorem Keeps.freeze {cgroup : Cgroup} {frozen : Bool} {outcome : Freeze} (h : Keeps place w w') :
    Keeps place w (freeze w' cgroup frozen outcome).1 := by
  cases outcome with
  | reached => exact h.frozen frozen
  | refused error => exact h
  | late => exact h

theorem not_alive_of_update {time : Option UInt64} {pid : Int} (hpid : record.pid = pid)
    (htime : time.map UInt64.toNat ≠ some record.startTime) :
    ¬ World.Alive { w with procs := Function.update w.procs pid time } record := by
  intro halive
  have hself : Function.update w.procs pid time record.pid = time := by
    rw [hpid, Function.update_self]
  exact htime (hself ▸ halive)

theorem alive_of_update {time : Option UInt64} {pid : Int} (hpid : record.pid ≠ pid)
    (halive : World.Alive { w with procs := Function.update w.procs pid time } record) :
    w.Alive record := by
  have hother : Function.update w.procs pid time record.pid = w.procs record.pid :=
    Function.update_of_ne hpid _ _
  have hread : (Function.update w.procs pid time record.pid).map UInt64.toNat =
      some record.startTime := halive
  rw [hother] at hread
  exact hread

theorem keeps_exit (pid : Int) :
    Keeps place w { w with procs := Function.update w.procs pid none } := by
  apply Keeps.procs
  intro record _ halive
  by_cases hpid : record.pid = pid
  · exact absurd halive (not_alive_of_update hpid (by simp))
  · exact alive_of_update hpid halive

/-- Whoever takes the recorded pid is told apart by its start time. -/
theorem keeps_spawn {pid : Int} {time : UInt64} (hmay : w.mayStart pid time = true) :
    Keeps place w { w with procs := Function.update w.procs pid (some time) } := by
  apply Keeps.procs
  intro record hfile halive
  by_cases hpid : record.pid = pid
  · have htime : record.startTime ≠ time.toNat := by
      simp only [World.mayStart, hfile, hpid, Bool.and_eq_true, Bool.or_eq_true, ne_eq,
        not_true_eq_false, decide_false, Bool.false_eq_true, false_or, decide_eq_true_eq] at hmay
      exact hmay.2
    exact absurd halive (not_alive_of_update hpid (by simpa using htime.symm))
  · exact alive_of_update hpid halive

/-- A command either stops before it does anything or goes on in a status it expects. -/
theorem requiring_cases {expected : List Status} {act : Container → World}
    (h : w.requiring place expected act = w') :
    (∃ result, w' = w.finish (.error result)) ∨
      ∃ container, w.load place = .ok container ∧
        container.status (w.host place container) ∈ expected ∧ w' = act container := by
  unfold World.requiring at h
  split at h
  next => exact Or.inl ⟨_, h.symm⟩
  next container hload =>
    split at h
    next => exact Or.inl ⟨_, h.symm⟩
    next actual hrequire =>
      obtain ⟨hstatus, hmem⟩ := Container.require_ok_iff.mp hrequire
      exact Or.inr ⟨container, hload, hstatus ▸ hmem, h.symm⟩

theorem status_of_load (h : w.load place = .ok container) :
    w.status place = some (container.status (w.host place container)) := by
  rw [World.status, h]

theorem create_cases {made : Except Error Persisted} (h : create place w made = some w') :
    Made place w w' ∨ Keeps place w w' := by
  unfold create at h
  split at h
  next habsent =>
    split at h
    next => cases h; exact Or.inr Keeps.refl.finish
    next record =>
      split at h
      next hrecord =>
        cases h
        exact Or.inl ⟨habsent, ⟨record, rfl, hrecord.1⟩, rfl, rfl, rfl, Nat.succ_ne_self _⟩
      next => cases h
  next =>
    split at h
    next => cases h; exact Or.inr Keeps.refl.finish
    next => cases h; exact Or.inr Keeps.refl.finish

theorem start_cases {fault : Option Error} (h : start place w fault = w') :
    Started place w w' ∨ Keeps place w w' := by
  rcases requiring_cases h with ⟨error, rfl⟩ | ⟨container, hload, hstatus, rfl⟩
  · exact Or.inr Keeps.refl.finish
  · cases fault with
    | some error => exact Or.inr Keeps.refl.finish
    | none =>
        have hcreated := List.mem_singleton.mp hstatus
        exact Or.inl ⟨by rw [status_of_load hload, hcreated], rfl⟩

theorem keeps_pause {paused : Bool} {outcome : Freeze} (h : pause place w paused outcome = w') :
    Keeps place w w' := by
  rcases requiring_cases h with ⟨error, rfl⟩ | ⟨container, hload, hstatus, rfl⟩
  · exact Keeps.refl.finish
  · have hfreeze : Keeps place w (freeze w container.cgroup paused outcome).1 := Keeps.refl.freeze
    split
    next heq => rw [heq] at hfreeze; exact hfreeze.finish
    next heq =>
      rw [heq] at hfreeze
      refine ⟨hfreeze.file, hfreeze.alive, hfreeze.fifo, hfreeze.started, ?_⟩
      cases paused with
      | false => exact hfreeze.beforePause
      | true =>
          refine Or.inr ⟨rfl, ?_⟩
          rw [status_of_load hload]
          simpa using hstatus

theorem keeps_kill {all : Bool} {freezing thawing : Freeze} {sent : Except Error Unit}
    (h : kill place w all freezing thawing sent = w') : Keeps place w w' := by
  rcases requiring_cases h with ⟨error, rfl⟩ | ⟨container, -, -, rfl⟩
  · exact Keeps.refl.finish
  · have hfreeze : Keeps place w (freeze w container.cgroup true freezing).1 := Keeps.refl.freeze
    split
    next => exact Keeps.refl.finish
    next =>
      split
      next heq => rw [heq] at hfreeze; exact hfreeze.finish
      next w₁ heq =>
        rw [heq] at hfreeze
        have hthaw : Keeps place w (freeze w₁ container.cgroup false thawing).1 := hfreeze.freeze
        split
        next heq' => rw [heq'] at hthaw; exact hthaw.finish
        next heq' => rw [heq'] at hthaw; exact hthaw.finish

theorem touch_none {write : Write} (h : place.tree write.target = none) :
    touch place w write = w := by
  rw [touch, h]

theorem foldl_touch {written : List Write}
    (h : ∀ write ∈ written, place.tree write.target = none) :
    written.foldl (touch place) w = w := by
  induction written with
  | nil => rfl
  | cons write rest ih =>
      rw [List.foldl_cons, touch_none (h write List.mem_cons_self)]
      exact ih fun other hother => h other (List.mem_cons_of_mem _ hother)

theorem keeps_update {resources : LinuxResources} {fails : Write → Bool}
    (hcareful : Careful place w (.update resources fails))
    (h : update place w resources fails = w') : Keeps place w w' := by
  rcases requiring_cases h with ⟨error, rfl⟩ | ⟨container, hload, -, rfl⟩
  · exact Keeps.refl.finish
  · have hkept : ∀ write ∈ (container.cgroup.apply fails resources).1,
        place.tree write.target = none := by
      intro write hwrite
      obtain ⟨setting, hmem, htarget, -, -⟩ := mem_writeAll hwrite
      simp only [Careful, hload] at hcareful
      rw [htarget]
      exact hcareful setting hmem
    show Keeps place w (World.finish
      (List.foldl (touch place) w (container.cgroup.apply fails resources).1) _)
    rw [foldl_touch hkept]
    exact Keeps.refl.finish

theorem keeps_exec {ignorePaused : Bool} {pidFile : Option String} {early : Option Error}
    {late : Except Error Unit} (hcareful : Careful place w (.exec ignorePaused pidFile early late)) :
    Keeps place w (exec place w ignorePaused pidFile early late) := by
  unfold exec
  split
  next => exact Keeps.refl.finish
  next =>
    dsimp only
    split
    next => exact Keeps.refl.finish
    next =>
      split
      next => exact Keeps.refl.finish
      next =>
        cases early with
        | some error => exact Keeps.refl.finish
        | none =>
            cases pidFile with
            | none => exact Keeps.refl.finish
            | some path =>
                have htouch : touch place w { target := path, value := "" } = w :=
                  touch_none hcareful
                dsimp only
                rw [htouch]
                exact Keeps.refl.finish

/-- A removal that leaves the state file leaves the fifo, unless init is gone. -/
theorem Keeps.remove {removal : Removal} (h : Keeps place w w')
    (hlive : ∀ record error, removal = .partly true false error → w.fifo = true →
      w.stateFile = .holds record → ¬ w'.Alive record) :
    Keeps place w (w'.remove removal) := by
  cases removal with
  | complete =>
      refine ⟨Or.inr rfl, h.alive, ?_, h.started, h.beforePause⟩
      intro record hfile
      cases hfile
  | partly fifo stateFile error =>
      refine ⟨?_, h.alive, ?_, h.started, h.beforePause⟩
      · cases stateFile with
        | true => exact Or.inr rfl
        | false => exact h.file
      · intro record hfile halive
        cases stateFile with
        | true => cases hfile
        | false =>
            have hold : w'.fifo = w.fifo := h.fifo record hfile halive
            have hfile' : w'.stateFile = .holds record := hfile
            show (w'.fifo && !fifo) = w.fifo
            rw [hold]
            cases hfifo : w.fifo with
            | false => rfl
            | true =>
                cases fifo with
                | false => rfl
                | true =>
                    rcases h.file with hsame | habsent
                    · exact absurd halive (hlive record error rfl hfifo (hsame ▸ hfile'))
                    · rw [habsent] at hfile'
                      cases hfile'

theorem stopped_iff :
    container.status (w.host place container) = .stopped ↔ ¬ w.Alive container.state := by
  rw [Container.status_stopped_iff, alive_host]
  simp

theorem Keeps.killed (h : Keeps place w w') (pid : Int) (dies : Bool) :
    Keeps place w (w'.killed pid dies) := by
  cases dies with
  | false => exact h
  | true =>
      refine ⟨h.file, ?_, ?_, h.started, h.beforePause⟩
      · intro record hfile halive
        by_cases hpid : record.pid = pid
        · exact absurd halive (not_alive_of_update hpid (by simp))
        · exact h.alive record hfile (alive_of_update hpid halive)
      · intro record hfile halive
        by_cases hpid : record.pid = pid
        · exact absurd halive (not_alive_of_update hpid (by simp))
        · exact h.fifo record hfile (alive_of_update hpid halive)

/-- The end of a delete that had to kill. -/
theorem keeps_forced {dies : Bool} {removal : Removal} {thawing : Freeze}
    (hcareful : Careful place w (.delete true thawing dies removal))
    (hload : w.load place = .ok container)
    (hstatus : container.status (w.host place container) ≠ .stopped) (h : Keeps place w w') :
    Keeps place w ((w'.killed container.state.pid dies).remove removal) := by
  apply (h.killed container.state.pid dies).remove
  intro record error hremoval hfifo hfile
  subst hremoval
  have hdies : dies = true := by
    apply hcareful hfifo
    rw [status_of_load hload]
    simpa using hstatus
  have hrecord : record = container.state := by
    have := (load_ok hload).1
    rw [hfile] at this
    exact StateFile.holds.inj this
  subst hdies hrecord
  exact not_alive_of_update rfl (by simp)

theorem keeps_delete {force : Bool} {thawing : Freeze} {dies : Bool} {removal : Removal}
    (hcareful : Careful place w (.delete force thawing dies removal)) :
    Keeps place w (delete place w force thawing dies removal) := by
  unfold delete
  split
  next =>
    split
    next => exact Keeps.refl.finish
    next => exact Keeps.refl.finish
  next container hload =>
    dsimp only
    by_cases hstopped : container.status (w.host place container) = .stopped
    · rw [if_pos hstopped]
      apply Keeps.refl.remove
      intro record error _ _ hfile
      have hrecord : record = container.state := by
        have := (load_ok hload).1
        rw [hfile] at this
        exact StateFile.holds.inj this
      rw [hrecord]
      exact stopped_iff.mp hstopped
    · rw [if_neg hstopped]
      cases force with
      | false => exact Keeps.refl.finish
      | true =>
          simp only [Bool.true_eq_false, ↓reduceIte]
          split
          next =>
            have hthaw : Keeps place w (freeze w container.cgroup false thawing).1 :=
              Keeps.refl.freeze
            split
            next heq => rw [heq] at hthaw; exact hthaw.finish
            next heq =>
              rw [heq] at hthaw
              exact keeps_forced hcareful hload hstopped hthaw
          next => exact keeps_forced hcareful hload hstopped Keeps.refl

/-- Everything an event can do, as far as the status is concerned. -/
theorem step_cases {e : Event} (hcareful : Careful place w e) (h : step place w e = some w') :
    Made place w w' ∨ Started place w w' ∨ Keeps place w w' := by
  cases e with
  | exit pid => exact Or.inr (Or.inr (Option.some.inj h ▸ keeps_exit pid))
  | spawn pid time =>
      simp only [step] at h
      split at h
      next hmay => exact Or.inr (Or.inr (Option.some.inj h ▸ keeps_spawn hmay))
      next => cases h
  | freezer frozen => exact Or.inr (Or.inr (Option.some.inj h ▸ Keeps.refl.frozen frozen))
  | create made =>
      rcases create_cases h with hmade | hkeeps
      · exact Or.inl hmade
      · exact Or.inr (Or.inr hkeeps)
  | start fault => exact Or.inr (start_cases (Option.some.inj h))
  | pause paused outcome => exact Or.inr (Or.inr (keeps_pause (Option.some.inj h)))
  | kill all freezing thawing sent => exact Or.inr (Or.inr (keeps_kill (Option.some.inj h)))
  | update resources fails =>
      exact Or.inr (Or.inr (keeps_update hcareful (Option.some.inj h)))
  | exec ignorePaused pidFile early late =>
      exact Or.inr (Or.inr (Option.some.inj h ▸ keeps_exec hcareful))
  | delete force thawing dies removal =>
      exact Or.inr (Or.inr (Option.some.inj h ▸ keeps_delete hcareful))

end step

/-! ## The invariant -/

/-- The fifo is there exactly until a start succeeds, and what a pause found is
what the container will show again once it is thawed. -/
structure Inv (w : World) : Prop where
  own : ∀ record, w.stateFile = .holds record → record.id = place.id
  fifo : ∀ record, w.stateFile = .holds record → w.Alive record → w.fifo = !w.started
  before : ∀ s, w.beforePause = some s → s = statusOf true false (!w.started)

section inv
variable {place} {w w' : World} {record : Persisted}

theorem inv_empty : Inv place empty :=
  ⟨by nofun, by nofun, by nofun⟩

theorem statusOf_open {alive frozen fifo : Bool}
    (h : some (statusOf alive frozen fifo) = some .created ∨
      some (statusOf alive frozen fifo) = some .running) : alive = true ∧ frozen = false := by
  cases alive <;> cases frozen <;> simp [statusOf] at h ⊢

theorem statusOf_no_fifo {alive frozen : Bool} : statusOf alive frozen false ≠ .created := by
  cases alive <;> cases frozen <;> decide

/-- The status, with the fifo read as whether a start has succeeded. -/
theorem Inv.status (h : Inv place w) (hfile : w.stateFile = .holds record) :
    w.status place = some (statusOf (decide (w.Alive record)) w.frozen (!w.started)) := by
  rw [status_holds hfile (h.own record hfile)]
  by_cases halive : w.Alive record
  · rw [h.fifo record hfile halive]
  · simp [statusOf, halive]

theorem Inv.made (hmade : Made place w w') : Inv place w' := by
  obtain ⟨record, hfile, hid⟩ := hmade.holds
  constructor
  case own =>
    intro other hother
    rw [hfile] at hother
    exact StateFile.holds.inj hother ▸ hid
  case fifo =>
    intro _ _ _
    rw [hmade.fifo, hmade.started]
    rfl
  case before =>
    intro s hs
    rw [hmade.beforePause] at hs
    cases hs

theorem Inv.started (h : Inv place w) (hstarted : Started place w w') : Inv place w' := by
  rw [hstarted.changed]
  exact ⟨h.own, fun _ _ _ => rfl, by nofun⟩

theorem Keeps.holds (hkeeps : Keeps place w w') (hfile : w'.stateFile = .holds record) :
    w.stateFile = .holds record := by
  rcases hkeeps.file with hsame | habsent
  · exact hsame ▸ hfile
  · rw [habsent] at hfile
    cases hfile

theorem Inv.keeps (h : Inv place w) (hkeeps : Keeps place w w') : Inv place w' := by
  constructor
  case own => exact fun record hfile => h.own record (hkeeps.holds hfile)
  case fifo =>
    intro record hfile halive
    have hold := hkeeps.holds hfile
    rw [hkeeps.fifo record hfile halive, hkeeps.started]
    exact h.fifo record hold (hkeeps.alive record hold halive)
  case before =>
    intro s hs
    rw [hkeeps.started]
    rcases hkeeps.beforePause with hsame | ⟨hnow, hstatus⟩
    · exact h.before s (hsame ▸ hs)
    · have hsome : w.status place = some s := hnow ▸ hs
      obtain ⟨record, hfile⟩ := status_some hsome
      rw [h.status hfile] at hsome hstatus
      obtain ⟨halive, hfrozen⟩ := statusOf_open hstatus
      rw [halive, hfrozen] at hsome
      exact (Option.some.inj hsome).symm

theorem Inv.step {e : Event} (h : Inv place w) (hcareful : Careful place w e)
    (hstep : step place w e = some w') : Inv place w' := by
  rcases step_cases hcareful hstep with hmade | hstarted | hkeeps
  · exact Inv.made hmade
  · exact h.started hstarted
  · exact h.keeps hkeeps

end inv

/-! ## The moves -/

/-- The edges of the lifecycle, and staying. -/
inductive Moves (started : Bool) : Status → Status → Prop where
  | stay (s : Status) : Moves started s s
  | start : Moves started .created .running
  | pauseCreated : Moves started .created .paused
  | pauseRunning : Moves started .running .paused
  | resumeCreated : started = false → Moves started .paused .created
  | resumeRunning : started = true → Moves started .paused .running
  | stop (s : Status) : Moves started s .stopped

/-- What an event may do to the status of one container. -/
structure Lawful (w : World) (e : Event) (w' : World) : Prop where
  moves : w'.life = w.life → ∀ a b, w.status place = some a → w'.status place = some b →
    Moves w'.started a b
  once : w'.started = true → w'.status place ≠ some .created
  restores : ∀ outcome s b, e = .pause false outcome → w'.result = .ok () →
    w.beforePause = some s → w'.status place = some b → b = s ∨ b = .stopped

section lawful
variable {place} {w w' : World} {record : Persisted}

theorem moves_statusOf {alive alive' frozen frozen' started : Bool}
    (h : alive' = true → alive = true) :
    Moves started (statusOf alive frozen (!started)) (statusOf alive' frozen' (!started)) := by
  cases alive' with
  | false => exact .stop _
  | true =>
      rw [h rfl]
      cases frozen <;> cases frozen' <;> cases started <;>
        first
          | exact .stay _
          | exact .pauseCreated
          | exact .pauseRunning
          | exact .resumeCreated rfl
          | exact .resumeRunning rfl

theorem Keeps.moves (hkeeps : Keeps place w w') (h : Inv place w) (h' : Inv place w') {a b : Status}
    (ha : w.status place = some a) (hb : w'.status place = some b) : Moves w'.started a b := by
  obtain ⟨record, hfile'⟩ := status_some hb
  have hfile := hkeeps.holds hfile'
  rw [h.status hfile] at ha
  rw [h'.status hfile'] at hb
  rw [← Option.some.inj ha, ← Option.some.inj hb, hkeeps.started]
  apply moves_statusOf
  intro halive
  simpa using hkeeps.alive record hfile (by simpa using halive)

theorem Inv.once (h : Inv place w) (hstarted : w.started = true) :
    w.status place ≠ some .created := by
  intro hcreated
  obtain ⟨record, hfile⟩ := status_some hcreated
  rw [h.status hfile, hstarted] at hcreated
  exact statusOf_no_fifo (Option.some.inj hcreated)

theorem freeze_ok {cgroup : Cgroup} {frozen : Bool} {outcome : Freeze}
    (h : freeze w cgroup frozen outcome = (w', .ok ())) : w'.frozen = frozen := by
  cases outcome <;> cases h
  rfl

/-- A resume that succeeds leaves the cgroup thawed. -/
theorem pause_false_ok {outcome : Freeze} (hok : (pause place w false outcome).result = .ok ()) :
    (pause place w false outcome).frozen = false := by
  rcases requiring_cases (rfl : pause place w false outcome = _) with
    ⟨error, heq⟩ | ⟨container, -, -, heq⟩
  · rw [heq] at hok
    cases hok
  · rw [heq] at hok ⊢
    split at hok
    next => cases hok
    next w₁ hfreeze =>
      have hthawed : w₁.frozen = false := freeze_ok hfreeze
      exact hthawed

theorem lawful_step {e : Event} (h : Inv place w) (hcareful : Careful place w e)
    (hstep : step place w e = some w') : Lawful place w e w' := by
  have h' := h.step hcareful hstep
  constructor
  case moves =>
    intro hlife a b ha hb
    rcases step_cases hcareful hstep with hmade | hstarted | hkeeps
    · exact absurd hlife hmade.life
    · obtain ⟨record, hfile⟩ := status_some ha
      have hcreated : a = .created := Option.some.inj (ha ▸ hstarted.created)
      have hfile' : w'.stateFile = .holds record := by rw [hstarted.changed]; exact hfile
      have hopen := hstarted.created
      rw [h.status hfile] at hopen
      obtain ⟨halive, hfrozen⟩ := statusOf_open (Or.inl hopen)
      have halive' : decide (w'.Alive record) = true := by rw [hstarted.changed]; exact halive
      have hfrozen' : w'.frozen = false := by rw [hstarted.changed]; exact hfrozen
      have hstarted' : w'.started = true := by rw [hstarted.changed]
      rw [h'.status hfile', halive', hfrozen', hstarted'] at hb
      rw [hcreated, ← Option.some.inj hb]
      exact .start
    · exact hkeeps.moves h h' ha hb
  case once => exact h'.once
  case restores =>
    intro outcome s b he hok hbefore hb
    subst he
    have hpause : pause place w false outcome = w' := Option.some.inj hstep
    have hkeeps : Keeps place w w' := keeps_pause hpause
    have hfrozen : w'.frozen = false := by
      rw [← hpause] at hok ⊢
      exact pause_false_ok hok
    obtain ⟨record, hfile⟩ := status_some hb
    rw [h'.status hfile, hfrozen, hkeeps.started] at hb
    cases halive : decide (w'.Alive record) with
    | false =>
        rw [halive] at hb
        exact Or.inr (Option.some.inj hb).symm
    | true =>
        rw [halive] at hb
        exact Or.inl ((Option.some.inj hb).symm.trans (h.before s hbefore).symm)

end lawful

/-! ## Runs -/

/-- Where nobody writes over the container's own files, the status follows the
lifecycle through every command and every event. -/
theorem careful_status_lawful (events : List Event)
    (hcareful : Transition.Along (step place) (Careful place) empty events) :
    Transition.Along (step place)
      (fun w e => ∀ w', step place w e = some w' → Lawful place w e w') empty events :=
  Transition.along_of_invariant (I := Inv place) (fun _ _ _ h hok hstep => h.step hok hstep)
    (fun _ _ h hok _ hstep => lawful_step h hok hstep) inv_empty hcareful

/-! ## Runs of one container -/

def demoRecord : Persisted := { demoContainer.state with startTime := 555 }

def demoPlace : Place where
  layout := ⟨"/run/mars"⟩
  id := "demo"
  tree := fun path =>
    if path = "/run/mars/demo/exec.fifo" then some .execFifo
    else if path = "/run/mars/demo/state.json" then some .stateFile
    else none
  parse := fun _ => none

/-- Created, paused and resumed before and after the start, its limits updated,
its init gone and the pid taken again, refused and deleted. -/
def wholeLife : List Event :=
  [.spawn 7 555, .create (.ok demoRecord), .pause true .reached, .pause false .reached,
    .start none, .pause true .reached, .pause false .reached,
    .update (unifiedOnly [("memory.high", "1048576")]) fun _ => false, .exit 7, .spawn 7 777,
    .start none, .delete false .late false .complete]

theorem careful_status_lawful_whole :
    (Transition.run (step demoPlace) empty wholeLife).isSome = true ∧
      Transition.Along (step demoPlace)
        (fun w e => ∀ w', step demoPlace w e = some w' → Lawful demoPlace w e w') empty wholeLife :=
  ⟨by decide +kernel, careful_status_lawful demoPlace wholeLife (by decide +kernel)⟩

def runningLife : List Event := [.spawn 7 555, .create (.ok demoRecord), .start none]

def overwriting : Event :=
  .update (unifiedOnly [("/run/mars/demo/exec.fifo", "x")]) fun _ => false

theorem runningLife_enabled :
    (Transition.run (step demoPlace) empty runningLife).isSome = true := by
  decide

theorem overwriting_enabled :
    (step demoPlace (Option.get _ runningLife_enabled) overwriting).isSome = true := rfl

/-- A key of an update makes the fifo again, and the started container reads as
created: no running container may do that. -/
theorem update_makes_created_again :
    ¬ Transition.Along (step demoPlace)
        (fun w e => ∀ w', step demoPlace w e = some w' → Lawful demoPlace w e w') empty
        (runningLife ++ [overwriting]) := by
  intro hlawful
  have hrun : Transition.run (step demoPlace) empty runningLife =
      some (Option.get _ runningLife_enabled) := (Option.some_get _).symm
  have hstep : step demoPlace (Option.get _ runningLife_enabled) overwriting =
      some (Option.get _ overwriting_enabled) := (Option.some_get _).symm
  have honce := (Transition.along_last hlawful hrun _ hstep).once
  have hfile : (Option.get _ overwriting_enabled).stateFile = .holds demoRecord := by decide +kernel
  have hstarted : (Option.get _ overwriting_enabled).started = true := by decide +kernel
  have hfacts : statusOf (decide ((Option.get _ overwriting_enabled).Alive demoRecord))
      (Option.get _ overwriting_enabled).frozen (Option.get _ overwriting_enabled).fifo =
        .created := by decide +kernel
  apply honce hstarted
  rw [status_holds hfile rfl, hfacts]

end Mars.Lifecycle
