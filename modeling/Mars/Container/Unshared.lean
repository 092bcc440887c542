import Mars.Container.Joining
import Mars.Container.Wedge

/-! # Each namespace is made or entered once

The flags of the namespaces to make go through a union, a mask and a table of their
own. A bit lost on the way would be no error, so what a create that returns well has
done is compared with the list it was given. The bit of the time namespace has no name
among the flags, and the mask keeps it.
-/

namespace Mars.Protocol
open Spec Namespace Hooks Sync History Joining

/-! ## Init comes from a fork -/

def World.HasForked (w : World) : Prop := ⟨.intermediate .fork, true⟩ ∈ w.log

/-- Nothing is init's before the intermediate has forked it. -/
structure Born (w : World) : Prop where
  ahead : ∀ x, .init x ∈ (w.party .init).ops → w.HasForked
  taken : ∀ x ok, ⟨.init x, ok⟩ ∈ w.log → w.HasForked

theorem born_start (s : Setting) (dir stateFile : Bool) : Born (start s dir stateFile) where
  ahead := nofun
  taken := nofun

section born
variable {s : Setting} {w w' : World} {who : Who} {op : Op} {rest : List Op} {ok : Bool}
  {put : Option Stage}

/-- Only a fork that succeeds gives its program to init. -/
theorem Attempt.init_ahead (h : Attempt s w w' who op rest ok put) (hinv : InOrder s w)
    {x : InitOp} (hx : .init x ∈ (w'.party .init).ops) :
    .init x ∈ (w.party .init).ops ∨ w'.HasForked := by
  have hstage : (Op.init x).stage = some .init := rfl
  have hearlier := fun hmem => h.toMoves.earlier hinv hmem hstage
  rcases hearlier hx with hput | ⟨-, hmem, -⟩
  · have hop : op = .intermediate .fork := by
      cases h.installs .init hput
      rfl
    subst hop
    cases ok with
    | true =>
        right
        rw [World.HasForked, h.log]
        simp
    | false =>
        left
        obtain ⟨error, next, hfails, rfl⟩ := h.failed rfl
        obtain ⟨rfl, -⟩ := hinv.progress h.ops rfl
        have hother : ((next.record (.intermediate .fork) false).fail (.intermediate .fork)
            error).party .init = next.party .init := setOps_party_other _ _ _ _ nofun
        have hpopped : (w.setOps .intermediate rest).party .init = w.party .init :=
          setOps_party_other w _ _ rest nofun
        rw [hother, hfails.read.party] at hx
        exact hpopped ▸ hx
  · exact Or.inl hmem

theorem Born.attempt (hw : Born w) (hinv : InOrder s w)
    (h : Attempt s w w' who op rest ok put) : Born w' := by
  have hkeep : w.HasForked → w'.HasForked := by
    intro hforked
    rw [World.HasForked, h.log]
    exact List.mem_append_left _ hforked
  constructor
  case ahead =>
    intro x hx
    rcases h.init_ahead hinv hx with hold | hforked
    · exact hkeep (hw.ahead x hold)
    · exact hforked
  case taken =>
    intro x b hx
    rw [h.log] at hx
    rcases List.mem_append.mp hx with hold | hnew
    · exact hkeep (hw.taken x b hold)
    · obtain ⟨rfl, rfl⟩ : Op.init x = op ∧ b = ok := by simpa using hnew
      obtain ⟨rfl, -⟩ := hinv.progress h.ops rfl
      exact hkeep (hw.ahead x (h.ops ▸ List.mem_cons_self))

theorem Born.step {event : Event} (hw : Born w) (hinv : InOrder s w)
    (hstep : Protocol.step s w event = some w') : Born w' := by
  cases event <;> simp only [Protocol.step, Option.ite_none_right_eq_some] at hstep
  case act who fault =>
    obtain ⟨op, rest, ok, put, h⟩ := act_attempt hinv hstep.2
    exact hw.attempt hinv h
  case die who =>
    obtain rfl := Option.some.inj hstep.2
    refine ⟨fun x hx => ?_, hw.taken⟩
    rcases leave_ops w who .init with hsame | hnil
    · exact hw.ahead x (hsame ▸ hx)
    · rw [hnil] at hx
      cases hx
  case kill who =>
    obtain rfl := Option.some.inj hstep.2
    refine ⟨fun x hx => hw.ahead x ?_, hw.taken⟩
    have hsame := update_ops w who .init (fun p => { p with killed := true }) fun _ => rfl
    exact hsame ▸ hx
  case reader =>
    obtain rfl := Option.some.inj hstep
    have hkeep : w.HasForked →
        (World.record { w with reader := true } .readerOpens true).HasForked :=
      List.mem_append_left _
    refine ⟨fun x hx => hkeep (hw.ahead x hx), fun x ok hx => ?_⟩
    rcases List.mem_append.mp hx with hold | hnew
    · exact hkeep (hw.taken x ok hold)
    · cases List.mem_singleton.mp hnew

end born

/-! ## What a run has done to namespaces -/

/-- Who makes a namespace of a kind. -/
def creator (kind : LinuxNamespaceType) : Who := if kind = .cgroup then .init else .intermediate

/-- The namespace that a step makes, and for whom. -/
def Op.unshares : Op → Option (Who × LinuxNamespaceType)
  | .intermediate (.unshare name) => (NS_NAMES.lookup name).map fun kind => (.intermediate, kind)
  | .init .unshareCgroup => some (.init, .cgroup)
  | _ => none

/-- The namespace that a step enters, and the path it was found at. -/
def Op.enters : Op → Option (LinuxNamespaceType × String)
  | .intermediate (.setns kind path) => some (kind, path)
  | _ => none

def World.unshared (w : World) : List (Who × LinuxNamespaceType) :=
  w.log.filterMap fun e => e.op.unshares

def World.entered (w : World) : List (LinuxNamespaceType × String) :=
  w.log.filterMap fun e => e.op.enters

/-! ## The programs -/

/-- What the flags make the intermediate unshare. -/
def madeKinds (plan : Plan) : List LinuxNamespaceType :=
  (unshareOrder.filter fun entry => contains plan.unshareFlags entry.2).filterMap fun entry =>
    NS_NAMES.lookup entry.1

theorem madeKinds_nodup (plan : Plan) : (madeKinds plan).Nodup := by
  have hall : (unshareOrder.filterMap fun entry => NS_NAMES.lookup entry.1).Nodup := by decide
  exact (List.filter_sublist.filterMap _).nodup hall

theorem mem_madeKinds {plan : Plan} {kind : LinuxNamespaceType} : kind ∈ madeKinds plan ↔
    kind ≠ .cgroup ∧ contains plan.unshareFlags (flagFor kind) = true := by
  simp only [madeKinds, List.mem_filterMap, List.mem_filter]
  constructor
  · rintro ⟨entry, ⟨hentry, hflag⟩, hname⟩
    have hentryFlag := unshareOrder_flags entry hentry
    rw [hname, Option.map_some, Option.some.injEq] at hentryFlag
    refine ⟨?_, hentryFlag ▸ hflag⟩
    rintro rfl
    have hnot : ∀ entry ∈ unshareOrder, NS_NAMES.lookup entry.1 ≠ some .cgroup := by decide
    exact hnot entry hentry hname
  · rintro ⟨hkind, hflag⟩
    obtain ⟨name, horder, hname⟩ := unshareOrder_complete hkind
    exact ⟨_, ⟨horder, hflag⟩, hname⟩

section programs
variable (plan : Plan)

theorem joinExisting_unshares :
    ((joinExisting plan).map Op.intermediate).filterMap Op.unshares = [] := by
  rw [joinExisting]
  induction plan.join with
  | nil => rfl
  | cons entry rest ih =>
      rw [List.flatMap_cons, List.map_append, List.filterMap_append, ih]
      rfl

theorem joinExisting_enters :
    ((joinExisting plan).map Op.intermediate).filterMap Op.enters = plan.join := by
  rw [joinExisting]
  induction plan.join with
  | nil => rfl
  | cons entry rest ih =>
      rw [List.flatMap_cons, List.map_append, List.filterMap_append, ih]
      rfl

theorem unshareAll_unshares :
    ((unshareAll plan).map Op.intermediate).filterMap Op.unshares =
      (madeKinds plan).map fun kind => (.intermediate, kind) := by
  rw [unshareAll, madeKinds]
  induction unshareOrder with
  | nil => rfl
  | cons entry rest ih =>
      rw [List.flatMap_cons, List.map_append, List.filterMap_append, ih, List.filter_cons]
      have hoffsets : ∀ b : Bool,
          ((ifTrue b [IntermediateOp.writeTimeOffsets]).map Op.intermediate).filterMap
            Op.unshares = [] := by
        intro b
        cases b <;> rfl
      have hunshare : Op.unshares (.intermediate (.unshare entry.1)) =
          (NS_NAMES.lookup entry.1).map fun kind => (.intermediate, kind) := rfl
      cases hflag : contains plan.unshareFlags entry.2 with
      | false => rfl
      | true =>
          rw [ifTrue, if_pos rfl, if_pos rfl, List.map_cons, List.filterMap_cons, hunshare, hoffsets,
            List.filterMap_cons]
          cases NS_NAMES.lookup entry.1 <;> rfl

theorem unshareAll_enters :
    ((unshareAll plan).map Op.intermediate).filterMap Op.enters = [] := by
  rw [List.filterMap_eq_nil_iff]
  intro op hop
  obtain ⟨x, hx, rfl⟩ := List.mem_map.mp hop
  cases x with
  | setns kind path => simp [unshareAll, ifTrue] at hx
  | _ => rfl

theorem mapUser_nothing : ((mapUser plan).map Op.intermediate).filterMap Op.unshares = [] ∧
    ((mapUser plan).map Op.intermediate).filterMap Op.enters = [] := by
  unfold mapUser ifTrue
  split <;> exact ⟨rfl, rfl⟩

/-- What the intermediate does before it forks. -/
def beforeFork : List IntermediateOp :=
  .dropParent :: joinExisting plan ++ unshareAll plan ++ mapUser plan

theorem beforeFork_unshares : ((beforeFork plan).map Op.intermediate).filterMap Op.unshares =
    (madeKinds plan).map fun kind => (.intermediate, kind) := by
  have hjoin := joinExisting_unshares plan
  have hunshare := unshareAll_unshares plan
  simp only [beforeFork, List.map_append, List.filterMap_append, List.cons_append, List.map_cons,
    List.filterMap_cons, hjoin, hunshare, (mapUser_nothing plan).1]
  simp [Op.unshares]

theorem beforeFork_enters :
    ((beforeFork plan).map Op.intermediate).filterMap Op.enters = plan.join := by
  have hjoin := joinExisting_enters plan
  have hunshare := unshareAll_enters plan
  simp only [beforeFork, List.map_append, List.filterMap_append, List.cons_append, List.map_cons,
    List.filterMap_cons, hjoin, hunshare, (mapUser_nothing plan).2]
  simp [Op.enters]

theorem mountSteps_not_cgroup : .unshareCgroup ∉ mountSteps plan := by
  have hhook : .unshareCgroup ∉ hookOps InitOp.hookPayload .hook plan .createContainer := by
    intro hmem
    rcases mem_hookOps hmem with hop | ⟨index, hop⟩ <;> cases hop
  unfold mountSteps
  split
  · split <;> simp [hhook]
  · exact hhook

theorem setup_unshares : ((setup plan).map Op.init).filterMap Op.unshares =
    ifTrue plan.cgroupNs [(.init, .cgroup)] := by
  have hnone : ∀ x, x ≠ .unshareCgroup → Op.unshares (.init x) = none := by
    intro x hx
    cases x <;> first | rfl | exact absurd rfl hx
  have hlater : ∃ later, setup plan =
      .expectCgroupApplied :: (ifTrue plan.cgroupNs [.unshareCgroup] ++ later) ∧
        .unshareCgroup ∉ later := by
    refine ⟨_, by simp only [setup, List.cons_append, List.append_assoc]; rfl, ?_⟩
    simp [mountSteps_not_cgroup, hardenSteps, securitySteps]
  obtain ⟨later, hsetup, hnot⟩ := hlater
  have hrest : (later.map Op.init).filterMap Op.unshares = [] := by
    rw [List.filterMap_eq_nil_iff]
    intro op hop
    obtain ⟨x, hx, rfl⟩ := List.mem_map.mp hop
    exact hnone x fun heq => hnot (heq ▸ hx)
  rw [hsetup, List.map_cons, List.map_append, List.filterMap_cons, List.filterMap_append, hrest]
  cases plan.cgroupNs <;> rfl

end programs

/-! ## A create that returns well -/

/-- A runtime that finds the id taken has an error to return. -/
structure Rejected (w : World) : Prop extends TurnedAway w where
  alive : (w.party .parent).killed = false
  failing : (w.party .parent).ops = [] → w.error ≠ none

theorem rejected_start (s : Setting) (dir : Bool) : Rejected (start s dir true) where
  toTurnedAway := turnedAway_start s dir
  alive := rfl
  failing := nofun

section returning
variable {s : Setting} {w w' : World} {dir stateFile : Bool} {events : List Event}

theorem Rejected.step {event : Event} (h : Rejected w)
    (hstep : Protocol.step s w event = some w') : Rejected w' := by
  have haway := h.toTurnedAway.step hstep
  cases event <;> simp only [Protocol.step, Option.ite_none_right_eq_some] at hstep
  case act who fault =>
    obtain rfl := h.running hstep.1
    rcases h.parent with hnil | ⟨rest, hops⟩
    · simp [Protocol.act, hnil] at hstep
    · have hfile : (w.setOps .parent rest).stateFile = true := h.stateFile
      simp only [Protocol.act, hops, perform, performPrepare, hfile, if_true] at hstep
      cases fault with
      | none =>
          obtain rfl := Option.some.inj hstep.2
          refine ⟨haway, ?_, fun _ herror => by cases herror⟩
          rw [fail_killed]
          exact (setOps_killed w .parent .parent rest).trans h.alive
      | some error => simp [fallible] at hstep
  case die who =>
    obtain rfl := h.running hstep.1.1
    rw [h.alive] at hstep
    cases hstep.1.2
  case kill who => exact absurd (h.running hstep.1.2) hstep.1.1
  case reader =>
    obtain rfl := Option.some.inj hstep
    exact ⟨haway, h.alive, h.failing⟩

/-- Where the state is on disk, no create returns well. -/
theorem fresh_of_returned
    (hrun : Transition.run (step s) (start s dir stateFile) events = some w)
    (hreturned : w.returned = some (.ok ())) : stateFile = false := by
  cases stateFile with
  | true =>
      have hrejected : Rejected w :=
        Transition.run_invariant (fun _ _ _ h hstep => h.step hstep) (rejected_start s dir) hrun
      obtain ⟨hops, hnone⟩ := returned_ok hreturned
      exact absurd hnone (hrejected.failing hops)
  | false => rfl

/-- In a create that has returned well, the runtime has closed its channel. -/
theorem closed_of_returned
    (hrun : Transition.run (step s) (start s dir stateFile) events = some w)
    (hreturned : w.returned = some (.ok ())) : ⟨.settle .close, true⟩ ∈ w.log := by
  obtain rfl := fresh_of_returned hrun hreturned
  exact (whole_run hrun).closed hreturned

theorem program_intermediate (s : Setting) : program s .intermediate =
    (beforeFork s.plan).map .intermediate ++
      .intermediate .fork :: [.intermediate .sendInitPid, .intermediate .exit] := by
  simp [program, stageOne, beforeFork]

/-- What the two children have attempted goes through the steps that make and enter
namespaces, all with success. -/
theorem attempted_of_returned {β : Type} {f : Op → Option β}
    (hrun : Transition.run (step s) (start s dir stateFile) events = some w)
    (hreturned : w.returned = some (.ok ()))
    (hfork : ∀ y ∈ [IntermediateOp.sendInitPid, .exit], f (.intermediate y) = none)
    (hready : ∀ y ∈ parkAndExec s.plan, f (.init y) = none) :
    ((w.attempted .intermediate).filterMap (fun e => f e.op) =
        (program s .intermediate).filterMap f ∧
      (w.attempted .init).filterMap (fun e => f e.op) = (program s .init).filterMap f) ∧
        ∀ st, st.owner ≠ .parent → ∀ e ∈ w.attempted st, (f e.op).isSome → e.ok = true := by
  have hinv := inOrder_run hrun
  have hstepwise := stepwise_run hrun
  have hborn : InOrder s w ∧ Born w :=
    @Transition.run_invariant _ _ _ (fun w => InOrder s w ∧ Born w)
      (fun _ _ _ h hstep => ⟨h.1.step hstep, h.2.step h.1 hstep⟩) _ _ _
      ⟨inOrder_start s dir stateFile, born_start s dir stateFile⟩ hrun
  have hclose := closed_of_returned hrun hreturned
  have hsent : ⟨.init .sendInitReady, true⟩ ∈ w.log := hinv.setup_done hclose (Or.inr rfl)
  have hforked : ⟨.intermediate .fork, true⟩ ∈ w.log := hborn.2.taken _ _ hsent
  have hintermediate := program_intermediate s
  have hinit : program s .init = (setup s.plan).map .init ++
      .init .sendInitReady :: (parkAndExec s.plan).map .init := by
    simp [program, containerInit]
  have hfirst : .intermediate .fork ∉ (beforeFork s.plan).map Op.intermediate := by
    rw [List.mem_map_of_injective fun _ _ => Op.intermediate.inj]
    simp [beforeFork, joinExisting, unshareAll, mapUser]
  have hlast : .init .sendInitReady ∉ (setup s.plan).map Op.init := by
    rw [List.mem_map_of_injective fun _ _ => Op.init.inj]
    intro hmem
    cases setup_not_late _ _ hmem
  have hone := (hintermediate ▸ hstepwise.attempts .intermediate).filterMap_through (f := f) hfirst
    (List.mem_filter.mpr ⟨hforked, rfl⟩) (by simpa using hfork)
  have htwo := (hinit ▸ hstepwise.attempts .init).filterMap_through (f := f) hlast
    (List.mem_filter.mpr ⟨hsent, rfl⟩) (by simpa using hready)
  refine ⟨⟨hintermediate ▸ hone.1, hinit ▸ htwo.1⟩, ?_⟩
  intro st hst
  cases st with
  | intermediate => exact hone.2
  | init => exact htwo.2
  | _ => exact absurd rfl hst

theorem unshares_stage {op : Op} {made : Who × LinuxNamespaceType} (h : op.unshares = some made) :
    op.stage = some .intermediate ∨ op.stage = some .init := by
  unfold Op.unshares at h
  split at h
  · exact Or.inl rfl
  · exact Or.inr rfl
  · cases h

theorem enters_stage {op : Op} {entry : LinuxNamespaceType × String} (h : op.enters = some entry) :
    op.stage = some .intermediate ∨ op.stage = some .init := by
  unfold Op.enters at h
  split at h
  · exact Or.inl rfl
  · cases h

theorem parkAndExec_unshares (plan : Plan) :
    ∀ y ∈ parkAndExec plan, Op.unshares (.init y) = none := by
  intro y hy
  simp only [parkAndExec, List.mem_append, List.mem_cons, List.not_mem_nil, or_false] at hy
  rcases hy with ((rfl | rfl | rfl) | hy) | rfl | rfl
  case inl.inr => rcases mem_hookOps hy with rfl | ⟨index, rfl⟩ <;> rfl
  all_goals rfl

theorem unshared_of_returned
    (hrun : Transition.run (step s) (start s dir stateFile) events = some w)
    (hreturned : w.returned = some (.ok ())) : w.unshared.Perm
      ((madeKinds s.plan).map (fun kind => (.intermediate, kind)) ++
        ifTrue s.plan.cgroupNs [(.init, .cgroup)]) := by
  have hattempted := (attempted_of_returned (f := Op.unshares) hrun hreturned (by simp [Op.unshares])
    (parkAndExec_unshares s.plan)).1
  have hintermediate : (program s .intermediate).filterMap Op.unshares =
      (madeKinds s.plan).map fun kind => (.intermediate, kind) := by
    rw [program_intermediate, List.filterMap_append, beforeFork_unshares]
    exact List.append_nil _
  have hinit : (program s .init).filterMap Op.unshares =
      ifTrue s.plan.cgroupNs [(.init, .cgroup)] := by
    have hlater : ((parkAndExec s.plan).map Op.init).filterMap Op.unshares = [] := by
      rw [List.filterMap_eq_nil_iff]
      intro op hop
      obtain ⟨y, hy, rfl⟩ := List.mem_map.mp hop
      exact parkAndExec_unshares s.plan y hy
    rw [program, containerInit, List.map_append, List.filterMap_append, setup_unshares,
      List.map_cons, List.filterMap_cons, hlater]
    exact List.append_nil _
  have hperm := w.filterMap_perm (f := Op.unshares) (a := .intermediate) (b := .init) (by decide)
    fun op made h => unshares_stage h
  rwa [hattempted.1, hattempted.2, hintermediate, hinit] at hperm

theorem entered_of_returned
    (hrun : Transition.run (step s) (start s dir stateFile) events = some w)
    (hreturned : w.returned = some (.ok ())) : w.entered.Perm s.plan.join := by
  have hattempted := (attempted_of_returned (f := Op.enters) hrun hreturned (by simp [Op.enters])
    fun y _ => rfl).1
  have hintermediate : (program s .intermediate).filterMap Op.enters = s.plan.join := by
    rw [program_intermediate, List.filterMap_append, beforeFork_enters]
    exact List.append_nil _
  have hinit : (program s .init).filterMap Op.enters = [] := by
    rw [List.filterMap_eq_nil_iff]
    intro op hop
    obtain ⟨y, -, rfl⟩ := List.mem_map.mp hop
    rfl
  have hperm := w.filterMap_perm (f := Op.enters) (a := .intermediate) (b := .init) nofun
    fun op entry h => enters_stage h
  rwa [hattempted.1, hattempted.2, hintermediate, hinit, List.append_nil] at hperm

/-- No attempt to make or enter a namespace has failed. -/
theorem succeeded_of_returned
    (hrun : Transition.run (step s) (start s dir stateFile) events = some w)
    (hreturned : w.returned = some (.ok ())) {e : Entry Op} (he : e ∈ w.log)
    (hop : e.op.unshares.isSome ∨ e.op.enters.isSome) : e.ok = true := by
  rcases hop with hop | hop
  · have hall := (attempted_of_returned (f := Op.unshares) hrun hreturned (by simp [Op.unshares])
      (parkAndExec_unshares s.plan)).2
    obtain ⟨made, hmade⟩ := Option.isSome_iff_exists.mp hop
    rcases unshares_stage hmade with hstage | hstage
    · exact hall .intermediate nofun e (List.mem_filter.mpr ⟨he, by simpa using hstage⟩) hop
    · exact hall .init nofun e (List.mem_filter.mpr ⟨he, by simpa using hstage⟩) hop
  · have hall := (attempted_of_returned (f := Op.enters) hrun hreturned (by simp [Op.enters])
      fun y _ => rfl).2
    obtain ⟨entry, hentry⟩ := Option.isSome_iff_exists.mp hop
    rcases enters_stage hentry with hstage | hstage
    · exact hall .intermediate nofun e (List.mem_filter.mpr ⟨he, by simpa using hstage⟩) hop
    · exact hall .init nofun e (List.mem_filter.mpr ⟨he, by simpa using hstage⟩) hop

end returning

/-! ## As the list has it -/

/-- Of each type: made once by the one who is to make it, entered once at its path, or
left alone, as the list has it; and nothing of it failed. -/
structure AsListed (namespaces : List LinuxNamespace) (w : World) : Prop where
  made : ∀ kind, Created namespaces kind → (w.unshared.map Prod.snd).count kind = 1 ∧
    (creator kind, kind) ∈ w.unshared ∧ kind ∉ w.entered.map Prod.fst
  joined : ∀ entry ∈ namespaces.filterMap joined, (w.entered.map Prod.fst).count entry.1 = 1 ∧
    entry ∈ w.entered ∧ entry.1 ∉ w.unshared.map Prod.snd
  others : ∀ kind, kind ∉ namespaces.map LinuxNamespace.typ →
    kind ∉ w.unshared.map Prod.snd ∧ kind ∉ w.entered.map Prod.fst
  succeeded : ∀ e ∈ w.log, (e.op.unshares.isSome ∨ e.op.enters.isSome) → e.ok = true

section listed
variable {pathExists : String → Bool} {namespaces : List LinuxNamespace} {s : Setting}
  {w : World} {dir stateFile : Bool} {events : List Event}

theorem created_listed {kind : LinuxNamespaceType} (h : Created namespaces kind) :
    kind ∈ namespaces.map LinuxNamespace.typ := by
  obtain ⟨ns, hmem, rfl, -⟩ := h
  exact List.mem_map_of_mem hmem

theorem joined_listed {kind : LinuxNamespaceType} (h : Joined namespaces kind) :
    kind ∈ namespaces.map LinuxNamespace.typ := by
  obtain ⟨entry, hentry, rfl⟩ := List.mem_map.mp h
  obtain ⟨ns, hmem, hjoined⟩ := List.mem_filterMap.mp hentry
  exact joined_typ hjoined ▸ List.mem_map_of_mem hmem

/-- What is made of a plan: each kind at most once, and exactly the created ones. -/
theorem made_kinds (hexist : PathsExist pathExists namespaces)
    (hplan : Planned pathExists namespaces s.plan)
    (hunshared : w.unshared.Perm ((madeKinds s.plan).map (fun kind => (.intermediate, kind)) ++
      ifTrue s.plan.cgroupNs [(.init, .cgroup)])) :
    (w.unshared.map Prod.snd).Nodup ∧
      ∀ who kind, (who, kind) ∈ w.unshared ↔ Created namespaces kind ∧ who = creator kind := by
  have hflags := planned_flags hexist hplan
  have hcgroup := (hflags .cgroup).2
  have hmade : ∀ kind, kind ∈ madeKinds s.plan ↔ kind ≠ .cgroup ∧ Created namespaces kind :=
    fun kind => by rw [mem_madeKinds, (hflags kind).1]; tauto
  constructor
  · have hkinds := hunshared.map Prod.snd
    rw [List.map_append, List.map_map] at hkinds
    apply hkinds.nodup_iff.mpr
    have hid : (madeKinds s.plan).map (Prod.snd ∘ fun kind => (Who.intermediate, kind)) =
        madeKinds s.plan := List.map_id _
    rw [hid]
    apply (madeKinds_nodup s.plan).append
    · cases s.plan.cgroupNs <;> simp [ifTrue]
    · intro kind hkind hlast
      have hne := ((hmade kind).mp hkind).1
      cases hns : s.plan.cgroupNs <;> simp [ifTrue, hns, hne] at hlast
  · intro who kind
    rw [hunshared.mem_iff, List.mem_append]
    by_cases hkind : kind = .cgroup
    · subst hkind
      rw [← hcgroup]
      cases hns : s.plan.cgroupNs <;> simp [ifTrue, creator, hmade]
    · have hnot : (who, kind) ∉ ifTrue s.plan.cgroupNs [(Who.init, LinuxNamespaceType.cgroup)] := by
        cases hns : s.plan.cgroupNs <;> simp [ifTrue, hkind]
      simp [hnot, creator, hkind, hmade, eq_comm]

/-- In every create that returns well, a listed type without a path has been unshared
exactly once, one with a path entered exactly once, and no other has been touched. -/
theorem namespaces_once (hdistinct : (namespaces.map LinuxNamespace.typ).Nodup)
    (hexist : PathsExist pathExists namespaces) (hplan : Planned pathExists namespaces s.plan)
    (hrun : Transition.run (step s) (start s dir stateFile) events = some w)
    (hreturned : w.returned = some (.ok ())) : AsListed namespaces w := by
  obtain ⟨hnodup, hmade⟩ := made_kinds hexist hplan (unshared_of_returned hrun hreturned)
  have hentered : w.entered.Perm (namespaces.filterMap joined) := by
    obtain ⟨found, hlayout, hjoin, -⟩ := hplan
    rw [layout_eq hexist] at hlayout
    obtain rfl := Except.ok.inj hlayout
    have hdone := entered_of_returned hrun hreturned
    rw [hjoin] at hdone
    exact hdone.trans (List.perm_insertionSort _ _)
  have hkinds := hentered.map Prod.fst
  have hcreated : ∀ kind, kind ∈ w.unshared.map Prod.snd ↔ Created namespaces kind := by
    intro kind
    rw [List.mem_map]
    constructor
    · rintro ⟨⟨who, kind⟩, hmem, rfl⟩
      exact ((hmade who kind).mp hmem).1
    · exact fun h => ⟨(creator kind, kind), (hmade _ kind).mpr ⟨h, rfl⟩, rfl⟩
  constructor
  case made =>
    intro kind hkind
    refine ⟨List.count_eq_one_of_mem hnodup ((hcreated kind).mpr hkind),
      (hmade _ kind).mpr ⟨hkind, rfl⟩, ?_⟩
    rw [hkinds.mem_iff]
    exact not_joined_of_created hdistinct hkind
  case joined =>
    intro entry hentry
    have hmem : Joined namespaces entry.1 := List.mem_map_of_mem hentry
    refine ⟨?_, hentered.mem_iff.mpr hentry, ?_⟩
    · rw [hkinds.count_eq]
      exact List.count_eq_one_of_mem (joined_nodup hdistinct) hmem
    · rw [hcreated]
      exact fun h => not_joined_of_created hdistinct h hmem
  case others =>
    intro kind hkind
    rw [hcreated, hkinds.mem_iff]
    exact ⟨fun h => hkind (created_listed h), fun h => hkind (joined_listed h)⟩
  case succeeded => exact fun e he hop => succeeded_of_returned hrun hreturned he hop

end listed

/-! ## A list of each sort -/

def mixedNamespaces : List LinuxNamespace :=
  [⟨.time, none⟩, ⟨.network, some "/proc/7/ns/net"⟩, ⟨.cgroup, some ""⟩, ⟨.user, none⟩]

def mixedPlan : Plan := planOf ⟨createFlags 0 mixedNamespaces,
  (mixedNamespaces.filterMap joined).insertionSort fun a b => joinRank a.1 ≤ joinRank b.1⟩

def mixedSetting : Setting := { Placement.userSetting with plan := mixedPlan }

open Placement in
def mixedRun : List Event :=
  acts .parent 14 ++ acts .intermediate 6 ++ acts .parent 6 ++ acts .intermediate 6 ++
    acts .parent 4 ++ acts .init 8 ++ acts .parent 5

theorem mixedRun_enabled : (Transition.run (step mixedSetting) (start mixedSetting false false)
    mixedRun).isSome = true := by rfl

def mixedWorld : World := Option.get _ mixedRun_enabled

theorem namespaces_once_mixed : mixedWorld.unshared =
      [(.intermediate, .user), (.intermediate, .time), (.init, .cgroup)] ∧
    mixedWorld.entered = [(.network, "/proc/7/ns/net")] ∧ AsListed mixedNamespaces mixedWorld := by
  have hexist : PathsExist (fun _ => true) mixedNamespaces := by decide
  have hrun : Transition.run (step mixedSetting) (start mixedSetting false false) mixedRun =
      some mixedWorld := (Option.some_get mixedRun_enabled).symm
  exact ⟨by rfl, by rfl,
    namespaces_once (by decide) hexist (planned_planOf hexist) hrun (by rfl)⟩

end Mars.Protocol
