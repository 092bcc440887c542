import Mars.Container.Descriptors
import Mars.Container.ExecProtocol

/-! # What is open where a program is executed in a container

The runtime opens what it needs before it joins the container, where the paths would
lead elsewhere, and forks its child with all of it.
-/

namespace Mars.ExecInheritance
open ExecProtocol History Descriptors
open Inheritance (Resource Held acquire consoleSetup onConsole runtime inherited given settled
  onConsole_onConsole settled_ne_none)

variable {κ : Type}

/-! ## What the steps open and close -/

def effect (s : Setting) (p : Process κ Resource) : Op → Process κ Resource
  | .caller .collect => s.joins.foldl (fun p name => acquire p (.joined name)) p
  | .caller .openConsole => acquire p .console
  | .caller .openCgroupProcs => acquire p .procs
  | .caller .createPidFile => acquire p .pidFile
  | .caller .pair => acquire (acquire p .parentEnd) .childEnd
  | .caller .dropChild => p.drop .childEnd
  | .child .dropParent => p.drop .parentEnd
  -- the socket was handed over to `enter`
  | .child .consoleSetup => (consoleSetup p).drop .console
  | _ => p

/-- After a failure the party is gone. -/
def account (s : Setting) (ps : Who → Option (Process κ Resource)) (e : Entry Op) :
    Who → Option (Process κ Resource) :=
  if e.ok then
    let ps := Function.update ps e.op.who ((ps e.op.who).map (effect s · e.op))
    if e.op = .caller .fork then Function.update ps .child (ps .caller) else ps
  else Function.update ps e.op.who none

def processes (s : Setting) (t : Table κ) (logged : Bool) (log : List (Entry Op)) :
    Who → Option (Process κ Resource) :=
  log.foldl (account s) (Function.update (fun _ => none) .caller (some (runtime t logged)))

/-- What the child is left with once its terminal is set up. -/
noncomputable def current (t : Table κ) (log : List (Entry Op)) (who : Who) :
    Nat → Option (Opened (κ ⊕ Resource)) :=
  settled t (who = .child ∧ ⟨.child .consoleSetup, true⟩ ∈ log)

theorem current_caller (t : Table κ) (log : List (Entry Op)) : current t log .caller = given t := by
  unfold current settled
  exact if_neg fun h => by cases h.1

section effects
variable {s : Setting} {p : Process κ Resource} {op : Op}
  {before : Nat → Option (Opened (κ ⊕ Resource))}

theorem held_joins (h : Held before [] p) (names : List String) :
    Held before [] (names.foldl (fun p name => acquire p (.joined name)) p) := by
  induction names generalizing p with
  | nil => exact h
  | cons name rest ih => exact ih (h.kept ⟨rfl, rfl⟩)

/-- All that a step opens may stay open. -/
theorem held_behind (h : Held before [] p) (hop : op ≠ .child .consoleSetup) :
    Held before [] (effect s p op) := by
  cases op with
  | caller x =>
      cases x with
      | collect => exact held_joins h s.joins
      | openConsole => exact h.kept ⟨rfl, rfl⟩
      | openCgroupProcs => exact h.kept ⟨rfl, rfl⟩
      | createPidFile => exact h.kept ⟨rfl, rfl⟩
      | pair =>
          have hparent := h.kept (r := .parentEnd) ⟨rfl, rfl⟩
          exact hparent.kept ⟨rfl, rfl⟩
      | dropChild => exact h.droppedKept _
      | _ => exact h
  | child x =>
      cases x with
      | dropParent => exact h.droppedKept _
      | consoleSetup => exact absurd rfl hop
      | _ => exact h

end effects

/-! ## Accounting for the log -/

section accounts
variable {s : Setting} {ps : Who → Option (Process κ Resource)} {op : Op} {other : Who} {ok : Bool}

theorem account_self : account s ps ⟨op, true⟩ op.who = (ps op.who).map (effect s · op) := by
  unfold account
  simp only [if_true]
  split
  · next hfork =>
      subst hfork
      have hne : Who.caller ≠ .child := by decide
      exact (Function.update_of_ne hne _ _).trans (Function.update_self _ _ _)
  · exact Function.update_self _ _ _

theorem account_child : account s ps ⟨.caller .fork, true⟩ .child = ps .caller := by
  have heffect : (ps .caller).map (effect s · (.caller .fork)) = ps .caller := Option.map_id'
  unfold account
  simp only [if_true]
  rw [Function.update_self]
  exact (Function.update_self _ _ _).trans heffect

theorem account_other (hother : other ≠ op.who) (hfork : ok = true → op ≠ .caller .fork) :
    account s ps ⟨op, ok⟩ other = ps other := by
  unfold account
  cases ok with
  | false => exact Function.update_of_ne hother _ _
  | true =>
      simp only [if_true, if_neg (hfork rfl)]
      exact Function.update_of_ne hother _ _

theorem processes_snoc (t : Table κ) (logged : Bool) (log : List (Entry Op)) (e : Entry Op) :
    processes s t logged (log ++ [e]) = account s (processes s t logged log) e := by
  rw [processes, List.foldl_append]
  rfl

end accounts

/-! ## Runs -/

/-- Whoever has a step to take has nothing open but what may stay open, and the child
has done nothing before it is forked. -/
structure Tidy (s : Setting) (t : Table κ) (logged : Bool) (w : World) : Prop where
  held : ∀ who op rest, (w.party who).ops = op :: rest →
    ∃ p, processes s t logged w.log who = some p ∧ Held (current t w.log who) [] p
  early : .caller .fork ∈ (w.party .caller).ops → (w.party .child).ops = [] ∧
    ⟨.child .consoleSetup, true⟩ ∉ w.log

section run
variable {s : Setting} {t : Table κ} {logged : Bool} {w w' next : World} {who : Who} {op : Op}
  {rest : List Op}

theorem tidy_start (s : Setting) (t : Table κ) (logged : Bool) : Tidy s t logged (start s) where
  held := by
    intro who op rest hops
    cases who with
    | caller =>
        exact ⟨_, rfl, current_caller t _ ▸ Inheritance.held_runtime t logged⟩
    | child => cases hops
  early := fun _ => ⟨rfl, List.not_mem_nil⟩

/-- But for the fork no step touches what the others have to do. -/
theorem perform_ops (h : perform s w op = .done next) (hop : op ≠ .caller .fork) (other : Who) :
    (next.party other).ops = (w.party other).ops := by
  cases op with
  | caller x =>
      cases x with
      | fork => exact absurd rfl hop
      | pair =>
          cases h
          exact update_ops fun _ => rfl
      | dropChild =>
          cases h
          exact update_ops fun _ => rfl
      | sendCgroupApplied pid =>
          simp only [perform, performCaller] at h
          split at h <;> cases h
          rfl
      | supervise =>
          simp only [perform, performCaller] at h
          split at h <;> cases h
          rfl
      | _ =>
          cases h
          rfl
  | child x =>
      cases x with
      | dropParent =>
          cases h
          exact update_ops fun _ => rfl
      | execve =>
          cases h
          exact update_ops fun _ => rfl
      | expectCgroupApplied =>
          simp only [perform, performChild] at h
          split at h
          · split at h <;> cases h
          · split at h <;> cases h
            rfl
      | _ =>
          cases h
          rfl

theorem fork_caller (h : perform s w (.caller .fork) = .done next) :
    (next.party .caller).ops = (w.party .caller).ops := by
  cases h
  exact congrArg Party.ops (update_party_other (by decide))

theorem fork_once (s : Setting) : (program s .caller).count (.caller .fork) = 1 := by
  have hjoins : (s.joins.map CallerOp.setns).count .fork = 0 := List.count_eq_zero.mpr (by simp)
  rw [program, List.count_map_of_injective _ _ fun _ _ => Op.caller.inj, callerProgram, placement]
  simp only [List.count_append, List.count_cons, hjoins]
  cases s.options.consoleSocket.isSome <;> cases s.options.pidFile.isSome <;>
    cases s.options.detach <;> rfl

theorem current_unset {log : List (Entry Op)} (h : ⟨.child .consoleSetup, true⟩ ∉ log) (who : Who) :
    current t log who = given t := by
  unfold current settled
  exact if_neg fun hset => h hset.2

theorem current_other {log : List (Entry Op)} {e : Entry Op} {other : Who}
    (h : e = ⟨.child .consoleSetup, true⟩ → other ≠ .child) :
    current t (log ++ [e]) other = current t log other := by
  have hsame : (other = .child ∧ ⟨.child .consoleSetup, true⟩ ∈ log ++ [e]) ↔
      other = .child ∧ ⟨.child .consoleSetup, true⟩ ∈ log := by
    refine and_congr_right fun hother => ?_
    rw [List.mem_append, List.mem_singleton]
    exact or_iff_left fun heq => h heq.symm hother
  exact congrArg (settled t) (propext hsame)

/-- A step leaves the party that takes it nothing open but what may stay open. -/
theorem held_next {p : Process κ Resource} (h : Held (current t w.log op.who) [] p) :
    Held (current t (w.log ++ [⟨op, true⟩]) op.who) [] (effect s p op) := by
  by_cases hop : op = .child .consoleSetup
  · subst hop
    have hbefore : onConsole (current t w.log .child) = onConsole (given t) := by
      unfold current settled
      split
      · exact onConsole_onConsole _
      · rfl
    have hafter : current t (w.log ++ [⟨.child .consoleSetup, true⟩]) .child =
        onConsole (given t) := by
      unfold current settled
      exact if_pos ⟨rfl, by simp⟩
    have hset := (h.console (settled_ne_none t _)).droppedKept .console
    rw [Op.who, hafter, ← hbefore]
    exact hset
  · rw [current_other fun heq => absurd (congrArg Entry.op heq) hop]
    exact held_behind h hop

theorem perform_record (h : perform s (w.setOps who rest) op = .done next) :
    (next.record op true).log = w.log ++ [⟨op, true⟩] := by
  rw [World.record, (perform_done h).log]
  rfl

/-- The child starts out with all the caller has open. -/
theorem Tidy.forked (h : Tidy s t logged w) (hinv : InOrder s w)
    (hops : (w.party .caller).ops = .caller .fork :: rest)
    (hdone : perform s (w.setOps .caller rest) (.caller .fork) = .done next) :
    Tidy s t logged (next.record (.caller .fork) true) := by
  have hlog := perform_record hdone
  obtain ⟨-, before, hsplit, -⟩ := hinv.progress hops
  obtain ⟨p, hp, hheld⟩ := h.held _ _ rest hops
  obtain ⟨-, hunset⟩ := h.early (hops.symm ▸ List.mem_cons_self)
  constructor
  case held =>
    intro other x more hmore
    cases other with
    | caller =>
        refine ⟨effect s p (.caller .fork), ?_, hlog ▸ held_next hheld⟩
        rw [hlog, processes_snoc]
        exact account_self.trans (congrArg (Option.map _) hp)
    | child =>
        have hunset' : ⟨.child .consoleSetup, true⟩ ∉ w.log ++ [⟨.caller .fork, true⟩] := by
          simpa using hunset
        refine ⟨p, by rw [hlog, processes_snoc, account_child, hp], ?_⟩
        rw [hlog, current_unset hunset']
        rwa [current_unset hunset] at hheld
  case early =>
    intro hmem
    have hleft : ((next.record (.caller .fork) true).party .caller).ops = rest := by
      refine (fork_caller hdone).trans ?_
      rw [World.setOps, update_party_self]
    have hcount := fork_once s
    rw [show program s .caller = before ++ .caller .fork :: rest from hsplit, List.count_append,
      List.count_cons_self] at hcount
    have hrest : Op.caller .fork ∉ rest := List.count_eq_zero.mp (by omega)
    exact absurd (hleft ▸ hmem) hrest

theorem Tidy.done (h : Tidy s t logged w) (hinv : InOrder s w)
    (hops : (w.party who).ops = op :: rest)
    (hdone : perform s (w.setOps who rest) op = .done next) :
    Tidy s t logged (next.record op true) := by
  obtain ⟨rfl, -⟩ := hinv.progress hops
  by_cases hfork : op = .caller .fork
  · subst hfork
    exact h.forked hinv hops hdone
  have hlog := perform_record hdone
  have hkept : ∀ other, other ≠ op.who →
      ((next.record op true).party other).ops = (w.party other).ops := by
    intro other hother
    refine (perform_ops hdone hfork other).trans ?_
    rw [World.setOps, update_party_other hother]
  have hleft : ((next.record op true).party op.who).ops = rest := by
    refine (perform_ops hdone hfork _).trans ?_
    rw [World.setOps, update_party_self]
  constructor
  case held =>
    intro other x more hmore
    by_cases hother : other = op.who
    · subst hother
      obtain ⟨p, hp, hheld⟩ := h.held _ op rest hops
      refine ⟨effect s p op, ?_, hlog ▸ held_next hheld⟩
      rw [hlog, processes_snoc, account_self, hp, Option.map_some]
    · obtain ⟨p, hp, hheld⟩ := h.held other x more (hkept other hother ▸ hmore)
      have hsame : current t (w.log ++ [⟨op, true⟩]) other = current t w.log other := by
        refine current_other fun heq hchild => hother ?_
        rw [hchild, show op = .child .consoleSetup from congrArg Entry.op heq]
        rfl
      refine ⟨p, ?_, ?_⟩
      · rw [hlog, processes_snoc, account_other hother fun _ => hfork, hp]
      · rw [hlog, hsame]
        exact hheld
  case early =>
    intro hmem
    have hold : .caller .fork ∈ (w.party .caller).ops := by
      by_cases hcaller : Who.caller = op.who
      · rw [hcaller, hleft] at hmem
        rw [hcaller, hops]
        exact List.mem_cons_of_mem _ hmem
      · exact hkept _ hcaller ▸ hmem
    obtain ⟨hnone, hunset⟩ := h.early hold
    have hchild : Who.child ≠ op.who := by
      intro heq
      rw [heq, hops] at hnone
      cases hnone
    refine ⟨(hkept _ hchild).trans hnone, ?_⟩
    rw [hlog, List.mem_append, List.mem_singleton]
    rintro (hmem | heq)
    · exact hunset hmem
    · cases heq
      exact hchild rfl

theorem Tidy.leave (h : Tidy s t logged w) (who : Who) : Tidy s t logged (w.leave who) where
  held := by
    intro other op rest hops
    rcases leave_ops w who other with hsame | hnil
    · exact h.held other op rest (hsame ▸ hops)
    · rw [hnil] at hops
      cases hops
  early := by
    intro hmem
    have hold : .caller .fork ∈ (w.party .caller).ops := by
      rcases leave_ops w who .caller with hsame | hnil
      · exact hsame ▸ hmem
      · rw [hnil] at hmem
        cases hmem
    obtain ⟨hnone, hunset⟩ := h.early hold
    refine ⟨?_, hunset⟩
    rcases leave_ops w who .child with hsame | hnil
    · exact hsame.trans hnone
    · exact hnil

theorem Tidy.failed (h : Tidy s t logged w) (hinv : InOrder s w)
    (hops : (w.party who).ops = op :: rest) :
    Tidy s t logged ((w.leave who).record op false) := by
  obtain ⟨rfl, -⟩ := hinv.progress hops
  have hgone : ((w.leave op.who).party op.who).ops = [] := by
    rw [World.leave, update_party_self]
  constructor
  case held =>
    intro other x more hmore
    have hother : other ≠ op.who := by
      rintro rfl
      cases hgone.symm.trans hmore
    obtain ⟨p, hp, hheld⟩ := (h.leave op.who).held other x more hmore
    refine ⟨p, ?_, ?_⟩
    · exact ((congrFun (processes_snoc t logged w.log _) other).trans
        (account_other hother fun hok => by cases hok)).trans hp
    · have hsame : current t (w.log ++ [⟨op, false⟩]) other = current t w.log other :=
        current_other fun heq => by cases heq
      exact hsame ▸ hheld
  case early =>
    intro hmem
    obtain ⟨hnone, hunset⟩ := (h.leave op.who).early hmem
    refine ⟨hnone, fun hlogged => ?_⟩
    rcases List.mem_append.mp hlogged with hold | hnew
    · exact hunset hold
    · cases List.mem_singleton.mp hnew

/-- What was open where a step was attempted. -/
def AllSeen (s : Setting) (t : Table κ) (logged : Bool) (w : World) : Prop :=
  ∀ front e back, w.log = front ++ e :: back →
    (∃ rest, Progress front (program s e.op.who) (e.op :: rest)) ∧
      ∃ p, processes s t logged front e.op.who = some p ∧ Held (current t front e.op.who) [] p

theorem AllSeen.attempt {ok : Bool} (h : AllSeen s t logged w) (htidy : Tidy s t logged w)
    (hinv : InOrder s w) (hops : (w.party who).ops = op :: rest)
    (hlog : w'.log = w.log ++ [⟨op, ok⟩]) : AllSeen s t logged w' := by
  intro front e back hsplit
  rw [hlog] at hsplit
  rcases List.eq_nil_or_concat back with hnil | ⟨init, last, hlast⟩
  · subst hnil
    obtain ⟨rfl, heq⟩ := List.append_inj' hsplit rfl
    obtain rfl : ⟨op, ok⟩ = e := by simpa using heq
    obtain ⟨rfl, hprogress⟩ := hinv.progress hops
    exact ⟨⟨rest, hprogress⟩, htidy.held _ op rest hops⟩
  · subst hlast
    have hsplit' : w.log ++ [⟨op, ok⟩] = (front ++ e :: init) ++ [last] := by simpa using hsplit
    exact h front e init (List.append_inj' hsplit' rfl).1

theorem seen_step {event : Event} (hinv : InOrder s w) (htidy : Tidy s t logged w)
    (hseen : AllSeen s t logged w) (hstep : ExecProtocol.step s w event = some w') :
    Tidy s t logged w' ∧ AllSeen s t logged w' := by
  cases event with
  | act who fault =>
      simp only [ExecProtocol.step, act] at hstep
      split at hstep
      next => cases hstep
      next op rest hops =>
        split at hstep
        next =>
          obtain rfl := Option.some.inj hstep
          exact ⟨htidy.failed hinv hops, hseen.attempt htidy hinv hops rfl⟩
        next =>
          split at hstep
          next next hdone =>
            obtain rfl := Option.some.inj hstep
            exact ⟨htidy.done hinv hops hdone, hseen.attempt htidy hinv hops (perform_record hdone)⟩
          next =>
            obtain rfl := Option.some.inj hstep
            exact ⟨htidy.failed hinv hops, hseen.attempt htidy hinv hops rfl⟩
          next => cases hstep
  | die who =>
      simp only [ExecProtocol.step, Option.ite_none_right_eq_some] at hstep
      obtain rfl := Option.some.inj hstep.2
      exact ⟨htidy.leave who, hseen⟩

theorem allSeen_run {events : List Event}
    (hrun : Transition.run (ExecProtocol.step s) (start s) events = some w) :
    AllSeen s t logged w := by
  have hall : InOrder s w ∧ Tidy s t logged w ∧ AllSeen s t logged w := by
    refine @Transition.run_invariant _ _ _
      (fun w => InOrder s w ∧ Tidy s t logged w ∧ AllSeen s t logged w)
      (fun w e w' h hstep => ?_) _ _ _ ?_ hrun
    · exact ⟨h.1.step hstep, seen_step h.1 h.2.1 h.2.2 hstep⟩
    · refine ⟨inOrder_start s, tidy_start s t logged, ?_⟩
      intro front e back hsplit
      cases front <;> cases hsplit
  exact hall.2.2

/-- Before the child executes anything it has set up the terminal it was asked to. -/
theorem consoleSetup_done {front : List (Entry Op)}
    (hrest : ∃ rest, Progress front (program s .child) (.child .execve :: rest))
    (hstaged : ∀ e ∈ front, e.op ∈ program s e.op.who) :
    ⟨.child .consoleSetup, true⟩ ∈ front ↔ s.options.consoleSocket.isSome = true := by
  constructor
  · intro hmem
    have hop : Op.child .consoleSetup ∈ (childProgram s).map Op.child := hstaged _ hmem
    rw [List.mem_map_of_injective fun _ _ => Op.child.inj] at hop
    by_contra hnone
    simp only [childProgram, enter, if_neg hnone, List.mem_cons, List.mem_append, reduceCtorEq,
      List.not_mem_nil, false_or, or_false] at hop
    rcases hop with hop | hop <;> split at hop <;> simp at hop
  · intro hsome
    obtain ⟨rest, hprogress⟩ := hrest
    have hfront : [.dropParent, .expectCgroupApplied, .chdirRoot, .consoleSetup] <+:
        childProgram s := by
      unfold childProgram enter
      rw [if_pos hsome]
      exact ⟨_, rfl⟩
    exact hprogress.before (hfront.map Op.child) (by decide) _ (by decide)

/-- What a party of an exec has open at a step. -/
structure Clean (s : Setting) (t : Table κ) (op : Op) (p : Process κ Resource) : Prop where
  executed : op = .child .execve → ∀ n, p.table.exec.get n =
    if n ≤ 2 then
      if s.options.consoleSocket.isSome then some ⟨.inr .slave, false⟩
      else some ((inherited t n).getD ⟨.inr .devNull, false⟩)
    else inherited t n
  entered : ∀ n opened r, p.table.get n = some opened → opened.object = .inr r →
    r.mayBeDirectory = false

/-- However the two interleave and whatever fails: nothing of the runtime's that is open
while the child enters the container leads out of it, and the program it executes finds
what the caller left open and its own standard descriptors, and nothing else. -/
theorem nothing_leaks_exec {events : List Event} {front back : List (Entry Op)} {e : Entry Op}
    (hrun : Transition.run (ExecProtocol.step s) (start s) events = some w)
    (hsplit : w.log = front ++ e :: back) :
    ∃ p, processes s t logged front e.op.who = some p ∧ Clean s t e.op p := by
  have hseen : AllSeen s t logged w := allSeen_run hrun
  obtain ⟨hprogress, p, hp, hheld⟩ := hseen front e back hsplit
  have hstaged : ∀ e ∈ front, e.op ∈ program s e.op.who := fun e he =>
    (inOrder_run hrun).staged e (hsplit ▸ List.mem_append_left _ he)
  refine ⟨p, hp, ?_, fun n opened r hn hr => hheld.entered hn hr⟩
  intro hop n
  rw [hop] at hheld hprogress
  have hexecuted := hheld.executed n
  simp only [Op.who, true_and, consoleSetup_done hprogress hstaged] at hexecuted
  exact hexecuted

end run

/-- A program that is executed on a terminal. -/
def terminalSetting : Setting :=
  { Placement.shellSetting with
    options := { Placement.shellSetting.options with consoleSocket := some "/run/console.sock" }
    target := { Placement.shellSetting.target with terminal := true } }

def terminalRun : List Event :=
  List.replicate 16 (.act .caller false) ++ List.replicate 9 (.act .child false)

theorem terminalRun_enabled : (Transition.run (ExecProtocol.step terminalSetting)
    (start terminalSetting) terminalRun).isSome = true := by rfl

def terminalWorld : World := Option.get _ terminalRun_enabled

theorem nothing_leaks_exec_terminal : ∃ front p,
    terminalWorld.log = front ++ [⟨.child .execve, true⟩] ∧
      processes terminalSetting Inheritance.callerTable true front .child = some p ∧
      p.table.exec.get 2 = some ⟨.inr .slave, false⟩ ∧ p.table.exec.get 3 = none ∧
      p.table.exec.get 4 = some ⟨.inl 4, false⟩ := by
  have hrun : Transition.run (ExecProtocol.step terminalSetting) (start terminalSetting)
      terminalRun = some terminalWorld := (Option.some_get terminalRun_enabled).symm
  have hsplit : terminalWorld.log =
      terminalWorld.log.dropLast ++ [⟨.child .execve, true⟩] := by rfl
  obtain ⟨p, hp, hclean⟩ : ∃ p,
      processes terminalSetting Inheritance.callerTable true terminalWorld.log.dropLast .child =
        some p ∧ Clean terminalSetting Inheritance.callerTable (.child .execve) p :=
    nothing_leaks_exec hrun hsplit
  refine ⟨_, p, hsplit, hp, ?_, ?_, ?_⟩
  · exact hclean.executed rfl 2
  · exact hclean.executed rfl 3
  · exact hclean.executed rfl 4

end Mars.ExecInheritance
