import Mars.Container.Wedge
import Mars.Core.DescriptorTable
import Mathlib.Data.List.Chain

/-! # What is open where a create starts a program

Every process of a create is forked with all the descriptors there are. What a hook,
a mapping helper or the container's program finds open comes down to which of them
are marked, and which are closed again in time.
-/

namespace Mars.Inheritance
open Protocol History Descriptors Namespace

inductive Resource where
  | devNull
  | log
  | fifo
  | console
  | parentEnd
  | childEnd
  | namespace (path : String)
  | oldRoot
  | newRoot
  | master
  | slave
  | writer
  | joined (name : String)
  | procs
  | pidFile
  | ours (fd : Nat)
  | theirs (fd : Nat)
  deriving DecidableEq

/-- The flag it is opened with. `openpty` marks nothing, nor does `park`. -/
def Resource.cloexec : Resource → Bool
  | .devNull => false
  | .master => false
  | .slave => false
  | .writer => false
  | _ => true

/-- The path of a namespace is the document's, and may lead anywhere. -/
def Resource.mayBeDirectory : Resource → Bool
  | .namespace _ => true
  | .oldRoot => true
  | .newRoot => true
  | _ => false

variable {κ : Type}

def acquire (p : Process κ Resource) (r : Resource) : Process κ Resource := p.take r r.cloexec

/-! ## What the steps open and close -/

/-- `console::adopt` -/
def adopt (p : Process κ Resource) : Process κ Resource :=
  let p := ((p.dup2 .slave 0).dup2 .slave 1).dup2 .slave 2
  match p.owned.lookup .slave with
  | some n => if n > 2 then p.drop .slave else p.forget .slave
  | none => p

/-- `console::setup` -/
def consoleSetup (p : Process κ Resource) : Process κ Resource :=
  adopt ((acquire (acquire p .master) .slave).drop .master)

/-- What is opened and closed in a step that starts nothing is left out. -/
def effect (p : Process κ Resource) : Op → Process κ Resource
  | .prepare .createFifo => acquire p .fifo
  | .prepare .openConsole => acquire p .console
  | .prepare .pair => acquire (acquire p .parentEnd) .childEnd
  | .prepare .dropChild => p.drop .childEnd
  -- the plan goes with the end
  | .settle .close => ((p.drop .parentEnd).drop .fifo).drop .console
  | .intermediate .dropParent => p.drop .parentEnd
  | .intermediate (.openNamespace path) => acquire p (.namespace path)
  | .intermediate (.setns _ path) => p.drop (.namespace path)
  | .init .pivot => ((acquire (acquire p .oldRoot) .newRoot).drop .newRoot).drop .oldRoot
  | .init .consoleSetup => consoleSetup p
  | .init .openFifo => acquire p .writer
  | .init .writeHandshake => p.drop .writer
  | _ => p

def forks : Op → Option Who
  | .prepare .fork => some .intermediate
  | .intermediate .fork => some .init
  | _ => none

/-- After a failure a party only cleans up or reports, with what it then has open. -/
def account (ps : Who → Option (Process κ Resource)) (e : Entry Op) :
    Who → Option (Process κ Resource) :=
  match e.op.stage with
  | none => ps
  | some st =>
      if e.ok then
        let ps := Function.update ps st.owner ((ps st.owner).map (effect · e.op))
        match forks e.op with
        | some child => Function.update ps child (ps st.owner)
        | none => ps
      else Function.update ps st.owner none

/-- The runtime's standard descriptors are there before `main`, and the log is opened
before the command. -/
def runtime (t : Table κ) (logged : Bool) : Process κ Resource :=
  let p := ⟨(t.exec.map Sum.inl).withStandard (.inr .devNull), []⟩
  if logged then acquire p .log else p

def processes (t : Table κ) (logged : Bool) (log : List (Entry Op)) :
    Who → Option (Process κ Resource) :=
  log.foldl account (Function.update (fun _ => none) .parent (some (runtime t logged)))

/-! ## What the steps start -/

/-- The three pipes of a hook. -/
def hookStdio : List (Option (κ ⊕ Resource) × (κ ⊕ Resource)) :=
  [0, 1, 2].map fun fd => (some (.inr (.ours fd)), .inr (.theirs fd))

/-- `Command::output` captures what the helper writes and gives it nothing to read. -/
def helperStdio : List (Option (κ ⊕ Resource) × (κ ⊕ Resource)) :=
  (none, .inr .devNull) :: [1, 2].map fun fd => (some (.inr (.ours fd)), .inr (.theirs fd))

def starts : Op → Option (List (Option (κ ⊕ Resource) × (κ ⊕ Resource)))
  | .settle (.hook _ _) => some hookStdio
  | .init (.hook _ _) => some hookStdio
  | .mapping .writeUidMap => some helperStdio
  | .mapping .writeGidMap => some helperStdio
  | _ => none

/-- What the caller has left open for the programs it starts. -/
def inherited (t : Table κ) (n : Nat) : Option (Opened (κ ⊕ Resource)) :=
  ((t.get n).filter (!·.cloexec)).map fun opened => ⟨.inl opened.object, opened.cloexec⟩

/-! ## What is held between two steps -/

/-- What has been opened for the step itself. -/
def holding : Op → List Resource
  | .intermediate (.setns _ path) => [.namespace path]
  | .init .meetReader => [.writer]
  | .init .writeHandshake => [.writer]
  | _ => []

/-- What the step leaves open for the one behind it. -/
def leaving : Op → List Resource
  | .intermediate (.openNamespace path) => [.namespace path]
  | .init .openFifo => [.writer]
  | .init .meetReader => [.writer]
  | _ => []

/-- What may stay open for long. -/
def Resource.Kept (r : Resource) : Prop := r.cloexec = true ∧ r.mayBeDirectory = false

structure Held (given : Nat → Option (Opened (κ ⊕ Resource))) (temps : List Resource)
    (p : Process κ Resource) : Prop where
  holds : Holds given Resource.cloexec p
  names : ∃ others, p.names = temps ++ others ∧ ∀ r ∈ others, r.Kept

/-- The standard descriptors have become the terminal's. -/
def onConsole (given : Nat → Option (Opened (κ ⊕ Resource))) :
    Nat → Option (Opened (κ ⊕ Resource)) :=
  Function.update (Function.update (Function.update given 0 (some ⟨.inr .slave, false⟩)) 1
    (some ⟨.inr .slave, false⟩)) 2 (some ⟨.inr .slave, false⟩)

section held
variable {given : Nat → Option (Opened (κ ⊕ Resource))} {temps : List Resource}
  {p : Process κ Resource} {r : Resource}

theorem Held.acquired (h : Held given temps p) (r : Resource) :
    Held given (r :: temps) (acquire p r) := by
  obtain ⟨others, hnames, hkept⟩ := h.names
  exact ⟨h.holds.take r, others, by simp [acquire, hnames], hkept⟩

theorem Held.kept (h : Held given [] p) (hr : r.Kept) :
    Held given [] (acquire p r) := by
  obtain ⟨others, hnames, hkept⟩ := h.names
  refine ⟨h.holds.take r, r :: others, by simp [acquire, hnames], ?_⟩
  intro r' hr'
  rcases List.mem_cons.mp hr' with rfl | hother
  · exact hr
  · exact hkept r' hother

theorem Held.dropped (h : Held given temps p) (hr : r ∈ temps) :
    Held given (temps.erase r) (p.drop r) := by
  obtain ⟨others, hnames, hkept⟩ := h.names
  exact ⟨h.holds.drop r, others, by rw [names_drop, hnames, List.erase_append_left _ hr], hkept⟩

theorem Held.droppedKept (h : Held given [] p) (r : Resource) : Held given [] (p.drop r) := by
  obtain ⟨others, hnames, hkept⟩ := h.names
  refine ⟨h.holds.drop r, others.erase r, by rw [names_drop, hnames]; rfl, ?_⟩
  intro r' hr'
  exact hkept r' (List.mem_of_mem_erase hr')

theorem Held.copied (h : Held given temps p) (new : Nat) (hnew : given new ≠ none)
    (hr : r ∈ temps) :
    Held (Function.update given new (some ⟨.inr r, false⟩)) temps (p.dup2 r new) := by
  obtain ⟨others, hnames, hkept⟩ := h.names
  have hmem : r ∈ p.names := by
    rw [hnames]
    exact List.mem_append_left _ hr
  exact ⟨h.holds.dup2 hnew hmem, others, by rw [names_dup2, hnames], hkept⟩

theorem onConsole_onConsole (given : Nat → Option (Opened (κ ⊕ Resource))) :
    onConsole (onConsole given) = onConsole given := by
  funext n
  rcases n with _ | _ | _ | n <;> simp [onConsole]

theorem onConsole_ne_none : ∀ n ≤ 2, onConsole given n ≠ none := by
  intro n hn
  rcases n with _ | _ | _ | n
  · simp [onConsole]
  · simp [onConsole]
  · simp [onConsole]
  · omega

/-- The terminal takes the place of the standard descriptors, and nothing else stays. -/
theorem Held.adopted (h : Held given [.slave] p) (hgiven : ∀ n ≤ 2, given n ≠ none) :
    Held (onConsole given) [] (adopt p) := by
  have hslave : .slave ∈ [Resource.slave] := List.mem_singleton.mpr rfl
  have hzero := h.copied 0 (hgiven 0 (by omega)) hslave
  have hone := hzero.copied 1 (by simpa using hgiven 1 (by omega)) hslave
  have htwo := hone.copied 2 (by simpa using hgiven 2 (by omega)) hslave
  obtain ⟨others, hnames, -⟩ := htwo.names
  have hmem : .slave ∈ (((p.dup2 .slave 0).dup2 .slave 1).dup2 .slave 2).names := by simp [hnames]
  obtain ⟨n, hn⟩ := exists_number hmem
  have hhigh : n > 2 := by
    by_contra hlow
    exact onConsole_ne_none n (by omega) (htwo.holds.owned _ n (lookup_forget hn).1).1
  have hadopt : adopt p =
      (((p.dup2 .slave 0).dup2 .slave 1).dup2 .slave 2).drop .slave := by
    rw [adopt]
    simp only [hn]
    exact if_pos hhigh
  rw [hadopt]
  exact htwo.dropped hslave

theorem Held.console (h : Held given [] p) (hgiven : ∀ n ≤ 2, given n ≠ none) :
    Held (onConsole given) [] (consoleSetup p) :=
  (((h.acquired .master).acquired .slave).dropped (r := .master) (by simp)).adopted hgiven

/-- What a step holds is gone behind it, but for what it leaves to the next. -/
theorem Held.behind {op : Op} (h : Held given (holding op) p) (hop : op ≠ .init .consoleSetup) :
    Held given (leaving op) (effect p op) := by
  cases op with
  | prepare x =>
      cases x with
      | createFifo => exact h.kept ⟨rfl, rfl⟩
      | openConsole => exact h.kept ⟨rfl, rfl⟩
      | pair =>
          have hparent := h.kept (r := .parentEnd) ⟨rfl, rfl⟩
          exact hparent.kept ⟨rfl, rfl⟩
      | dropChild => exact h.droppedKept _
      | _ => exact h
  | settle x =>
      cases x with
      | close => exact ((h.droppedKept _).droppedKept _).droppedKept _
      | _ => exact h
  | intermediate x =>
      cases x with
      | dropParent => exact h.droppedKept _
      | openNamespace path => exact h.acquired _
      | setns kind path =>
          have hgone := h.dropped (r := .namespace path) (List.mem_singleton.mpr rfl)
          rwa [holding, List.erase_cons_head] at hgone
      | _ => exact h
  | init x =>
      cases x with
      | pivot =>
          have hopened := (h.acquired .oldRoot).acquired .newRoot
          have hgone := hopened.dropped (r := .newRoot) List.mem_cons_self
          exact hgone.dropped (r := .oldRoot) (by simp [holding])
      | consoleSetup => exact absurd rfl hop
      | openFifo => exact h.acquired _
      | writeHandshake => exact h.dropped (r := .writer) (List.mem_singleton.mpr rfl)
      | _ => exact h
  | _ => exact h

theorem Held.all_kept (h : Held given [] p) : ∀ r ∈ p.names, r.Kept := by
  obtain ⟨others, hnames, hkept⟩ := h.names
  rw [hnames]
  exact hkept

end held

/-! ## The programs -/

/-- Nothing is left open but for the next step. -/
def Follows (x y : Op) : Prop := leaving x = holding y

/-- A part of a program that leaves nothing open and finds nothing open. -/
structure Closed (ops : List Op) : Prop where
  chain : ops.IsChain Follows
  first : ∀ x ∈ ops.head?, holding x = []
  last : ∀ x ∈ ops.getLast?, leaving x = []

theorem Closed.append {a b : List Op} (ha : Closed a) (hb : Closed b) : Closed (a ++ b) where
  chain := List.isChain_append.mpr ⟨ha.chain, hb.chain, fun x hx y hy =>
    (ha.last x hx).trans (hb.first y hy).symm⟩
  first := by
    intro x hx
    cases a with
    | nil => exact hb.first x hx
    | cons y rest => exact ha.first x hx
  last := by
    intro x hx
    rw [List.getLast?_append] at hx
    rcases Option.or_eq_some_iff.mp hx with hback | ⟨-, hfront⟩
    · exact hb.last x hback
    · exact ha.last x hfront

theorem closed_nil : Closed [] := ⟨.nil, nofun, nofun⟩

theorem closed_quiet {ops : List Op} (h : ∀ x ∈ ops, holding x = [] ∧ leaving x = []) :
    Closed ops where
  chain := by
    induction ops with
    | nil => exact .nil
    | cons x rest ih =>
        rw [List.isChain_cons]
        refine ⟨fun y hy => ?_, ih fun y hy => h y (List.mem_cons_of_mem _ hy)⟩
        have hrest := h y (List.mem_cons_of_mem _ (List.mem_of_mem_head? hy))
        exact (h x List.mem_cons_self).2.trans hrest.1.symm
  first := fun x hx => (h x (List.mem_of_mem_head? hx)).1
  last := fun x hx => (h x (List.mem_of_mem_getLast? hx)).2

theorem closed_joinExisting (plan : Plan) : Closed ((joinExisting plan).map .intermediate) := by
  rw [joinExisting]
  induction plan.join with
  | nil => exact closed_nil
  | cons entry rest ih =>
      rw [List.flatMap_cons, List.map_append]
      refine Closed.append ⟨?_, ?_, ?_⟩ ih
      · exact .cons_cons rfl (.singleton _)
      · rintro x ⟨⟩
        rfl
      · rintro x ⟨⟩
        rfl

theorem closed_init (plan : Plan) : Closed ((containerInit plan).map .init) := by
  have hsetup : Closed ((setup plan ++ [InitOp.sendInitReady]).map Op.init) := by
    refine closed_quiet fun x hx => ?_
    obtain ⟨op, hop, rfl⟩ := List.mem_map.mp hx
    rcases List.mem_append.mp hop with hop | hop
    · have hlate := setup_not_late plan op hop
      cases op <;> first | exact ⟨rfl, rfl⟩ | cases hlate
    · rw [List.mem_singleton.mp hop]
      exact ⟨rfl, rfl⟩
  have hpark : Closed ([InitOp.openFifo, .meetReader, .writeHandshake].map Op.init) := by
    refine ⟨.cons_cons rfl (.cons_cons rfl (.singleton _)), ?_, ?_⟩
    · rintro x ⟨⟩
      rfl
    · rintro x ⟨⟩
      rfl
  have hhooks : Closed ((hookOps InitOp.hookPayload .hook plan .startContainer ++
      [InitOp.unblockAll, .execve]).map Op.init) := by
    refine closed_quiet fun x hx => ?_
    obtain ⟨op, hop, rfl⟩ := List.mem_map.mp hx
    rcases List.mem_append.mp hop with hop | hop
    · rcases mem_hookOps hop with rfl | ⟨index, rfl⟩ <;> exact ⟨rfl, rfl⟩
    · simp only [List.mem_cons, List.not_mem_nil, or_false] at hop
      rcases hop with rfl | rfl <;> exact ⟨rfl, rfl⟩
  have hwhole := (hsetup.append hpark).append hhooks
  rw [← List.map_append, ← List.map_append] at hwhole
  simpa only [containerInit, parkAndExec, List.append_assoc, List.cons_append, List.nil_append]
    using hwhole

theorem closed_intermediate (plan : Plan) : Closed ((stageOne plan).map .intermediate) := by
  have hafter : Closed ((unshareAll plan ++ mapUser plan ++
      [IntermediateOp.fork, .sendInitPid, .exit]).map Op.intermediate) := by
    refine closed_quiet fun x hx => ?_
    obtain ⟨op, hop, rfl⟩ := List.mem_map.mp hx
    cases op with
    | setns kind path => simp [unshareAll, mapUser, ifTrue] at hop
    | openNamespace path => simp [unshareAll, mapUser, ifTrue] at hop
    | _ => exact ⟨rfl, rfl⟩
  have hfirst : Closed [.intermediate .dropParent] := closed_quiet (by simp [holding, leaving])
  have hwhole := (hfirst.append (closed_joinExisting plan)).append hafter
  simpa only [stageOne, List.map_append, List.map_cons, List.map_nil, List.append_assoc,
    List.cons_append, List.nil_append] using hwhole

theorem program_closed (s : Setting) (st : Stage) : Closed (program s st) := by
  cases st with
  | intermediate => exact closed_intermediate s.plan
  | init => exact closed_init s.plan
  | _ =>
      refine closed_quiet fun x hx => ?_
      obtain ⟨op, -, rfl⟩ := List.mem_map.mp hx
      exact ⟨rfl, rfl⟩

/-! ## Accounting for the log -/

section accounts
variable {ps : Who → Option (Process κ Resource)} {op : Op} {st : Stage} {child other : Who}
  {ok : Bool}

theorem forks_owner (h : forks op = some child) : ∃ st, op.stage = some st ∧ st.owner ≠ child := by
  unfold forks at h
  split at h
  · cases h
    exact ⟨.prepare, rfl, nofun⟩
  · cases h
    exact ⟨.intermediate, rfl, nofun⟩
  · cases h

theorem account_idle (h : op.stage = none) : account ps ⟨op, ok⟩ = ps := by
  simp only [account, h]

theorem account_self (h : op.stage = some st) :
    account ps ⟨op, true⟩ st.owner = (ps st.owner).map (effect · op) := by
  simp only [account, h, if_true]
  cases hforks : forks op with
  | none => exact Function.update_self _ _ _
  | some child =>
      obtain ⟨st', hst', hne⟩ := forks_owner hforks
      obtain rfl : st = st' := Option.some.inj (h.symm.trans hst')
      dsimp only
      rw [Function.update_of_ne hne, Function.update_self]

theorem account_child (h : op.stage = some st) (hforks : forks op = some child) :
    account ps ⟨op, true⟩ child = (ps st.owner).map (effect · op) := by
  simp only [account, h, if_true, hforks]
  rw [Function.update_self, Function.update_self]

theorem account_other (h : op.stage = some st) (hother : other ≠ st.owner)
    (hforks : ok = true → forks op ≠ some other) : account ps ⟨op, ok⟩ other = ps other := by
  simp only [account, h]
  cases ok with
  | false => exact Function.update_of_ne hother _ _
  | true =>
      simp only [if_true]
      cases hchild : forks op with
      | none => exact Function.update_of_ne hother _ _
      | some child =>
          have hne : other ≠ child := fun heq => hforks rfl (heq ▸ hchild)
          dsimp only
          rw [Function.update_of_ne hne, Function.update_of_ne hother]

end accounts

/-- What the processes are given: the caller's descriptors and the standard ones. -/
def given (t : Table κ) : Nat → Option (Opened (κ ⊕ Resource)) :=
  ((t.exec.map Sum.inl).withStandard (.inr .devNull)).get

theorem given_eq (t : Table κ) (n : Nat) : given t n =
    if n ≤ 2 then some ((inherited t n).getD ⟨.inr .devNull, false⟩) else inherited t n := by
  rw [given, get_withStandard, get_map, get_exec]
  rfl

theorem given_ne_none (t : Table κ) : ∀ n ≤ 2, given t n ≠ none := by
  intro n hn
  rw [given_eq, if_pos hn]
  exact Option.some_ne_none _

open Classical in
/-- and what one is left with once its terminal is set up. -/
noncomputable def settled (t : Table κ) (terminal : Prop) : Nat → Option (Opened (κ ⊕ Resource)) :=
  if terminal then onConsole (given t) else given t

theorem settled_ne_none (t : Table κ) (terminal : Prop) :
    ∀ n ≤ 2, settled t terminal n ≠ none := by
  unfold settled
  split
  · exact onConsole_ne_none
  · exact given_ne_none t

/-- Only init sets up a terminal. -/
noncomputable def current (t : Table κ) (log : List (Entry Op)) (st : Stage) :
    Nat → Option (Opened (κ ⊕ Resource)) :=
  settled t (st = .init ∧ ⟨.init .consoleSetup, true⟩ ∈ log)

theorem current_given {t : Table κ} {log : List (Entry Op)} {st : Stage}
    (h : st = .init → ⟨.init .consoleSetup, true⟩ ∉ log) : current t log st = given t :=
  if_neg fun hset => h hset.1 hset.2

theorem current_other {t : Table κ} {log : List (Entry Op)} {e : Entry Op} {st : Stage}
    (h : e = ⟨.init .consoleSetup, true⟩ → st ≠ .init) :
    current t (log ++ [e]) st = current t log st := by
  have hsame : (st = .init ∧ ⟨.init .consoleSetup, true⟩ ∈ log ++ [e]) ↔
      st = .init ∧ ⟨.init .consoleSetup, true⟩ ∈ log := by
    refine and_congr_right fun hst => ?_
    rw [List.mem_append, List.mem_singleton]
    exact or_iff_left fun heq => h heq.symm hst
  exact congrArg (settled t) (propext hsame)

theorem held_runtime (t : Table κ) (logged : Bool) : Held (given t) [] (runtime t logged) := by
  have hbare : Held (given t) [] ⟨(t.exec.map Sum.inl).withStandard (.inr .devNull), []⟩ :=
    ⟨holds_start _, [], rfl, nofun⟩
  cases logged with
  | false => exact hbare
  | true => exact hbare.kept ⟨rfl, rfl⟩

/-! ## Runs -/

/-- Whoever has a step to take has nothing open but what it may keep and what the
step is about. -/
def Tidy (t : Table κ) (logged : Bool) (w : World) : Prop :=
  ∀ who op rest st, (w.party who).ops = op :: rest → op.stage = some st →
    ∃ p, processes t logged w.log who = some p ∧ Held (current t w.log st) (holding op) p

section run
variable {s : Setting} {t : Table κ} {logged : Bool} {w w' : World} {who : Who} {op : Op}
  {rest : List Op} {ok : Bool} {put : Option Stage}

theorem tidy_start (s : Setting) (t : Table κ) (logged dir stateFile : Bool) :
    Tidy t logged (start s dir stateFile) := by
  intro who op rest st hops hstage
  cases who with
  | parent =>
      have hprogram : program s .prepare = op :: rest := hops
      have hfirst := (program_closed s .prepare).first op (by rw [hprogram]; rfl)
      refine ⟨runtime t logged, rfl, ?_⟩
      rw [hfirst]
      have hcurrent : current t (start s dir stateFile).log st = given t :=
        if_neg fun h => by cases h.2
      rw [hcurrent]
      exact held_runtime t logged
  | intermediate => cases hops
  | init => cases hops

theorem processes_snoc (t : Table κ) (logged : Bool) (log : List (Entry Op)) (e : Entry Op) :
    processes t logged (log ++ [e]) = account (processes t logged log) e := by
  rw [processes, List.foldl_append]
  rfl

/-- A step of a program leaves the next one what it is about. -/
theorem Held.next {p : Process κ Resource} {x : Op} {st : Stage}
    (h : Held (current t w.log st) (holding op) p) (hstage : op.stage = some st)
    (hfollows : leaving op = holding x) :
    Held (current t (w.log ++ [⟨op, true⟩]) st) (holding x) (effect p op) := by
  rw [← hfollows]
  by_cases hop : op = .init .consoleSetup
  · subst hop
    obtain rfl : .init = st := Option.some.inj hstage
    have hset := h.console (settled_ne_none t _)
    have hafter : current t (w.log ++ [⟨.init .consoleSetup, true⟩]) .init = onConsole (given t) :=
      if_pos ⟨rfl, by simp⟩
    have hbefore : onConsole (current t w.log .init) = onConsole (given t) := by
      unfold current settled
      split
      · exact onConsole_onConsole _
      · rfl
    rw [hafter, ← hbefore]
    exact hset
  · rw [current_other fun heq => absurd (congrArg Entry.op heq) hop]
    exact h.behind hop

/-- A fork opens and closes nothing. -/
theorem forks_quiet {child : Who} (h : forks op = some child) (p : Process κ Resource) :
    effect p op = p := by
  unfold forks at h
  split at h
  · rfl
  · rfl
  · cases h

theorem forks_early {child : Who} (h : forks op = some child) :
    holding op = [] ∧ op.stage ≠ some .init := by
  unfold forks at h
  split at h
  · exact ⟨rfl, nofun⟩
  · exact ⟨rfl, nofun⟩
  · cases h

/-- A fork puts the whole program of the child in place, and no terminal has been
set up before it. -/
theorem forked_program {child : Who} (hinv : InOrder s w) (hstepwise : Stepwise s w)
    (h : Attempt s w w' who op rest true put) (hforks : forks op = some child) :
    ∃ st, (w'.party child).ops = program s st ∧
      (st = .init → ⟨.init .consoleSetup, true⟩ ∉ w'.log) := by
  obtain ⟨next, hdone, rfl⟩ := h.done rfl
  have hlog := h.log
  unfold forks at hforks
  split at hforks
  · cases hforks
    cases hdone
    exact ⟨.intermediate, forked_ops_self _ _ _ _, nofun⟩
  · cases hforks
    obtain ⟨rfl, -⟩ := hinv.progress h.ops rfl
    have hunborn := hstepwise.unborn (h.ops.symm ▸ List.mem_cons_self)
    cases hdone
    refine ⟨.init, forked_ops_self _ _ _ _, fun _ hmem => ?_⟩
    rw [hlog] at hmem
    rcases List.mem_append.mp hmem with hold | hnew
    · have hattempted : _ ∈ w.attempted .init := List.mem_filter.mpr ⟨hold, rfl⟩
      rw [hunborn.untouched] at hattempted
      cases hattempted
    · cases List.mem_singleton.mp hnew
  · cases hforks

theorem Tidy.failed (h : Tidy t logged w) (hinv : InOrder s w)
    (hattempt : Attempt s w w' who op rest false put) : Tidy t logged w' := by
  obtain ⟨error, next, hfails, rfl⟩ := hattempt.failed rfl
  intro other x more st hops hstage
  have hlog := hattempt.log
  have hcurrent : current t ((next.record op false).fail op error).log st = current t w.log st := by
    rw [hlog]
    exact current_other fun heq => by cases heq
  by_cases hother : other = who
  · subst hother
    have hx : x ∈ (((next.record op false).fail op error).party other).ops := by
      rw [hops]
      exact List.mem_cons_self
    cases hop : op.stage with
    | none =>
        rw [fail_of_no_stage hop, record_party, hfails.read.party, setOps_ops_self] at hx
        rw [hinv.rest_stage hattempt.ops x hx, hop] at hstage
        cases hstage
    | some st' =>
        obtain ⟨rfl, -⟩ := hinv.progress hattempt.ops hop
        rw [fail_no_stage hop x hx] at hstage
        cases hstage
  · rw [hfails.party_other hinv hattempt.ops hother] at hops
    obtain ⟨p, hp, hheld⟩ := h other x more st hops hstage
    refine ⟨p, ?_, hcurrent ▸ hheld⟩
    rw [hlog, processes_snoc]
    cases hop : op.stage with
    | none => rw [account_idle hop, hp]
    | some st' =>
        obtain ⟨rfl, -⟩ := hinv.progress hattempt.ops hop
        rw [account_other hop hother (fun hok => by cases hok), hp]

/-- What a step that succeeds puts in place without a fork is the runtime's next program. -/
theorem Installs.runtime {st : Stage} (h : Installs op st) (hforks : forks op ≠ some st.owner) :
    st.owner = .parent ∧ st ≠ .init ∧ holding op = [] ∧
      ∃ st', op.stage = some st' ∧ st'.owner = .parent ∧ st' ≠ .init := by
  cases h with
  | forkIntermediate => exact absurd rfl hforks
  | forkInit => exact absurd rfl hforks
  | map => exact ⟨rfl, nofun, rfl, _, rfl, rfl, nofun⟩
  | settle => exact ⟨rfl, nofun, rfl, _, rfl, rfl, nofun⟩
  | settleMapped => exact ⟨rfl, nofun, rfl, _, rfl, rfl, nofun⟩

theorem Installs.quiet {st : Stage} (h : Installs op st) (p : Process κ Resource) :
    effect p op = p := by
  cases h <;> rfl

/-- Nothing is held where a program starts. -/
theorem holding_first {x : Op} {more : List Op} {st st' : Stage}
    (hprogram : program s st' = x :: more) (hstage : x.stage = some st) :
    st' = st ∧ holding x = [] := by
  have hmem : x ∈ program s st' := hprogram ▸ List.mem_cons_self
  exact ⟨Option.some.inj ((stage_of_mem_program hmem).symm.trans hstage),
    (program_closed s st').first x (by rw [hprogram]; rfl)⟩

section succeeded
variable {other : Who} {x : Op} {more : List Op} {st st' : Stage}

/-- A child starts out with what the party that forks it has open. -/
theorem Tidy.forked (h : Tidy t logged w) (hinv : InOrder s w) (hstepwise : Stepwise s w)
    (hattempt : Attempt s w w' who op rest true put) (hop : op.stage = some st')
    (hforks : forks op = some other) (hops : (w'.party other).ops = x :: more)
    (hstage : x.stage = some st) :
    ∃ p, account (processes t logged w.log) ⟨op, true⟩ other = some p ∧
      Held (current t (w.log ++ [⟨op, true⟩]) st) (holding x) p := by
  obtain ⟨rfl, -⟩ := hinv.progress hattempt.ops hop
  obtain ⟨p, hp, hheld⟩ := h _ op rest st' hattempt.ops hop
  obtain ⟨hholding, hstage'⟩ := forks_early hforks
  obtain ⟨st'', hprogram, hgiven⟩ := forked_program hinv hstepwise hattempt hforks
  obtain ⟨rfl, hnothing⟩ := holding_first (hprogram.symm.trans hops) hstage
  refine ⟨p, by rw [account_child hop hforks, hp, Option.map_some, forks_quiet hforks], ?_⟩
  rw [hnothing, ← hattempt.log, current_given hgiven]
  rwa [hholding, current_given fun heq => absurd (heq ▸ hop) hstage'] at hheld

/-- The runtime starts its next program with what it has open. -/
theorem Tidy.installed (h : Tidy t logged w) (hinv : InOrder s w)
    (hattempt : Attempt s w w' who op rest true put) (hop : op.stage = some st')
    {st'' : Stage} (hput : put = some st'') (hforks : forks op ≠ some st''.owner)
    (hops : (w'.party st''.owner).ops = x :: more) (hstage : x.stage = some st) :
    ∃ p, account (processes t logged w.log) ⟨op, true⟩ st''.owner = some p ∧
      Held (current t (w.log ++ [⟨op, true⟩]) st) (holding x) p := by
  obtain ⟨rfl, -⟩ := hinv.progress hattempt.ops hop
  obtain ⟨p, hp, hheld⟩ := h _ op rest st' hattempt.ops hop
  have hinstalls := hattempt.installs st'' hput
  obtain ⟨howner, hearly, hholding, st₀, hst₀, howner', hearly'⟩ :=
    Installs.runtime hinstalls hforks
  obtain rfl : st' = st₀ := Option.some.inj (hop.symm.trans hst₀)
  obtain ⟨rfl, hnothing⟩ := holding_first ((hattempt.placed st'' hput).symm.trans hops) hstage
  refine ⟨p, ?_, ?_⟩
  · rw [howner, ← howner', account_self hop, hp, Option.map_some, Installs.quiet hinstalls]
  · rw [hnothing, current_given fun heq => absurd heq hearly]
    rwa [hholding, current_given fun heq => absurd heq hearly'] at hheld

/-- The party that takes the step leaves its next one what it is about. -/
theorem Tidy.continued (h : Tidy t logged w) (hinv : InOrder s w)
    (hops : (w.party who).ops = op :: x :: more) (hstage : x.stage = some st) :
    ∃ p, account (processes t logged w.log) ⟨op, true⟩ who = some p ∧
      Held (current t (w.log ++ [⟨op, true⟩]) st) (holding x) p := by
  have hop : op.stage = some st := (hinv.rest_stage hops x List.mem_cons_self).symm.trans hstage
  obtain ⟨rfl, done, hsplit, -⟩ := hinv.progress hops hop
  obtain ⟨p, hp, hheld⟩ := h _ op _ st hops hop
  have hpair : [op, x] <:+: program s st := ⟨done, more, by rw [hsplit]; simp⟩
  have hchain := List.IsChain.infix (program_closed s st).chain hpair
  have hfollows : Follows op x := List.isChain_pair.mp hchain
  exact ⟨effect p op, by rw [account_self hop, hp]; rfl, hheld.next hop hfollows⟩

end succeeded

theorem Tidy.done (h : Tidy t logged w) (hinv : InOrder s w) (hstepwise : Stepwise s w)
    (hattempt : Attempt s w w' who op rest true put) : Tidy t logged w' := by
  intro other x more st hops hstage
  have hidle : ¬∀ y ∈ (w'.party other).ops, y.Idle := by
    intro hidle
    cases hstage.symm.trans (hidle x (by rw [hops]; exact List.mem_cons_self))
  have htaken : (w'.party other).ops = rest → (w.party who).ops = op :: x :: more := fun hrest => by
    rw [hattempt.ops, ← hrest, hops]
  rw [hattempt.log, processes_snoc]
  cases hop : op.stage with
  | none =>
      have hsame : current t (w.log ++ [⟨op, true⟩]) st = current t w.log st := by
        refine current_other fun heq => ?_
        cases heq
        cases hop
      rw [account_idle hop, hsame]
      have hnone : ∀ st', put = some st' → st'.owner ≠ other := by
        intro st' hput
        cases hattempt.installs st' hput <;> cases hop
      rcases hattempt.others other hnone with ⟨hkept, -⟩ | ⟨hrest, -, -⟩ | hall
      · exact h other x more st (hkept ▸ hops) hstage
      · have hx := hinv.rest_stage (htaken hrest) x List.mem_cons_self
        rw [hop, hstage] at hx
        cases hx
      · exact absurd hall hidle
  | some st' =>
      by_cases hforks : forks op = some other
      · exact h.forked hinv hstepwise hattempt hop hforks hops hstage
      by_cases hput : ∃ st'', put = some st'' ∧ st''.owner = other
      · obtain ⟨st'', hput, rfl⟩ := hput
        exact h.installed hinv hattempt hop hput hforks hops hstage
      rcases hattempt.others other (fun st'' hst'' heq => hput ⟨st'', hst'', heq⟩) with
        ⟨hkept, hother⟩ | ⟨hrest, rfl, -⟩ | hall
      · rw [hkept] at hops
        obtain ⟨p, hp, hheld⟩ := h other x more st hops hstage
        obtain ⟨rfl, -⟩ := hinv.progress hattempt.ops hop
        refine ⟨p, by rw [account_other hop hother fun _ => hforks, hp], ?_⟩
        rw [current_other]
        · exact hheld
        · rintro heq rfl
          cases heq
          obtain rfl := Option.some.inj hop
          exact hother (hinv.progress hops hstage).1.symm
      · exact h.continued hinv (htaken hrest) hstage
      · exact absurd hall hidle

theorem Tidy.keep (h : Tidy t logged w) (hlog : w'.log = w.log)
    (hops : ∀ other, (w'.party other).ops = (w.party other).ops ∨ (w'.party other).ops = []) :
    Tidy t logged w' := by
  intro who op rest st hleft hstage
  rw [hlog]
  rcases hops who with hsame | hnil
  · exact h who op rest st (hsame ▸ hleft) hstage
  · rw [hnil] at hleft
    cases hleft

theorem Tidy.step {event : Event} (h : Tidy t logged w) (hinv : InOrder s w)
    (hstepwise : Stepwise s w) (hstep : Protocol.step s w event = some w') : Tidy t logged w' := by
  cases event <;> simp only [Protocol.step, Option.ite_none_right_eq_some] at hstep
  case act who fault =>
    obtain ⟨op, rest, ok, put, hattempt⟩ := act_attempt hinv hstep.2
    cases ok with
    | true => exact h.done hinv hstepwise hattempt
    | false => exact h.failed hinv hattempt
  case die who =>
    obtain rfl := Option.some.inj hstep.2
    exact h.keep rfl fun other => leave_ops w who other
  case kill who =>
    obtain rfl := Option.some.inj hstep.2
    exact h.keep rfl fun other => Or.inl (update_ops w who other _ fun _ => rfl)
  case reader =>
    obtain rfl := Option.some.inj hstep
    intro who op rest st hops hstage
    obtain ⟨p, hp, hheld⟩ := h who op rest st hops hstage
    refine ⟨p, (congrFun (processes_snoc t logged w.log _) who).trans ?_, ?_⟩
    · rw [account_idle rfl, hp]
    · have hsame : current t (w.log ++ [⟨.readerOpens, true⟩]) st = current t w.log st :=
        current_other fun heq => by cases heq
      exact hsame ▸ hheld

/-- What was open where a step was attempted. -/
def Seen (s : Setting) (t : Table κ) (logged : Bool) (front : List (Entry Op)) (op : Op) : Prop :=
  ∀ st, op.stage = some st → (∃ rest, Progress front (program s st) (op :: rest)) ∧
    ∃ p, processes t logged front st.owner = some p ∧ Held (current t front st) (holding op) p

def AllSeen (s : Setting) (t : Table κ) (logged : Bool) (w : World) : Prop :=
  ∀ front e back, w.log = front ++ e :: back → Seen s t logged front e.op

theorem AllSeen.snoc {e : Entry Op} (h : AllSeen s t logged w) (hlog : w'.log = w.log ++ [e])
    (he : Seen s t logged w.log e.op) : AllSeen s t logged w' := by
  intro front e' back hsplit
  rw [hlog] at hsplit
  rcases List.eq_nil_or_concat back with hnil | ⟨init, last, hlast⟩
  · subst hnil
    obtain ⟨hfront, heq⟩ := List.append_inj' hsplit rfl
    obtain rfl : e = e' := by simpa using heq
    exact hfront ▸ he
  · subst hlast
    have hsplit' : w.log ++ [e] = (front ++ e' :: init) ++ [last] := by simpa using hsplit
    exact h front e' init (List.append_inj' hsplit' rfl).1

theorem AllSeen.step {event : Event} (h : AllSeen s t logged w) (htidy : Tidy t logged w)
    (hinv : InOrder s w) (hstep : Protocol.step s w event = some w') : AllSeen s t logged w' := by
  cases event <;> simp only [Protocol.step, Option.ite_none_right_eq_some] at hstep
  case act who fault =>
    obtain ⟨op, rest, ok, put, hattempt⟩ := act_attempt hinv hstep.2
    refine h.snoc hattempt.log fun st hstage => ?_
    obtain ⟨rfl, hprogress⟩ := hinv.progress hattempt.ops hstage
    exact ⟨⟨rest, hprogress⟩, htidy _ op rest st hattempt.ops hstage⟩
  case die who =>
    obtain rfl := Option.some.inj hstep.2
    exact h
  case kill who =>
    obtain rfl := Option.some.inj hstep.2
    exact h
  case reader =>
    obtain rfl := Option.some.inj hstep
    exact h.snoc rfl fun st hstage => by cases hstage

theorem allSeen_run {dir stateFile : Bool} {events : List Event}
    (hrun : Transition.run (step s) (start s dir stateFile) events = some w) :
    AllSeen s t logged w := by
  have hall : InOrder s w ∧ Stepwise s w ∧ Tidy t logged w ∧ AllSeen s t logged w := by
    refine @Transition.run_invariant _ _ _
      (fun w => InOrder s w ∧ Stepwise s w ∧ Tidy t logged w ∧ AllSeen s t logged w)
      (fun w e w' h hstep => ?_) _ _ _ ?_ hrun
    · exact ⟨h.1.step hstep, h.2.1.step h.1 hstep, h.2.2.1.step h.1 h.2.1 hstep,
        h.2.2.2.step h.2.2.1 h.1 hstep⟩
    · refine ⟨inOrder_start s dir stateFile, stepwise_start s dir stateFile,
        tidy_start s t logged dir stateFile, ?_⟩
      intro front e back hsplit
      cases front <;> cases hsplit
  exact hall.2.2.2

end run

/-! ## What programs inherit -/

/-- Init sets up a terminal only in a mount namespace of its own. -/
def onTerminal (plan : Plan) : Bool :=
  contains plan.unshareFlags CLONE_NEWNS && plan.console

/-- Nothing of the runtime's is open in what a step starts or executes, and where init
changes to its working directory nothing of the runtime's can be a directory. -/
structure Clean (plan : Plan) (t : Table κ) (op : Op) (p : Process κ Resource) : Prop where
  started : ∀ stdio, starts op = some stdio → ∀ n, (p.table.spawn stdio).get n =
    (stdio[n]?.map fun ends => ⟨ends.2, false⟩).or (inherited t n)
  executed : op = .init .execve → ∀ n, p.table.exec.get n =
    if n ≤ 2 then
      if onTerminal plan then some ⟨.inr .slave, false⟩
      else some ((inherited t n).getD ⟨.inr .devNull, false⟩)
    else inherited t n
  entered : op = .init .chdir → ∀ n opened r, p.table.get n = some opened →
    opened.object = .inr r → r.mayBeDirectory = false

theorem mem_consoleSetup (plan : Plan) : .consoleSetup ∈ setup plan ↔ onTerminal plan = true := by
  have hhook : ∀ phase, InitOp.consoleSetup ∉ hookOps InitOp.hookPayload .hook plan phase := by
    intro phase hmem
    rcases mem_hookOps hmem with heq | ⟨index, heq⟩ <;> cases heq
  unfold onTerminal setup mountSteps hardenSteps securitySteps
  split
  · next hns => split <;> simp [hns, hhook]
  · next hns => simp [hns, hhook]

theorem unmarked_inherited (t : Table κ) (n : Nat) :
    (inherited t n).filter (!·.cloexec) = inherited t n := by
  unfold inherited
  cases hn : (t.get n).filter (!·.cloexec) with
  | none => rfl
  | some opened =>
      have hmark := (Option.filter_eq_some_iff.mp hn).2
      simpa using hmark

section run
variable {s : Setting} {t : Table κ} {logged : Bool} {w : World} {front back : List (Entry Op)}
  {e : Entry Op} {st : Stage} {p : Process κ Resource} {events : List Event}
  {dir stateFile : Bool} {terminal : Prop}

/-- Past the standard ones there is what the caller left open. -/
theorem settled_above {n : Nat} (hn : ¬n ≤ 2) : settled t terminal n = inherited t n := by
  have hgiven : given t n = inherited t n := by rw [given_eq, if_neg hn]
  unfold settled
  split
  · rw [onConsole, Function.update_of_ne (by omega), Function.update_of_ne (by omega),
      Function.update_of_ne (by omega), hgiven]
  · exact hgiven

theorem settled_standard [Decidable terminal] {n : Nat} (hn : n ≤ 2) : settled t terminal n =
    if terminal then some ⟨.inr .slave, false⟩
    else some ((inherited t n).getD ⟨.inr .devNull, false⟩) := by
  unfold settled
  split
  · rcases n with _ | _ | _ | n
    · simp [onConsole]
    · simp [onConsole]
    · simp [onConsole]
    · omega
  · rw [given_eq, if_pos hn]

theorem Held.started (h : Held (settled t terminal) [] p)
    {stdio : List (Option (κ ⊕ Resource) × (κ ⊕ Resource))} (hlength : stdio.length = 3)
    (n : Nat) : (p.table.spawn stdio).get n =
      (stdio[n]?.map fun ends => ⟨ends.2, false⟩).or (inherited t n) := by
  rw [h.holds.spawn (fun r hr => (h.all_kept r hr).1)
    (fun n hn => settled_ne_none t terminal n (by omega))]
  by_cases hn : n ≤ 2
  · rw [List.getElem?_eq_getElem (by omega)]
    rfl
  · rw [settled_above hn, unmarked_inherited]

theorem Held.executed [Decidable terminal] (h : Held (settled t terminal) [] p) (n : Nat) :
    p.table.exec.get n =
      if n ≤ 2 then
        if terminal then some ⟨.inr .slave, false⟩
        else some ((inherited t n).getD ⟨.inr .devNull, false⟩)
      else inherited t n := by
  rw [h.holds.exec fun r hr => (h.all_kept r hr).1]
  split
  · next hn =>
      rw [settled_standard hn]
      split
      · rfl
      · cases hinherited : inherited t n with
        | none => rfl
        | some opened =>
            have hunmarked := unmarked_inherited t n
            rwa [hinherited] at hunmarked
  · next hn => rw [settled_above hn, unmarked_inherited]

theorem inherited_object {n : Nat} {opened : Opened (κ ⊕ Resource)} {r : Resource}
    (h : inherited t n = some opened) : opened.object ≠ .inr r := by
  obtain ⟨found, -, rfl⟩ := Option.map_eq_some_iff.mp h
  nofun

theorem Held.entered (h : Held (settled t terminal) [] p) {n : Nat}
    {opened : Opened (κ ⊕ Resource)} {r : Resource} (hn : p.table.get n = some opened)
    (hr : opened.object = .inr r) : r.mayBeDirectory = false := by
  classical
  by_cases howned : n ∈ p.owned.map Prod.snd
  · obtain ⟨⟨r', m⟩, hentry, rfl⟩ := List.mem_map.mp howned
    have hopened := (h.holds.owned r' m hentry).2
    obtain rfl := Option.some.inj (hn.symm.trans hopened)
    obtain rfl := Sum.inr.inj hr
    exact (h.all_kept _ (List.mem_map_of_mem hentry)).2
  · rw [h.holds.others n howned] at hn
    by_cases hlow : n ≤ 2
    · rw [settled_standard hlow] at hn
      split at hn
      · obtain rfl := Option.some.inj hn
        obtain rfl := Sum.inr.inj hr
        rfl
      · cases hinherited : inherited t n with
        | none =>
            rw [hinherited] at hn
            obtain rfl := Option.some.inj hn
            obtain rfl := Sum.inr.inj hr
            rfl
        | some found =>
            rw [hinherited] at hn
            obtain rfl := Option.some.inj hn
            exact absurd hr (inherited_object hinherited)
    · rw [settled_above hlow] at hn
      exact absurd hr (inherited_object hn)

/-- Before init executes anything it has worked through its whole setup. -/
theorem consoleSetup_done (hrest : ∃ rest, Progress front (program s .init) (.init .execve :: rest))
    (hstaged : ∀ e ∈ front, ∀ st, e.op.stage = some st → e.op ∈ program s st) :
    ⟨.init .consoleSetup, true⟩ ∈ front ↔ onTerminal s.plan = true := by
  have hprogram : program s .init = (setup s.plan).map Op.init ++
      (.sendInitReady :: parkAndExec s.plan).map Op.init := by
    rw [program, containerInit, List.map_append]
  rw [← mem_consoleSetup]
  constructor
  · intro hmem
    have hop := hstaged _ hmem .init rfl
    rw [hprogram, List.mem_append, List.mem_map_of_injective fun _ _ => Op.init.inj,
      List.mem_map_of_injective fun _ _ => Op.init.inj] at hop
    refine hop.resolve_right fun hlater => ?_
    simp only [parkAndExec, List.mem_cons, List.mem_append, List.not_mem_nil, reduceCtorEq,
      false_or, or_false] at hlater
    rcases mem_hookOps hlater with heq | ⟨index, heq⟩ <;> cases heq
  · intro hmem
    obtain ⟨rest, hprogress⟩ := hrest
    refine hprogress.before ⟨_, hprogram.symm⟩ (fun hexecve => ?_) _ (List.mem_map_of_mem hmem)
    rw [List.mem_map_of_injective fun _ _ => Op.init.inj] at hexecve
    cases setup_not_late s.plan _ hexecve

theorem starts_three {op : Op} {stdio : List (Option (κ ⊕ Resource) × (κ ⊕ Resource))}
    (h : starts op = some stdio) : holding op = [] ∧ stdio.length = 3 := by
  unfold starts at h
  split at h
  · cases h
    exact ⟨rfl, rfl⟩
  · cases h
    exact ⟨rfl, rfl⟩
  · cases h
    exact ⟨rfl, rfl⟩
  · cases h
    exact ⟨rfl, rfl⟩
  · cases h

/-- However the steps of a create interleave and whatever fails: a hook, a mapping helper and the
container's program find open what the caller left open for them and their own standard
descriptors, the terminal's where there is one, and nothing else. -/
theorem nothing_leaks (hrun : Transition.run (step s) (start s dir stateFile) events = some w)
    (hsplit : w.log = front ++ e :: back) (hstage : e.op.stage = some st) :
    ∃ p, processes t logged front st.owner = some p ∧ Clean s.plan t e.op p := by
  have hseen : AllSeen s t logged w := allSeen_run hrun
  obtain ⟨hprogress, p, hp, hheld⟩ := hseen front e back hsplit st hstage
  have hstaged : ∀ e ∈ front, ∀ st, e.op.stage = some st → e.op ∈ program s st := by
    intro e he
    exact (inOrder_run hrun).staged e (hsplit ▸ List.mem_append_left _ he)
  refine ⟨p, hp, ?_, ?_, ?_⟩
  · intro stdio hstarts n
    obtain ⟨hnothing, hlength⟩ := starts_three hstarts
    rw [hnothing] at hheld
    exact hheld.started hlength n
  · intro hop
    rw [hop] at hstage hheld hprogress
    obtain rfl := Option.some.inj hstage
    intro n
    have hexecuted := hheld.executed n
    simp only [true_and, consoleSetup_done hprogress hstaged] at hexecuted
    exact hexecuted
  · intro hop n opened r hn hr
    rw [hop] at hstage hheld
    obtain rfl := Option.some.inj hstage
    exact hheld.entered hn hr

end run

/-- A container with a terminal. -/
def terminalPlan : Plan :=
  { Placement.userPlan with unshareFlags := CLONE_NEWUSER ||| CLONE_NEWNS, console := true }

def terminalSetting : Setting := { Placement.userSetting with plan := terminalPlan }

open Placement in
def terminalRun : List Event :=
  acts .parent 15 ++ acts .intermediate 4 ++ acts .parent 6 ++ acts .intermediate 6 ++
    acts .parent 4 ++ acts .init 17 ++ acts .parent 5 ++ .reader :: acts .init 5

theorem terminalRun_enabled : (Transition.run (step terminalSetting)
    (start terminalSetting false false) terminalRun).isSome = true := by rfl

def terminalWorld : World := Option.get _ terminalRun_enabled

/-- One descriptor of the caller's is marked, and one is not. -/
def callerTable : Table Nat :=
  ⟨[some ⟨0, false⟩, some ⟨1, false⟩, none, some ⟨3, true⟩, some ⟨4, false⟩]⟩

theorem nothing_leaks_terminal : ∃ front p,
    terminalWorld.log = front ++ [⟨.init .execve, true⟩] ∧
      processes callerTable true front .init = some p ∧
      p.table.exec.get 2 = some ⟨.inr .slave, false⟩ ∧ p.table.exec.get 3 = none ∧
      p.table.exec.get 4 = some ⟨.inl 4, false⟩ := by
  have hrun : Transition.run (step terminalSetting) (start terminalSetting false false)
      terminalRun = some terminalWorld := (Option.some_get terminalRun_enabled).symm
  have hsplit : terminalWorld.log = terminalWorld.log.dropLast ++ [⟨.init .execve, true⟩] := by rfl
  obtain ⟨p, hp, hclean⟩ : ∃ p,
      processes callerTable true terminalWorld.log.dropLast .init = some p ∧
        Clean terminalPlan callerTable (.init .execve) p := nothing_leaks hrun hsplit rfl
  refine ⟨_, p, hsplit, hp, ?_, ?_, ?_⟩
  · exact hclean.executed rfl 2
  · exact hclean.executed rfl 3
  · exact hclean.executed rfl 4

end Mars.Inheritance
