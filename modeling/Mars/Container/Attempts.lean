import Mars.Container.Cleanup

/-! # Each program is worked through once

The attempts a create has made at a program are the program's own steps, one
after the other, with at most one failure behind them. A program is given to its
party once, when nothing of it has been attempted.
-/

namespace Mars.Protocol
open Spec Namespace Hooks Sync History

/-! ## What a step does to the programs -/

/-- A program that a step puts in place. -/
inductive Installs : Op → Stage → Prop
  | forkIntermediate : Installs (.prepare .fork) .intermediate
  | forkInit : Installs (.intermediate .fork) .init
  | map : Installs (.prepare .recv) .mapping
  | settle : Installs (.prepare .recv) .settle
  | settleMapped : Installs (.mapping .recv) .settle

/-- One attempt, the program it puts in place and what the others are left with. -/
structure Moves (s : Setting) (w w' : World) (who : Who) (op : Op) (rest : List Op) (ok : Bool)
    (put : Option Stage) : Prop where
  ops : (w.party who).ops = op :: rest
  log : w'.log = w.log ++ [⟨op, ok⟩]
  installs : ∀ st, put = some st → Installs op st
  placed : ∀ st, put = some st → (w'.party st.owner).ops = program s st
  others : ∀ other, (∀ st, put = some st → st.owner ≠ other) →
    (w'.party other).ops = (w.party other).ops ∧ other ≠ who ∨
      (w'.party other).ops = rest ∧ other = who ∧ ok = true ∨
      ∀ x ∈ (w'.party other).ops, x.Idle

section moves
variable {s : Setting} {w next w' : World} {who other : Who} {op : Op} {rest : List Op} {ok : Bool}
  {st : Stage}

/-- The second receive takes no request for a mapping. -/
theorem recv_request {mayMap : Bool} {messages : List Message}
    (hqueue : w.toParent = .requestUserMapping :: messages)
    (h : recvInitPid s w mayMap = .done next) : mayMap = true := by
  simp only [recvInitPid, hqueue] at h
  split at h
  next hmay => exact hmay
  next => cases h

/-- A step puts one whole program in place, or leaves or ends those there are. -/
theorem done_installs (h : perform s w who op = .done next)
    (hpid : ∀ pid phases, .initPid pid phases ∈ w.toParent → pid = s.initPid) :
    (∃ st, Installs op st ∧ (next.party st.owner).ops = program s st ∧
      ∀ other, st.owner ≠ other → next.party other = w.party other) ∨
    ∀ other, (next.party other).ops = (w.party other).ops ∨ (next.party other).ops = [] := by
  have hset : ∀ {ops : List Op} {other : Who} {v : World}, v.party = w.party → .parent ≠ other →
      (v.setOps .parent ops).party other = w.party other := by
    intro ops other v hparty hother
    rw [setOps_party_other v _ other ops (Ne.symm hother), hparty]
  cases perform_done h with
  | @recvInitPid _ pid phases messages hop hqueue =>
      obtain rfl := hpid pid phases (hqueue ▸ List.mem_cons_self)
      refine Or.inl ⟨.settle, ?_, setOps_ops_self _ _ _, fun other => hset rfl⟩
      rcases hop with rfl | rfl
      · exact .settle
      · exact .settleMapped
  | recvRequest hop hqueue =>
      rcases hop with rfl | rfl
      · exact Or.inl ⟨.mapping, .map, setOps_ops_self _ _ _, fun other => hset rfl⟩
      · cases recv_request hqueue h
  | forkIntermediate =>
      exact Or.inl ⟨.intermediate, .forkIntermediate, forked_ops_self _ _ _ _, fun other hother =>
        forked_party_other _ _ _ _ _ (Ne.symm hother)⟩
  | forkInit =>
      exact Or.inl ⟨.init, .forkInit, forked_ops_self _ _ _ _, fun other hother =>
        forked_party_other _ _ _ _ _ (Ne.symm hother)⟩
  | exitIntermediate => exact Or.inr fun other => leave_ops w _ other
  | exitFailing => exact Or.inr fun other => leave_ops w _ other
  | pair => exact Or.inr fun other => Or.inl (update_ops w _ other _ fun _ => rfl)
  | dropChild => exact Or.inr fun other => Or.inl (update_ops w _ other _ fun _ => rfl)
  | close => exact Or.inr fun other => Or.inl (update_ops w _ other _ fun _ => rfl)
  | teardownKill => exact Or.inr fun other => Or.inl (update_ops w _ other _ fun _ => rfl)
  | closeChannel => exact Or.inr fun other => Or.inl (update_ops w _ other _ fun _ => rfl)
  | dropParent => exact Or.inr fun other => Or.inl (update_ops w _ other _ fun _ => rfl)
  | execve => exact Or.inr fun other => Or.inl (update_ops w _ other _ fun _ => rfl)
  | _ => exact Or.inr fun other => Or.inl rfl

/-- A step and the ones behind it are of one program, or of none. -/
theorem InOrder.rest_stage (h : InOrder s w) (hops : (w.party who).ops = op :: rest) :
    ∀ x ∈ rest, x.stage = op.stage := by
  intro x hx
  have hmem : x ∈ op :: rest := List.mem_cons_of_mem _ hx
  rcases h.popped hops with ⟨st, -, done, hsplit, -⟩ | hidle
  · have hprogram : ∀ y ∈ op :: rest, y.stage = some st := fun y hy =>
      stage_of_mem_program (s := s) (hsplit ▸ List.mem_append_right _ hy)
    rw [hprogram x hmem, hprogram op List.mem_cons_self]
  · rw [hidle x hmem, hidle op List.mem_cons_self]

theorem act_moves {fault : Option Error} (hinv : InOrder s w) (h : act s w who fault = some w') :
    ∃ op rest ok put, Moves s w w' who op rest ok put := by
  obtain ⟨op, rest, hops, ⟨next, hdone, rfl⟩ | ⟨error, next, hfails, rfl⟩⟩ := act_cases h
  · have hlog : (next.record op true).log = w.log ++ [⟨op, true⟩] := by
      rw [record_log, (perform_done hdone).log]
      rfl
    have hpopped : ∀ other, ((w.setOps who rest).party other).ops = (w.party other).ops ∧
        other ≠ who ∨ ((w.setOps who rest).party other).ops = rest ∧ other = who ∧ true = true := by
      intro other
      by_cases hother : other = who
      · subst hother
        exact Or.inr ⟨setOps_ops_self _ _ _, rfl, rfl⟩
      · exact Or.inl ⟨by rw [setOps_party_other w who other rest hother], hother⟩
    rcases done_installs hdone hinv.initPid with ⟨st, hinstalls, hplaced, hothers⟩ | hsame
    · refine ⟨op, rest, true, some st, hops, hlog, ?_, ?_, ?_⟩
      · rintro st' ⟨⟩
        exact hinstalls
      · rintro st' ⟨⟩
        exact hplaced
      · intro other hother
        show ((next.party other).ops = _ ∧ _) ∨ ((next.party other).ops = _ ∧ _) ∨ _
        rw [hothers other (hother st rfl)]
        rcases hpopped other with hkept | hnext
        · exact Or.inl hkept
        · exact Or.inr (Or.inl hnext)
    · refine ⟨op, rest, true, none, hops, hlog, nofun, nofun, ?_⟩
      intro other _
      show ((next.party other).ops = _ ∧ _) ∨ ((next.party other).ops = _ ∧ _) ∨
        ∀ x ∈ (next.party other).ops, x.Idle
      rcases hsame other with hsame | hnil
      · rw [hsame]
        rcases hpopped other with hkept | hnext
        · exact Or.inl hkept
        · exact Or.inr (Or.inl hnext)
      · exact Or.inr (Or.inr (by simp [hnil]))
  · obtain ⟨toParent, toChild, rfl, -⟩ := hfails.read
    refine ⟨op, rest, false, none, hops, fail_log _ _ _, nofun, nofun, ?_⟩
    intro other _
    by_cases hother : other = who
    · subst hother
      refine Or.inr (Or.inr ?_)
      cases hstage : op.stage with
      | none =>
          rw [fail_of_no_stage hstage]
          intro x hx
          have hx' : x ∈ ((w.setOps other rest).party other).ops := hx
          rw [setOps_ops_self] at hx'
          exact (hinv.rest_stage hops x hx').trans hstage
      | some st =>
          obtain ⟨rfl, -⟩ := hinv.progress hops hstage
          exact fail_no_stage hstage
    · refine Or.inl ⟨?_, hother⟩
      cases hstage : op.stage with
      | none =>
          rw [fail_of_no_stage hstage]
          exact congrArg Party.ops (setOps_party_other w who other rest hother)
      | some st =>
          obtain ⟨rfl, -⟩ := hinv.progress hops hstage
          rw [fail_party_other hstage hother]
          exact congrArg Party.ops (setOps_party_other w _ other rest hother)

end moves

/-! ## What has been attempted of a program -/

def World.attempted (w : World) (st : Stage) : List (Entry Op) :=
  w.log.filter fun e => e.op.stage = some st

/-- What only two programs do has been done in the attempts at the one and the other. -/
theorem World.filterMap_perm {β : Type} (w : World) {f : Op → Option β} {a b : Stage} (hne : a ≠ b)
    (hf : ∀ op x, f op = some x → op.stage = some a ∨ op.stage = some b) :
    (w.log.filterMap fun e => f e.op).Perm
      ((w.attempted a).filterMap (fun e => f e.op) ++ (w.attempted b).filterMap fun e => f e.op) := by
  have hlog : ∀ log : List (Entry Op), (log.filterMap fun e => f e.op).Perm
      ((log.filter fun e => e.op.stage = some a).filterMap (fun e => f e.op) ++
        (log.filter fun e => e.op.stage = some b).filterMap fun e => f e.op) := by
    intro log
    induction log with
    | nil => exact .nil
    | cons e rest ih =>
        cases hsome : f e.op with
        | none =>
            simp only [List.filter_cons]
            split
            · split <;> simpa [hsome] using ih
            · split <;> simpa [hsome] using ih
        | some x =>
            rcases hf e.op x hsome with hop | hop
            · simpa [hop, hsome, hne] using ih
            · have hmiddle := (ih.cons x).trans List.perm_middle.symm
              simpa [hop, hsome, hne.symm] using hmiddle
  exact hlog w.log

/-- The program has not been given to its party. -/
structure Unstarted (w : World) (st : Stage) : Prop where
  untouched : w.attempted st = []
  absent : ∀ x ∈ (w.party st.owner).ops, x.stage ≠ some st

structure Stepwise (s : Setting) (w : World) : Prop where
  attempts : ∀ st, Attempts (program s st) (w.attempted st)
  current : ∀ who op rest st, (w.party who).ops = op :: rest → op.stage = some st →
    Reached (w.attempted st) (program s st) (op :: rest)
  unmapped : ∀ x, .prepare x ∈ (w.party .parent).ops → Unstarted w .mapping ∧ Unstarted w .settle
  unsettled : ∀ x, .mapping x ∈ (w.party .parent).ops → Unstarted w .settle
  unforked : .prepare .fork ∈ (w.party .parent).ops →
    Unstarted w .intermediate ∧ Unstarted w .init
  unborn : .intermediate .fork ∈ (w.party .intermediate).ops → Unstarted w .init

theorem unstarted_start (s : Setting) (dir stateFile : Bool) {st : Stage} (h : st ≠ .prepare) :
    Unstarted (start s dir stateFile) st where
  untouched := rfl
  absent := by
    cases st with
    | prepare => exact absurd rfl h
    | mapping => exact fun x hx => by simp [@stage_of_mem_program s _ .prepare hx]
    | settle => exact fun x hx => by simp [@stage_of_mem_program s _ .prepare hx]
    | intermediate => nofun
    | init => nofun

theorem stepwise_start (s : Setting) (dir stateFile : Bool) :
    Stepwise s (start s dir stateFile) where
  attempts := fun st => attempts_nil _
  current := by
    intro who op rest st hops hstage
    cases who with
    | parent =>
        have hprogram : program s .prepare = op :: rest := hops
        have hmem : op ∈ program s .prepare := hprogram ▸ List.mem_cons_self
        obtain rfl : .prepare = st :=
          Option.some.inj ((stage_of_mem_program hmem).symm.trans hstage)
        rw [← hprogram]
        exact reached_start _
    | intermediate => cases hops
    | init => cases hops
  unmapped := fun _ _ => ⟨unstarted_start s _ _ nofun, unstarted_start s _ _ nofun⟩
  unsettled := fun _ _ => unstarted_start s _ _ nofun
  unforked := fun _ => ⟨unstarted_start s _ _ nofun, unstarted_start s _ _ nofun⟩
  unborn := fun _ => unstarted_start s _ _ nofun

section attempted
variable {s : Setting} {w w' : World} {who : Who} {op : Op} {rest : List Op} {ok : Bool}
  {put : Option Stage} {st : Stage}

theorem Moves.attempted (h : Moves s w w' who op rest ok put) (st : Stage) :
    w'.attempted st = w.attempted st ++ if op.stage = some st then [⟨op, ok⟩] else [] := by
  by_cases hstage : op.stage = some st <;>
    simp [World.attempted, h.log, List.filter_append, hstage]

theorem Moves.attempted_other (h : Moves s w w' who op rest ok put) (hstage : op.stage ≠ some st) :
    w'.attempted st = w.attempted st := by
  rw [h.attempted, if_neg hstage, List.append_nil]

theorem Moves.attempted_self (h : Moves s w w' who op rest ok put) (hstage : op.stage = some st) :
    w'.attempted st = w.attempted st ++ [⟨op, ok⟩] := by
  rw [h.attempted, if_pos hstage]

/-- A program nobody has stays away until a step puts it in place. -/
theorem Moves.unstarted (h : Moves s w w' who op rest ok put) (hinv : InOrder s w)
    (hst : Unstarted w st) (hput : put ≠ some st) : Unstarted w' st := by
  have hstage : op.stage ≠ some st := by
    intro hstage
    obtain ⟨rfl, -⟩ := hinv.progress h.ops hstage
    exact hst.absent op (h.ops ▸ List.mem_cons_self) hstage
  refine ⟨(h.attempted_other hstage).trans hst.untouched, ?_⟩
  intro x hx hxstage
  by_cases howner : ∀ st', put = some st' → st'.owner ≠ st.owner
  · rcases h.others st.owner howner with ⟨hsame, -⟩ | ⟨hrest, rfl, -⟩ | hidle
    · rw [hsame] at hx
      exact hst.absent x hx hxstage
    · rw [hrest] at hx
      exact hst.absent x (h.ops ▸ List.mem_cons_of_mem _ hx) hxstage
    · cases hxstage.symm.trans (hidle x hx)
  · push Not at howner
    obtain ⟨st', hst', howner⟩ := howner
    rw [← howner, h.placed st' hst'] at hx
    have hsame : st' = st :=
      Option.some.inj ((stage_of_mem_program hx).symm.trans hxstage)
    exact hput (hsame ▸ hst')

theorem stageOne_fork_once (plan : Plan) : (stageOne plan).count .fork = 1 := by
  have hfront : .fork ∉ .dropParent :: joinExisting plan ++ unshareAll plan ++ mapUser plan := by
    simp [joinExisting, unshareAll, mapUser]
  rw [stageOne, List.count_append, List.count_eq_zero_of_not_mem hfront]
  rfl

/-- A fork is not to come again once it has been attempted. -/
theorem InOrder.fork_once (h : InOrder s w) (hops : (w.party who).ops = op :: rest)
    (hop : op = .prepare .fork ∨ op = .intermediate .fork) : op ∉ rest := by
  rcases hop with rfl | rfl
  · exact h.not_again hops rfl (count_prepare s .fork)
  · have hcount : (program s .intermediate).count (.intermediate .fork) = 1 := by
      rw [program, List.count_map_of_injective _ _ fun _ _ => Op.intermediate.inj]
      exact stageOne_fork_once s.plan
    exact h.not_again hops rfl (Nat.le_of_eq hcount)

/-- What is left of a program was there before, unless it has just been put in place. -/
theorem Moves.earlier (h : Moves s w w' who op rest ok put) (hinv : InOrder s w) {x : Op}
    (hx : x ∈ (w'.party st.owner).ops) (hstage : x.stage = some st) :
    put = some st ∨ (∀ st', put = some st' → st'.owner ≠ st.owner) ∧
      x ∈ (w.party st.owner).ops ∧ (op = x → x ∈ rest) := by
  by_cases howner : ∀ st', put = some st' → st'.owner ≠ st.owner
  · refine Or.inr ⟨howner, ?_⟩
    rcases h.others st.owner howner with ⟨hsame, hother⟩ | ⟨hrest, rfl, -⟩ | hidle
    · refine ⟨hsame ▸ hx, ?_⟩
      rintro rfl
      exact absurd (hinv.progress h.ops hstage).1 hother
    · rw [hrest] at hx
      exact ⟨h.ops ▸ List.mem_cons_of_mem _ hx, fun _ => hx⟩
    · cases hstage.symm.trans (hidle x hx)
  · push Not at howner
    obtain ⟨st', hst', howner⟩ := howner
    rw [← howner, h.placed st' hst'] at hx
    have hsame : st' = st := Option.some.inj ((stage_of_mem_program hx).symm.trans hstage)
    exact Or.inl (hsame ▸ hst')

theorem Stepwise.act {fault : Option Error} (h : Stepwise s w) (hinv : InOrder s w)
    (hact : Protocol.act s w who fault = some w') : Stepwise s w' := by
  obtain ⟨op, rest, ok, put, hmoves⟩ := act_moves hinv hact
  have hmem : op ∈ (w.party who).ops := hmoves.ops ▸ List.mem_cons_self
  -- a program is put in place where none of it has been attempted
  have hfresh : ∀ st, put = some st → Unstarted w st ∧ op.stage ≠ some st := by
    intro st hput
    cases hmoves.installs st hput with
    | forkIntermediate =>
        obtain ⟨rfl, -⟩ := hinv.progress hmoves.ops rfl
        exact ⟨(h.unforked hmem).1, nofun⟩
    | forkInit =>
        obtain ⟨rfl, -⟩ := hinv.progress hmoves.ops rfl
        exact ⟨h.unborn hmem, nofun⟩
    | map =>
        obtain ⟨rfl, -⟩ := hinv.progress hmoves.ops rfl
        exact ⟨(h.unmapped .recv hmem).1, nofun⟩
    | settle =>
        obtain ⟨rfl, -⟩ := hinv.progress hmoves.ops rfl
        exact ⟨(h.unmapped .recv hmem).2, nofun⟩
    | settleMapped =>
        obtain ⟨rfl, -⟩ := hinv.progress hmoves.ops rfl
        exact ⟨h.unsettled .recv hmem, nofun⟩
  constructor
  case attempts =>
    intro st
    by_cases hstage : op.stage = some st
    · rw [hmoves.attempted_self hstage]
      have hreached := h.current who op rest st hmoves.ops hstage
      cases ok with
      | true => exact .reached hreached.next
      | false => exact .failed hreached
    · rw [hmoves.attempted_other hstage]
      exact h.attempts st
  case current =>
    intro other x rest' st hops hstage
    by_cases howner : ∀ st', put = some st' → st'.owner ≠ other
    · rcases hmoves.others other howner with ⟨hsame, hother⟩ | ⟨hrest, rfl, rfl⟩ | hidle
      · have hold : (w.party other).ops = x :: rest' := hsame ▸ hops
        have hne : op.stage ≠ some st := by
          intro hop
          have hwho := (hinv.progress hmoves.ops hop).1
          exact hother ((hinv.progress hold hstage).1.symm.trans hwho)
        rw [hmoves.attempted_other hne]
        exact h.current other x rest' st hold hstage
      · have hsplit : rest = x :: rest' := hrest.symm.trans hops
        have hop : op.stage = some st := by
          rw [← hinv.rest_stage hmoves.ops x (hsplit ▸ List.mem_cons_self)]
          exact hstage
        rw [hmoves.attempted_self hop, ← hsplit]
        exact (h.current other op rest st hmoves.ops hop).next
      · cases hstage.symm.trans (hidle x (hops ▸ List.mem_cons_self))
    · push Not at howner
      obtain ⟨st', hput, rfl⟩ := howner
      have hprogram := hmoves.placed st' hput
      have hx : x ∈ program s st' := by
        rw [← hprogram, hops]
        exact List.mem_cons_self
      obtain rfl : st' = st := Option.some.inj ((stage_of_mem_program hx).symm.trans hstage)
      obtain ⟨hunstarted, hne⟩ := hfresh st' hput
      rw [hmoves.attempted_other hne, hunstarted.untouched, ← hops, hprogram]
      exact reached_start _
  case unmapped =>
    intro x hx
    rcases @Moves.earlier _ _ _ _ _ _ _ _ .prepare hmoves hinv _ hx rfl with hput | ⟨howner, hold, -⟩
    · cases hmoves.installs _ hput
    · have hne : ∀ st, st.owner = .parent → put ≠ some st := fun st hst hput => howner st hput hst
      obtain ⟨hmapping, hsettle⟩ := h.unmapped x hold
      exact ⟨hmoves.unstarted hinv hmapping (hne _ rfl), hmoves.unstarted hinv hsettle (hne _ rfl)⟩
  case unsettled =>
    intro x hx
    rcases @Moves.earlier _ _ _ _ _ _ _ _ .mapping hmoves hinv _ hx rfl with hput | ⟨howner, hold, -⟩
    · have hne : put ≠ some .settle := by rw [hput]; nofun
      have hop : op = .prepare .recv := by
        cases hmoves.installs _ hput
        rfl
      subst hop
      obtain ⟨rfl, -⟩ := hinv.progress hmoves.ops rfl
      exact hmoves.unstarted hinv (h.unmapped .recv hmem).2 hne
    · exact hmoves.unstarted hinv (h.unsettled x hold) fun hput => howner _ hput rfl
  case unforked =>
    intro hfork
    rcases @Moves.earlier _ _ _ _ _ _ _ _ .prepare hmoves hinv _ hfork rfl with
      hput | ⟨howner, hold, hagain⟩
    · cases hmoves.installs _ hput
    · obtain ⟨hintermediate, hinit⟩ := h.unforked hold
      refine ⟨hmoves.unstarted hinv hintermediate ?_, hmoves.unstarted hinv hinit ?_⟩
      · intro hput
        have hop : op = .prepare .fork := by
          cases hmoves.installs _ hput
          rfl
        exact hinv.fork_once hmoves.ops (Or.inl hop) (hop ▸ hagain hop)
      · intro hput
        have hop : op = .intermediate .fork := by
          cases hmoves.installs _ hput
          rfl
        subst hop
        obtain ⟨rfl, -⟩ := hinv.progress hmoves.ops rfl
        exact hintermediate.absent _ hmem rfl
  case unborn =>
    intro hfork
    rcases @Moves.earlier _ _ _ _ _ _ _ _ .intermediate hmoves hinv _ hfork rfl with
      hput | ⟨howner, hold, hagain⟩
    · have hop : op = .prepare .fork := by
        cases hmoves.installs _ hput
        rfl
      subst hop
      obtain ⟨rfl, -⟩ := hinv.progress hmoves.ops rfl
      exact hmoves.unstarted hinv (h.unforked hmem).2 (by rw [hput]; nofun)
    · apply hmoves.unstarted hinv (h.unborn hold)
      intro hput
      have hop : op = .intermediate .fork := by
        cases hmoves.installs _ hput
        rfl
      exact hinv.fork_once hmoves.ops (Or.inr hop) (hop ▸ hagain hop)

/-- Nothing is attempted, and at most somebody's program ends. -/
theorem Stepwise.keep (h : Stepwise s w) (hlog : ∀ st, w'.attempted st = w.attempted st)
    (hops : ∀ other, (w'.party other).ops = (w.party other).ops ∨ (w'.party other).ops = []) :
    Stepwise s w' := by
  have hmem : ∀ {other x}, x ∈ (w'.party other).ops → x ∈ (w.party other).ops := by
    intro other x hx
    rcases hops other with hsame | hnil
    · exact hsame ▸ hx
    · rw [hnil] at hx
      cases hx
  have hunstarted : ∀ {st}, Unstarted w st → Unstarted w' st := fun hst =>
    ⟨(hlog _).trans hst.untouched, fun x hx => hst.absent x (hmem hx)⟩
  constructor
  case attempts => exact fun st => hlog st ▸ h.attempts st
  case current =>
    intro other x rest' st hcons hstage
    rcases hops other with hsame | hnil
    · exact hlog st ▸ h.current other x rest' st (hsame ▸ hcons) hstage
    · cases hnil.symm.trans hcons
  case unmapped => exact fun x hx => (h.unmapped x (hmem hx)).imp hunstarted hunstarted
  case unsettled => exact fun x hx => hunstarted (h.unsettled x (hmem hx))
  case unforked => exact fun hx => (h.unforked (hmem hx)).imp hunstarted hunstarted
  case unborn => exact fun hx => hunstarted (h.unborn (hmem hx))

theorem Stepwise.step {event : Event} (h : Stepwise s w) (hinv : InOrder s w)
    (hstep : Protocol.step s w event = some w') : Stepwise s w' := by
  cases event <;> simp only [Protocol.step, Option.ite_none_right_eq_some] at hstep
  case act who fault => exact h.act hinv hstep.2
  case die who =>
    obtain rfl := Option.some.inj hstep.2
    exact h.keep (fun _ => rfl) fun other => leave_ops w who other
  case kill who =>
    obtain rfl := Option.some.inj hstep.2
    exact h.keep (fun _ => rfl) fun other => Or.inl (update_ops w who other _ fun _ => rfl)
  case reader =>
    obtain rfl := Option.some.inj hstep
    refine h.keep (fun st => ?_) fun other => Or.inl rfl
    simp [World.attempted, World.record, Op.stage, List.filter_append]

theorem stepwise_run {dir stateFile : Bool} {events : List Event}
    (h : Transition.run (Protocol.step s) (start s dir stateFile) events = some w) :
    Stepwise s w := by
  have hboth : InOrder s w ∧ Stepwise s w :=
    @Transition.run_invariant _ _ _ (fun w => InOrder s w ∧ Stepwise s w)
      (fun _ _ _ hinv hstep => ⟨hinv.1.step hstep, hinv.2.step hinv.1 hstep⟩) _ _ _
      ⟨inOrder_start s dir stateFile, stepwise_start s dir stateFile⟩ h
  exact hboth.2

end attempted

end Mars.Protocol
