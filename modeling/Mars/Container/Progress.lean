import Mars.Container.Attempts
import Mars.Container.Cleanup

/-! # A create comes to an end

Each step is paid for by what it takes off its party's program: it costs more
than all it can put there, or into the program of a child it forks. So the
parties' steps and deaths cannot go on for ever.
-/

namespace Mars.Protocol
open Spec Namespace Hooks Sync History

/-! ## What a step costs -/

section costs
variable (s : Setting)

def initCost : Nat := 3 * (containerInit s.plan).length

def stageOneCost : Nat := 3 * (stageOne s.plan).length + initCost s + 1

def settleCost : Nat := 7 * (settleProgram s.plan s.initPid).length

def mappingCost : Nat := 7 * mappingProgram.length + settleCost s

/-- What reports an error is two steps long, what cleans up at most six. -/
def cost : Op → Nat
  | .prepare .fork => 8 + stageOneCost s
  | .prepare .recv => 7 + settleCost s + mappingCost s
  | .prepare _ => 7
  | .mapping .recv => 7 + settleCost s
  | .mapping _ => 7
  | .settle _ => 7
  | .intermediate .fork => 4 + initCost s
  | .intermediate _ => 3
  | .init _ => 3
  | .cleanup _ => 1
  | .failing _ => 1
  | .readerOpens => 1

def total (ops : List Op) : Nat := (ops.map (cost s)).sum

def Party.remaining (p : Party) : Nat := total s p.ops + if p.life = .running then 1 else 0

def World.remaining (w : World) : Nat :=
  (w.party .parent).remaining s + (w.party .intermediate).remaining s +
    (w.party .init).remaining s

theorem total_append (front back : List Op) :
    total s (front ++ back) = total s front + total s back := by
  simp [total]

theorem total_constant {α : Type} (f : α → Op) {n : Nat} {ops : List α}
    (h : ∀ x ∈ ops, cost s (f x) = n) : total s (ops.map f) = n * ops.length := by
  induction ops with
  | nil => rfl
  | cons x rest ih =>
      have hfirst : cost s (f x) = n := h x List.mem_cons_self
      have hrest : total s (rest.map f) = n * rest.length :=
        ih fun y hy => h y (List.mem_cons_of_mem _ hy)
      have hsplit : total s ((x :: rest).map f) = cost s (f x) + total s (rest.map f) := by
        simp [total]
      rw [hsplit, hfirst, hrest, List.length_cons, Nat.mul_succ, Nat.add_comm]

theorem total_init : total s ((containerInit s.plan).map .init) = initCost s :=
  total_constant s Op.init fun _ _ => rfl

theorem total_stageOne : total s ((stageOne s.plan).map .intermediate) = stageOneCost s := by
  have hfront : ∀ x ∈ .dropParent :: joinExisting s.plan ++ unshareAll s.plan ++ mapUser s.plan,
      cost s (.intermediate x) = 3 := by
    intro x hx
    have hne : x ≠ .fork := by
      rintro rfl
      simp [joinExisting, unshareAll, mapUser] at hx
    cases x with
    | fork => exact absurd rfl hne
    | _ => rfl
  have hback : total s ([.fork, .sendInitPid, .exit].map Op.intermediate) = 10 + initCost s := by
    simp [total, cost]
    omega
  rw [stageOne, List.map_append, total_append, total_constant s Op.intermediate hfront, hback]
  simp only [stageOneCost, stageOne, List.length_append, List.length_cons, List.length_nil]
  omega

theorem settleProgram_length (plan : Plan) (pid pid' : Int) :
    (settleProgram plan pid).length = (settleProgram plan pid').length := by
  simp [settleProgram, placement]

theorem total_settle (pid : Int) :
    total s ((settleProgram s.plan pid).map .settle) = settleCost s := by
  rw [total_constant s Op.settle fun _ _ => rfl, settleProgram_length s.plan pid s.initPid,
    settleCost]

theorem total_mapping : total s (mappingProgram.map .mapping) = mappingCost s := by
  simp [total, mappingProgram, cost, mappingCost]
  omega

theorem total_cleanup (ops : List CleanupOp) : total s (ops.map .cleanup) = ops.length := by
  rw [total_constant s Op.cleanup fun _ _ => rfl, Nat.one_mul]

end costs

/-! ## What a step leaves -/

section steps
variable {s : Setting} {w next w' : World} {who : Who} {op : Op} {rest : List Op}

@[simp] theorem remaining_record (ok : Bool) : (w.record op ok).remaining s = w.remaining s := rfl

variable (s w who) in
/-- Only the changed party's share changes. -/
theorem remaining_update (f : Party → Party) :
    (w.update who f).remaining s + (w.party who).remaining s =
      w.remaining s + (f (w.party who)).remaining s := by
  cases who <;> simp [World.remaining, World.update, Function.update] <;> omega

theorem remaining_update_same {f : Party → Party} (hops : ∀ p, (f p).ops = p.ops)
    (hlife : ∀ p, (f p).life = p.life) : (w.update who f).remaining s = w.remaining s := by
  have hshare : (f (w.party who)).remaining s = (w.party who).remaining s := by
    rw [Party.remaining, hops, hlife, Party.remaining]
  have hsum := remaining_update s w who f
  omega

variable (s w who) in
theorem remaining_setOps (ops : List Op) :
    (w.setOps who ops).remaining s + total s (w.party who).ops =
      w.remaining s + total s ops := by
  have hsum := remaining_update s w who fun p => { p with ops := ops }
  simp only [Party.remaining] at hsum
  unfold World.setOps
  omega

theorem remaining_popped (hops : (w.party who).ops = op :: rest) :
    (w.setOps who rest).remaining s + cost s op = w.remaining s := by
  have hsum := remaining_setOps s w who rest
  have hcost : total s (op :: rest) = cost s op + total s rest := by simp [total]
  rw [hops] at hsum
  omega

variable (s w who) in
theorem remaining_forked (child : Who) (ops : List Op) :
    (w.forked who child ops).remaining s ≤ w.remaining s + total s ops + 1 := by
  have hsum := remaining_update s w child fun _ =>
    { life := .running, ops := ops, keepsParent := (w.party who).keepsParent,
      keepsChild := (w.party who).keepsChild, killed := false }
  simp only [Party.remaining] at hsum
  unfold World.forked
  simp at hsum ⊢
  omega

variable (s w who) in
theorem remaining_leave : (w.leave who).remaining s ≤ w.remaining s := by
  have hsum := remaining_update s w who fun p =>
    { p with life := .exited, ops := [], keepsParent := false, keepsChild := false }
  simp only [Party.remaining] at hsum
  unfold World.leave
  simp [total] at hsum ⊢
  omega

/-! ## Steps that succeed -/

theorem cost_pos (op : Op) : 0 < cost s op := by
  cases op with
  | prepare op => cases op <;> simp only [cost] <;> omega
  | mapping op => cases op <;> simp only [cost] <;> omega
  | intermediate op => cases op <;> simp only [cost] <;> omega
  | _ => simp [cost]

theorem remaining_done (h : perform s w who op = .done next) :
    next.remaining s < w.remaining s + cost s op := by
  have hpos : 0 < cost s op := cost_pos op
  have hsame : ∀ {other : Who} {f : Party → Party}, (∀ p, (f p).ops = p.ops) →
      (∀ p, (f p).life = p.life) → (w.update other f).remaining s < w.remaining s + cost s op := by
    intro other f hops hlife
    rw [remaining_update_same hops hlife]
    omega
  cases perform_done h with
  | pair => exact hsame (fun _ => rfl) fun _ => rfl
  | dropChild => exact hsame (fun _ => rfl) fun _ => rfl
  | close => exact hsame (fun _ => rfl) fun _ => rfl
  | teardownKill => exact hsame (fun _ => rfl) fun _ => rfl
  | closeChannel => exact hsame (fun _ => rfl) fun _ => rfl
  | dropParent => exact hsame (fun _ => rfl) fun _ => rfl
  | execve => exact hsame (fun _ => rfl) fun _ => rfl
  | forkIntermediate =>
      have hle := remaining_forked s w .parent .intermediate
        ((stageOne s.plan).map .intermediate)
      rw [total_stageOne] at hle
      simp only [cost]
      omega
  | forkInit =>
      have hle := remaining_forked s w .intermediate .init
        ((containerInit s.plan).map .init)
      rw [total_init] at hle
      simp only [cost]
      omega
  | exitIntermediate =>
      have hle := remaining_leave s w .intermediate
      omega
  | exitFailing =>
      have hle := remaining_leave s w who
      omega
  | @recvRequest _ messages hop hqueue =>
      have hsum := remaining_setOps s { w with toParent := messages } .parent
        (mappingProgram.map .mapping)
      have hsame : ({ w with toParent := messages } : World).remaining s = w.remaining s := rfl
      rw [total_mapping, hsame] at hsum
      rcases hop with rfl | rfl
      · simp only [cost]
        omega
      · cases recv_request hqueue h
  | @recvInitPid _ pid phases messages hop hqueue =>
      have hsum := remaining_setOps s { w with toParent := messages } .parent
        ((settleProgram s.plan pid).map .settle)
      have hsame : ({ w with toParent := messages } : World).remaining s = w.remaining s := rfl
      rw [total_settle, hsame] at hsum
      rcases hop with rfl | rfl <;>
        · simp only [cost]
          omega
  | _ => exact Nat.lt_add_of_pos_right hpos

/-! ## Steps that fail -/

theorem prepareCleanup_length (op : PrepareOp) : (prepareCleanup op).length ≤ 6 := by
  cases op <;> decide

theorem remaining_fail {error : Error} :
    (w.fail op error).remaining s < w.remaining s + cost s op := by
  have hpos : 0 < cost s op := cost_pos op
  have hset : ∀ {other : Who} {ops : List Op}, total s ops < cost s op →
      (w.setOps other ops).remaining s < w.remaining s + cost s op := by
    intro other ops htotal
    have hsum := remaining_setOps s w other ops
    omega
  cases op with
  | prepare op =>
      apply hset
      have hlength := prepareCleanup_length op
      rw [total_cleanup]
      cases op <;> simp only [cost] <;> omega
  | mapping op =>
      apply hset
      rw [total_cleanup]
      cases op <;> simp only [cost, handshakeCleanup, List.length_cons, List.length_nil] <;> omega
  | settle op =>
      apply hset
      rw [total_cleanup]
      simp [cost, handshakeCleanup]
  | intermediate op =>
      apply hset
      have htwo : ∀ reason : String,
          total s [.failing (.sendFailed reason), .failing .exit] = 2 := fun _ => rfl
      rw [htwo]
      cases op <;> simp only [cost] <;> omega
  | init op =>
      apply hset
      simp [cost, total]
  | _ => exact Nat.lt_add_of_pos_right hpos

/-! ## Runs -/

theorem act_remaining {fault : Option Error} (h : act s w who fault = some w') :
    w'.remaining s < w.remaining s := by
  obtain ⟨op, rest, hops, ⟨next, hdone, rfl⟩ | ⟨error, next, hfails, rfl⟩⟩ := act_cases h
  · have hless := remaining_done hdone
    have hpopped := remaining_popped (s := s) hops
    rw [remaining_record]
    omega
  · have hless := @remaining_fail s (next.record op false) op error
    have hpopped := remaining_popped (s := s) hops
    have hread : next.remaining s = (w.setOps who rest).remaining s := by
      simp [World.remaining, hfails.read.party]
    rw [remaining_record] at hless
    omega

theorem die_remaining (hlife : (w.party who).life = .running) :
    (w.leave who).remaining s < w.remaining s := by
  have hsum := remaining_update s w who fun p =>
    { p with life := .exited, ops := [], keepsParent := false, keepsChild := false }
  simp only [Party.remaining, hlife] at hsum
  unfold World.leave
  simp [total] at hsum ⊢
  omega

/-- One of the parties has taken a step or has died. -/
inductive Next (s : Setting) : World → World → Prop
  | act {w w' : World} (who : Who) (fault : Option Error)
      (h : step s w (.act who fault) = some w') : Next s w' w
  | die {w w' : World} (who : Who) (h : step s w (.die who) = some w') : Next s w' w

theorem Next.remaining (h : Next s w' w) : w'.remaining s < w.remaining s := by
  cases h with
  | act who fault h =>
      simp only [step, Option.ite_none_right_eq_some] at h
      exact act_remaining h.2
  | die who h =>
      simp only [step, Option.ite_none_right_eq_some, Option.some.injEq] at h
      obtain ⟨⟨hlife, -⟩, rfl⟩ := h
      exact die_remaining hlife

/-- The parties of a create cannot go on for ever. -/
theorem next_wellFounded (s : Setting) : WellFounded (Next s) :=
  Subrelation.wf Next.remaining (measure (World.remaining s)).wf

end steps

end Mars.Protocol
