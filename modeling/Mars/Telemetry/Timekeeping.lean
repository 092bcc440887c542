import Mars.Telemetry.Timed

/-! # Who waits for whose instants

The instants a party has are in its own order, and a message or a fork ties those
of two parties together: what is behind the one comes no earlier than what is
before the other.
-/

namespace Mars.Timed
open Spec Namespace Protocol Sync Telemetry History

/-! ## One act -/

section act
variable {plan : Plan} {last now : Nat} {a : Act} {stamp : Stmt × Nat}

theorem before_unstaged {op : Op} (h : op.stage = none) : before plan op = [] := by
  cases op <;> first | rfl | cases h

theorem after_unstaged {op : Op} (h : op.stage = none) (m : Option Message) : after op m = [] := by
  cases op <;> first | rfl | cases h

theorem stamps_unstaged (h : a.entry.op.stage = none) : a.stamps plan = [] := by
  have hbehind : a.behind = [] := by
    rw [Act.behind, after_unstaged h]
    cases a.entry.ok <;> rfl
  rw [Act.stamps, before_unstaged h, hbehind]
  rfl

theorem mem_stamps (h : stamp ∈ a.stamps plan) :
    (stamp.1 ∈ Timed.before plan a.entry.op ∧ stamp.2 ∈ a.before) ∨
      stamp.1 ∈ a.behind ∧ stamp.2 ∈ a.after :=
  (List.mem_append.mp h).imp List.of_mem_zip List.of_mem_zip

theorem Act.Timely.stmts (h : a.Timely plan last now) :
    (a.stamps plan).map Prod.fst = Timed.before plan a.entry.op ++ a.behind := by
  rw [Act.stamps, List.map_append, List.map_fst_zip (Nat.le_of_eq h.1.symm),
    List.map_fst_zip (Nat.le_of_eq h.2.1.symm)]

theorem Act.Timely.instants (h : a.Timely plan last now) :
    (a.stamps plan).map Prod.snd = a.before ++ a.after := by
  rw [Act.stamps, List.map_append, List.map_snd_zip (Nat.le_of_eq h.1),
    List.map_snd_zip (Nat.le_of_eq h.2.1)]

theorem Act.Timely.ordered (h : a.Timely plan last now) :
    ((a.stamps plan).map Prod.snd).Pairwise (· ≤ ·) := by
  rw [h.instants]
  have hsub : (a.before ++ a.after).Sublist a.times :=
    (List.Sublist.refl _).append (List.sublist_cons_self _ _)
  exact (List.pairwise_cons.mp h.2.2.1).2.sublist hsub

theorem Act.Timely.before_le (h : a.Timely plan last now) {x : Nat} (hx : x ∈ a.before) :
    last ≤ x ∧ x ≤ a.instant := by
  obtain ⟨hlast, hpairs⟩ := List.pairwise_cons.mp h.2.2.1
  exact ⟨hlast x (List.mem_append_left _ hx),
    (List.pairwise_append.mp hpairs).2.2 x hx a.instant List.mem_cons_self⟩

theorem Act.Timely.le_after (h : a.Timely plan last now) {x : Nat} (hx : x ∈ a.after) :
    a.instant ≤ x :=
  (List.pairwise_cons.mp (List.pairwise_append.mp (List.pairwise_cons.mp h.2.2.1).2).2.1).1 x hx

theorem Act.Timely.last_le (h : a.Timely plan last now) : last ≤ a.instant :=
  (List.pairwise_cons.mp h.2.2.1).1 _ (by simp [Act.times])

theorem Act.Timely.now_le (h : a.Timely plan last now) : now ≤ a.instant := h.2.2.2

theorem Act.Timely.le_end (h : a.Timely plan last now) :
    a.instant ≤ a.after.getLastD a.instant ∧ ∀ x ∈ a.after, x ≤ a.after.getLastD a.instant := by
  have hpairs : a.after.Pairwise (· ≤ ·) :=
    (List.pairwise_cons.mp (List.pairwise_append.mp (List.pairwise_cons.mp h.2.2.1).2).2.1).2
  rcases List.eq_nil_or_concat a.after with hnil | ⟨front, x, hsplit⟩
  · simp [hnil]
  · rw [List.concat_eq_append] at hsplit
    have hx : a.after.getLastD a.instant = x := by simp [hsplit]
    rw [hx]
    refine ⟨h.le_after (by simp [hsplit]), ?_⟩
    intro y hy
    rw [hsplit] at hy hpairs
    rcases List.mem_append.mp hy with hy | hy
    · exact (List.pairwise_append.mp hpairs).2.2 y hy x (by simp)
    · exact Nat.le_of_eq (List.mem_singleton.mp hy)

theorem Act.Timely.stamp_le (h : a.Timely plan last now) (hstamp : stamp ∈ a.stamps plan) :
    last ≤ stamp.2 ∧ stamp.2 ≤ a.after.getLastD a.instant := by
  rcases mem_stamps hstamp with ⟨-, hx⟩ | ⟨-, hx⟩
  · exact ⟨(h.before_le hx).1, Nat.le_trans (h.before_le hx).2 h.le_end.1⟩
  · exact ⟨Nat.le_trans h.last_le (h.le_after hx), h.le_end.2 _ hx⟩

theorem stamps_snoc (plan : Plan) (acts : List Act) (c : Act) (who : Who) :
    stamps plan (acts ++ [c]) who =
      stamps plan acts who ++ if c.who = who then c.stamps plan else [] := by
  by_cases hwho : c.who = who <;> simp [stamps, hwho]

theorem exists_act {acts : List Act} {who : Who} (h : stamp ∈ stamps plan acts who) :
    ∃ a ∈ acts, a.who = who ∧ stamp ∈ a.stamps plan := by
  obtain ⟨a, ha, hstamp⟩ := List.mem_flatMap.mp h
  obtain ⟨ha, hwho⟩ := List.mem_filter.mp ha
  exact ⟨a, ha, of_decide_eq_true hwho, hstamp⟩

end act

/-! ## One tick -/

/-- A tick that is an act. -/
structure Acted (s : Setting) (wall : Nat → Nat) (t t' : State) (c : Act) : Prop where
  attempt : ∃ rest put, Attempt s t.world t'.world c.who c.entry.op rest c.entry.ok put
  message : c.message = received t.world c.entry.op
  timely : c.Timely s.plan (t.last c.who) t.now
  foretold : Foretold s wall (t.acts ++ [c]) c.entry
  result : t' = t.perform t'.world c

/-- Any other tick leaves the times alone, and the runtime too. -/
structure Passed (t t' : State) : Prop where
  result : t' = { t with world := t'.world }
  kept : ∀ e ∈ t.world.log, e ∈ t'.world.log
  log : ∀ e ∈ t'.world.log, e ∈ t.world.log ∨ e.op = .readerOpens
  toParent : t'.world.toParent = t.world.toParent
  error : t'.world.error = t.world.error
  ops : (t'.world.party .parent).ops = (t.world.party .parent).ops

section tick
variable {s : Setting} {wall : Nat → Nat} {t t' : State} {tick : Tick}

theorem step_world (h : step s wall t tick = some t') :
    Protocol.step s t.world tick.event = some t'.world := by
  obtain ⟨next, hnext, hrest⟩ := Option.bind_eq_some_iff.mp h
  rw [hnext]
  split at hrest
  next =>
    obtain ⟨entry, -, hact⟩ := Option.bind_eq_some_iff.mp hrest
    obtain rfl := Option.some.inj (Option.ite_none_right_eq_some.mp hact).2
    rfl
  next =>
    obtain rfl := Option.some.inj hrest
    rfl

theorem step_acted {who : Who} {fault : Option Error} (hinv : InOrder s t.world)
    (h : step s wall t tick = some t') (hevent : tick.event = .act who fault) :
    ∃ c, Acted s wall t t' c := by
  obtain ⟨next, hnext, hrest⟩ := Option.bind_eq_some_iff.mp h
  simp only [hevent] at hrest
  obtain ⟨entry, hentry, hact⟩ := Option.bind_eq_some_iff.mp hrest
  obtain ⟨⟨htimely, hforetold⟩, hresult⟩ := Option.ite_none_right_eq_some.mp hact
  obtain rfl := Option.some.inj hresult
  rw [hevent] at hnext
  simp only [Protocol.step, Option.ite_none_right_eq_some] at hnext
  obtain ⟨op, rest, ok, put, hattempt⟩ := act_attempt hinv hnext.2
  obtain rfl : ⟨op, ok⟩ = entry := by simpa [hattempt.log] using hentry
  exact ⟨⟨who, ⟨op, ok⟩, _, _, _, _⟩, ⟨rest, put, hattempt⟩, rfl, htimely, hforetold, rfl⟩

theorem step_passed (hwhole : Whole s t.world) (h : step s wall t tick = some t')
    (hevent : ∀ who fault, tick.event ≠ .act who fault) : Passed t t' := by
  obtain ⟨next, hnext, hrest⟩ := Option.bind_eq_some_iff.mp h
  split at hrest
  next who fault hact => exact absurd hact (hevent who fault)
  next =>
    obtain rfl := Option.some.inj hrest
    cases htick : tick.event <;> rw [htick] at hnext <;>
      simp only [Protocol.step, Option.ite_none_right_eq_some] at hnext
    case act who fault => exact absurd htick (hevent who fault)
    case die who =>
      obtain rfl := Option.some.inj hnext.2
      have hwho : who ≠ .parent := by
        rintro rfl
        rw [hwhole.cleaning.alive] at hnext
        cases hnext.1.2
      exact ⟨rfl, fun _ h => h, fun _ h => Or.inl h, rfl, rfl,
        congrArg Party.ops (leave_party_other hwho.symm)⟩
    case kill who =>
      obtain rfl := Option.some.inj hnext.2
      have hops := update_ops t.world who .parent (fun p => { p with killed := true }) fun _ => rfl
      exact ⟨rfl, fun _ h => h, fun _ h => Or.inl h, rfl, rfl, hops⟩
    case reader =>
      obtain rfl := Option.some.inj hnext
      refine ⟨rfl, fun _ h => List.mem_append_left _ h, ?_, rfl, rfl, rfl⟩
      intro e he
      rcases List.mem_append.mp he with he | he
      · exact Or.inl he
      · exact Or.inr (by rw [List.mem_singleton.mp he])

end tick

/-! ## What holds of all instants -/

/-- The runtime's permission for init has been sent by the instant. -/
def Permitted (s : Setting) (acts : List Act) (instant : Nat) : Prop :=
  ∃ a ∈ acts, a.entry = ⟨.settle (.sendCgroupApplied s.initPid), true⟩ ∧ a.instant ≤ instant

structure Kept (s : Setting) (wall : Nat → Nat) (t : State) : Prop where
  whole : Whole s t.world
  logged : ∀ a ∈ t.acts, a.entry ∈ t.world.log
  recorded : ∀ e ∈ t.world.log, e.op ≠ .readerOpens → ∃ a ∈ t.acts, a.entry = e
  owner : ∀ a ∈ t.acts, ∀ st, a.entry.op.stage = some st → st.owner = a.who
  timely : ∀ a ∈ t.acts, ∃ last now, a.Timely s.plan last now
  now : ∀ a ∈ t.acts, a.instant ≤ t.now
  ordered : ∀ who, ((stamps s.plan t.acts who).map Prod.snd).Pairwise (· ≤ ·)
  last : ∀ who, ∀ stamp ∈ stamps s.plan t.acts who, stamp.2 ≤ t.last who
  /-- The intermediate's instants are behind its fork, -/
  born : ∀ a ∈ t.acts, a.entry = ⟨.prepare .fork, true⟩ → a.instant ≤ t.last .intermediate ∧
    ∀ stamp ∈ stamps s.plan t.acts .intermediate, a.instant ≤ stamp.2
  carried : ∀ m ∈ t.world.toParent, ∃ op, SendsParent s op m ∧ ⟨op, true⟩ ∈ t.world.log
  /-- what the runtime takes has been sent before, -/
  heard : ∀ b ∈ t.acts, ∀ m, b.message = some m →
    ∃ a ∈ t.acts, a.entry.ok = true ∧ SendsParent s a.entry.op m ∧ a.instant ≤ b.instant
  entered : ⟨.init .expectCgroupApplied, true⟩ ∈ t.world.log → Permitted s t.acts (t.last .init)
  /-- init's are behind the runtime's permission, -/
  permitted : ∀ stamp ∈ stamps s.plan t.acts .init, Permitted s t.acts stamp.2
  /-- and a report is what had been recorded by then. -/
  told : ∀ a ∈ t.acts, a.entry.ok = true → ∀ report ∈ reports s a.entry.op, ∃ front back,
    stamps s.plan t.acts report.1 = front ++ back ∧ (locals wall front).taken = report.2 ∧
      ∀ stamp ∈ front, stamp.2 ≤ a.instant

theorem kept_start (s : Setting) (wall : Nat → Nat) (dir : Bool) :
    Kept s wall (start s dir false) where
  whole := whole_start s dir
  logged := fun _ ha => absurd ha List.not_mem_nil
  recorded := fun _ he => absurd he List.not_mem_nil
  owner := fun _ ha => absurd ha List.not_mem_nil
  timely := fun _ ha => absurd ha List.not_mem_nil
  now := fun _ ha => absurd ha List.not_mem_nil
  ordered := fun _ => .nil
  last := fun _ _ hstamp => absurd hstamp List.not_mem_nil
  born := fun _ ha => absurd ha List.not_mem_nil
  carried := fun _ hm => absurd hm List.not_mem_nil
  heard := fun _ ha => absurd ha List.not_mem_nil
  entered := fun he => absurd he List.not_mem_nil
  permitted := fun _ hstamp => absurd hstamp List.not_mem_nil
  told := fun _ ha => absurd ha List.not_mem_nil

section kept
variable {s : Setting} {wall : Nat → Nat} {t t' : State} {c : Act}

theorem permitted_snoc {acts : List Act} {instant later : Nat} (h : Permitted s acts instant)
    (hlater : instant ≤ later) : Permitted s (acts ++ [c]) later := by
  obtain ⟨a, ha, hsend, hinstant⟩ := h
  exact ⟨a, List.mem_append_left _ ha, hsend, Nat.le_trans hinstant hlater⟩

/-- A child whose program nobody has been given has done nothing with a recorder. -/
theorem Kept.unstarted (h : Kept s wall t) {st : Stage} (hst : Unstarted t.world st)
    (howner : st.owner ≠ .parent) : stamps s.plan t.acts st.owner = [] := by
  rw [List.eq_nil_iff_forall_not_mem]
  intro stamp hstamp
  obtain ⟨a, ha, hwho, hmem⟩ := exists_act hstamp
  cases hstage : a.entry.op.stage with
  | none =>
      rw [stamps_unstaged hstage] at hmem
      cases hmem
  | some st' =>
      have hsame : st'.owner = st.owner := (h.owner a ha st' hstage).trans hwho
      obtain rfl : st' = st := by
        cases st <;> cases st' <;> first | rfl | exact absurd rfl howner | cases hsame
      have hattempted : a.entry ∈ t.world.attempted st' :=
        List.mem_filter.mpr ⟨h.logged a ha, by simpa using hstage⟩
      rw [hst.untouched] at hattempted
      cases hattempted

theorem Acted.ops (h : Acted s wall t t' c) :
    ∃ rest, (t.world.party c.who).ops = c.entry.op :: rest := by
  obtain ⟨rest, put, hattempt⟩ := h.attempt
  exact ⟨rest, hattempt.ops⟩

theorem Acted.log (h : Acted s wall t t' c) : t'.world.log = t.world.log ++ [c.entry] := by
  obtain ⟨rest, put, hattempt⟩ := h.attempt
  exact hattempt.log

theorem Acted.acts (h : Acted s wall t t' c) : t'.acts = t.acts ++ [c] := by rw [h.result]; rfl

theorem Acted.owner (h : Acted s wall t t' c) (hkept : Kept s wall t) (st : Stage)
    (hstage : c.entry.op.stage = some st) : st.owner = c.who := by
  obtain ⟨rest, hops⟩ := h.ops
  exact (hkept.whole.inOrder.progress hops hstage).1

/-- What a fork brings to life has done nothing yet. -/
theorem Acted.newborn (h : Acted s wall t t' c) (hkept : Kept s wall t) {who : Who}
    (hforks : forks c.entry = some who) : stamps s.plan t.acts who = [] := by
  obtain ⟨rest, hops⟩ := h.ops
  have hmem : c.entry.op ∈ (t.world.party c.who).ops := hops ▸ List.mem_cons_self
  have hstepwise := hkept.whole.stepwise
  obtain ⟨who', ⟨op, ok⟩, message, before, instant, after⟩ := c
  dsimp only at *
  unfold forks at hforks
  split at hforks
  next heq =>
    obtain ⟨rfl, rfl⟩ := Entry.mk.inj heq
    obtain rfl := Option.some.inj hforks
    obtain rfl : .parent = who' := h.owner hkept _ rfl
    exact hkept.unstarted (hstepwise.unforked hmem).1 nofun
  next heq =>
    obtain ⟨rfl, rfl⟩ := Entry.mk.inj heq
    obtain rfl := Option.some.inj hforks
    obtain rfl : .intermediate = who' := h.owner hkept _ rfl
    exact hkept.unstarted (hstepwise.unborn hmem) nofun
  next => cases hforks

/-- A party's time does not go back. -/
theorem Acted.le_last (h : Acted s wall t t' c) {who : Who} {x : Nat} (hlast : x ≤ t.last who)
    (hnow : x ≤ t.now) : x ≤ t'.last who := by
  rw [h.result]
  show x ≤ if who = c.who then _ else _
  split
  next hwho =>
    subst hwho
    exact Nat.le_trans (Nat.le_trans hlast h.timely.last_le) h.timely.le_end.1
  next =>
    split
    next => exact Nat.le_trans hnow h.timely.now_le
    next => exact hlast

theorem Acted.last_self (h : Acted s wall t t' c) :
    t'.last c.who = c.after.getLastD c.instant := by
  rw [h.result]
  exact if_pos rfl

theorem Acted.stamps_eq (h : Acted s wall t t' c) (who : Who) :
    Timed.stamps s.plan t'.acts who = Timed.stamps s.plan t.acts who ++
      if c.who = who then c.stamps s.plan else [] := by
  rw [h.acts, stamps_snoc]

theorem Acted.stamp_cases (h : Acted s wall t t' c) {who : Who} {stamp : Stmt × Nat}
    (hstamp : stamp ∈ Timed.stamps s.plan t'.acts who) :
    stamp ∈ Timed.stamps s.plan t.acts who ∨ c.who = who ∧ stamp ∈ c.stamps s.plan := by
  rw [h.stamps_eq] at hstamp
  rcases List.mem_append.mp hstamp with hold | hnew
  · exact Or.inl hold
  · split at hnew
    next hwho => exact Or.inr ⟨hwho, hnew⟩
    next => cases hnew

end kept

/-! ## An act keeps it -/

section acted
variable {s : Setting} {wall : Nat → Nat} {t t' : State} {c : Act}

theorem Acted.ordered (h : Acted s wall t t' c) (hkept : Kept s wall t) (who : Who) :
    ((stamps s.plan t'.acts who).map Prod.snd).Pairwise (· ≤ ·) := by
  rw [h.stamps_eq]
  split
  next hwho =>
    subst hwho
    rw [List.map_append, List.pairwise_append]
    refine ⟨hkept.ordered _, h.timely.ordered, ?_⟩
    intro x hx y hy
    obtain ⟨old, hold, rfl⟩ := List.mem_map.mp hx
    obtain ⟨new, hnew, rfl⟩ := List.mem_map.mp hy
    exact Nat.le_trans (hkept.last _ old hold) (h.timely.stamp_le hnew).1
  next =>
    rw [List.append_nil]
    exact hkept.ordered who

theorem Acted.last (h : Acted s wall t t' c) (hkept : Kept s wall t) (who : Who) :
    ∀ stamp ∈ stamps s.plan t'.acts who, stamp.2 ≤ t'.last who := by
  intro stamp hstamp
  by_cases hwho : c.who = who
  · subst hwho
    rw [h.last_self]
    rcases h.stamp_cases hstamp with hold | ⟨-, hnew⟩
    · exact Nat.le_trans (hkept.last _ stamp hold)
        (Nat.le_trans h.timely.last_le h.timely.le_end.1)
    · exact (h.timely.stamp_le hnew).2
  · rcases h.stamp_cases hstamp with hold | ⟨hsame, -⟩
    · rw [h.result]
      show stamp.2 ≤ if who = c.who then _ else _
      rw [if_neg (Ne.symm hwho)]
      split
      next hforks =>
        rw [h.newborn hkept hforks] at hold
        cases hold
      next => exact hkept.last who stamp hold
    · exact absurd hsame hwho

theorem Acted.born (h : Acted s wall t t' c) (hkept : Kept s wall t) :
    ∀ a ∈ t'.acts, a.entry = ⟨.prepare .fork, true⟩ → a.instant ≤ t'.last .intermediate ∧
      ∀ stamp ∈ stamps s.plan t'.acts .intermediate, a.instant ≤ stamp.2 := by
  intro a ha hfork
  rw [h.acts] at ha
  rcases List.mem_append.mp ha with ha | ha
  · obtain ⟨hlast, hstamps⟩ := hkept.born a ha hfork
    refine ⟨h.le_last hlast (hkept.now a ha), ?_⟩
    intro stamp hstamp
    rcases h.stamp_cases hstamp with hold | ⟨hwho, hnew⟩
    · exact hstamps stamp hold
    · exact Nat.le_trans (hwho ▸ hlast) (h.timely.stamp_le hnew).1
  · obtain rfl := List.mem_singleton.mp ha
    have hforks : forks a.entry = some .intermediate := by rw [hfork]; rfl
    have hparent : .parent = a.who := h.owner hkept .prepare (by rw [hfork]; rfl)
    refine ⟨?_, ?_⟩
    · rw [h.result]
      show a.instant ≤ if Who.intermediate = a.who then _ else _
      rw [if_neg (by rw [← hparent]; nofun), if_pos hforks]
    · intro stamp hstamp
      rcases h.stamp_cases hstamp with hold | ⟨hwho, -⟩
      · rw [h.newborn hkept hforks] at hold
        cases hold
      · cases hparent.trans hwho

/-- The queue holds what was there or what the step has sent. -/
theorem Acted.carried (h : Acted s wall t t' c) (hkept : Kept s wall t) :
    ∀ m ∈ t'.world.toParent, ∃ op, SendsParent s op m ∧ ⟨op, true⟩ ∈ t'.world.log := by
  obtain ⟨rest, put, hattempt⟩ := h.attempt
  have hold : ∀ m ∈ t.world.toParent, ∃ op, SendsParent s op m ∧ ⟨op, true⟩ ∈ t'.world.log := by
    intro m hm
    obtain ⟨op, hsends, hlog⟩ := hkept.carried m hm
    exact ⟨op, hsends, h.log ▸ List.mem_append_left _ hlog⟩
  intro m hm
  cases hattempt.carries with
  | still hparent => exact hold m (hparent ▸ hm)
  | ordered hsends hok hparent => exact hold m (hparent ▸ hm)
  | obeyed hop hparent => exact hold m (hparent ▸ hm)
  | received hop hparent => exact hold m (hparent ▸ List.mem_cons_of_mem _ hm)
  | reported hsends hok hparent =>
      rw [hparent] at hm
      rcases List.mem_append.mp hm with hm | hm
      · exact hold m hm
      · obtain rfl := List.mem_singleton.mp hm
        refine ⟨_, hsends, ?_⟩
        rw [h.log, ← hok]
        simp

theorem Acted.heard (h : Acted s wall t t' c) (hkept : Kept s wall t) :
    ∀ b ∈ t'.acts, ∀ m, b.message = some m →
      ∃ a ∈ t'.acts, a.entry.ok = true ∧ SendsParent s a.entry.op m ∧ a.instant ≤ b.instant := by
  intro b hb m hm
  rw [h.acts] at hb ⊢
  rcases List.mem_append.mp hb with hb | hb
  · obtain ⟨a, ha, hsent⟩ := hkept.heard b hb m hm
    exact ⟨a, List.mem_append_left _ ha, hsent⟩
  · obtain rfl := List.mem_singleton.mp hb
    have hhead : t.world.toParent.head? = some m := by
      rw [h.message] at hm
      unfold received at hm
      split at hm <;> first | exact hm | cases hm
    obtain ⟨op, hsends, hlog⟩ := hkept.carried m (List.mem_of_head? hhead)
    have hop : op ≠ .readerOpens := by
      rintro rfl
      cases hsends
    obtain ⟨a, ha, hentry⟩ := hkept.recorded _ hlog hop
    refine ⟨a, List.mem_append_left _ ha, ?_, ?_, Nat.le_trans (hkept.now a ha) h.timely.now_le⟩
    · rw [hentry]
    · rwa [hentry]

/-- Init enters behind the permission. -/
theorem Acted.permission (h : Acted s wall t t' c) (hkept : Kept s wall t)
    (hop : c.entry.op = .init .expectCgroupApplied) (hok : c.entry.ok = true) :
    Permitted s t'.acts c.instant := by
  obtain ⟨rest, put, hattempt⟩ := h.attempt
  obtain ⟨next, hdone, -⟩ := hattempt.done hok
  have heffect := perform_done hdone
  rw [hop] at heffect
  obtain ⟨pid, hm⟩ := heffect.found
  obtain ⟨a, ha, hsend⟩ := hkept.recorded _ (hkept.whole.inOrder.applied pid hm) nofun
  rw [h.acts]
  exact ⟨a, List.mem_append_left _ ha, hsend, Nat.le_trans (hkept.now a ha) h.timely.now_le⟩

theorem Acted.entered (h : Acted s wall t t' c) (hkept : Kept s wall t)
    (hentered : ⟨.init .expectCgroupApplied, true⟩ ∈ t'.world.log) :
    Permitted s t'.acts (t'.last .init) := by
  rw [h.log] at hentered
  rcases List.mem_append.mp hentered with hold | hnew
  · obtain ⟨a, ha, hsend, hinstant⟩ := hkept.entered hold
    exact ⟨a, h.acts ▸ List.mem_append_left _ ha, hsend, h.le_last hinstant (hkept.now a ha)⟩
  · have hentry : c.entry = ⟨.init .expectCgroupApplied, true⟩ := (List.mem_singleton.mp hnew).symm
    have hwho : .init = c.who := h.owner hkept .init (by rw [hentry]; rfl)
    obtain ⟨a, ha, hsend, hinstant⟩ :=
      h.permission hkept (congrArg Entry.op hentry) (congrArg Entry.ok hentry)
    refine ⟨a, ha, hsend, Nat.le_trans hinstant ?_⟩
    rw [hwho, h.last_self]
    exact h.timely.le_end.1

theorem Acted.permitted (h : Acted s wall t t' c) (hkept : Kept s wall t) :
    ∀ stamp ∈ stamps s.plan t'.acts .init, Permitted s t'.acts stamp.2 := by
  intro stamp hstamp
  rcases h.stamp_cases hstamp with hold | ⟨hwho, hnew⟩
  · rw [h.acts]
    exact permitted_snoc (hkept.permitted stamp hold) (Nat.le_refl _)
  · by_cases hop : c.entry.op = .init .expectCgroupApplied
    · -- nothing stands before init's first step
      rcases mem_stamps hnew with ⟨hmem, -⟩ | ⟨hmem, hx⟩
      · rw [hop] at hmem
        cases hmem
      · have hok : c.entry.ok = true := (mem_ifTrue.mp hmem).1
        obtain ⟨a, ha, hsend, hinstant⟩ := h.permission hkept hop hok
        exact ⟨a, ha, hsend, Nat.le_trans hinstant (h.timely.le_after hx)⟩
    · obtain ⟨rest, hops⟩ := h.ops
      cases hstage : c.entry.op.stage with
      | none =>
          rw [stamps_unstaged hstage] at hnew
          cases hnew
      | some st =>
          obtain ⟨howner, hprogress⟩ := hkept.whole.inOrder.progress hops hstage
          obtain rfl : st = .init := by
            rw [hwho] at howner
            cases st <;> first | rfl | cases howner
          have hfront : [.init .expectCgroupApplied] <+: program s .init := ⟨_, rfl⟩
          have hentered := hprogress.before hfront (by simpa using hop) _ List.mem_cons_self
          have hlast := hkept.entered hentered
          rw [h.acts]
          exact permitted_snoc hlast (hwho ▸ (h.timely.stamp_le hnew).1)

theorem reports_after {op : Op} {report : Who × List Sync.Phase} (h : report ∈ reports s op)
    (m : Option Message) : after op m = [] ∧ ∃ st, op.stage = some st ∧ st.owner = report.1 := by
  unfold reports at h
  split at h
  next =>
    obtain rfl := Option.some.inj h
    exact ⟨rfl, _, rfl, rfl⟩
  next =>
    obtain rfl := Option.some.inj h
    exact ⟨rfl, _, rfl, rfl⟩
  next => cases h

theorem Acted.told (h : Acted s wall t t' c) (hkept : Kept s wall t) :
    ∀ a ∈ t'.acts, a.entry.ok = true → ∀ report ∈ reports s a.entry.op, ∃ front back,
      stamps s.plan t'.acts report.1 = front ++ back ∧ (locals wall front).taken = report.2 ∧
        ∀ stamp ∈ front, stamp.2 ≤ a.instant := by
  intro a ha hok report hreport
  rw [h.acts] at ha
  rcases List.mem_append.mp ha with ha | ha
  · obtain ⟨front, back, hsplit, htaken, hfront⟩ := hkept.told a ha hok report hreport
    refine ⟨front, back ++ if c.who = report.1 then c.stamps s.plan else [], ?_, htaken, hfront⟩
    rw [h.stamps_eq, hsplit, List.append_assoc]
  · obtain rfl := List.mem_singleton.mp ha
    obtain ⟨hafter, st, hstage, howner⟩ := reports_after hreport a.message
    have hwho : a.who = report.1 := (h.owner hkept _ hstage).symm.trans howner
    refine ⟨_, [], (List.append_nil _).symm, h.acts ▸ h.foretold report hreport hok, ?_⟩
    intro stamp hstamp
    rcases h.stamp_cases hstamp with hold | ⟨-, hnew⟩
    · exact Nat.le_trans (hkept.last _ stamp hold) (hwho ▸ h.timely.last_le)
    · rcases mem_stamps hnew with ⟨-, hx⟩ | ⟨hmem, -⟩
      · exact (h.timely.before_le hx).2
      · rw [Act.behind, hafter] at hmem
        cases (mem_ifTrue.mp hmem).2

theorem Acted.kept (h : Acted s wall t t' c) (hkept : Kept s wall t)
    (hwhole : Whole s t'.world) : Kept s wall t' where
  whole := hwhole
  logged := by
    intro a ha
    rw [h.log]
    rw [h.acts] at ha
    rcases List.mem_append.mp ha with ha | ha
    · exact List.mem_append_left _ (hkept.logged a ha)
    · rw [List.mem_singleton.mp ha]
      simp
  recorded := by
    intro e he hop
    rw [h.log] at he
    rw [h.acts]
    rcases List.mem_append.mp he with he | he
    · obtain ⟨a, ha, hentry⟩ := hkept.recorded e he hop
      exact ⟨a, List.mem_append_left _ ha, hentry⟩
    · exact ⟨c, by simp, (List.mem_singleton.mp he).symm⟩
  owner := by
    intro a ha st hstage
    rw [h.acts] at ha
    rcases List.mem_append.mp ha with ha | ha
    · exact hkept.owner a ha st hstage
    · obtain rfl := List.mem_singleton.mp ha
      exact h.owner hkept _ hstage
  timely := by
    intro a ha
    rw [h.acts] at ha
    rcases List.mem_append.mp ha with ha | ha
    · exact hkept.timely a ha
    · rw [List.mem_singleton.mp ha]
      exact ⟨_, _, h.timely⟩
  now := by
    intro a ha
    have hnow : t'.now = c.instant := by rw [h.result]; rfl
    rw [h.acts] at ha
    rw [hnow]
    rcases List.mem_append.mp ha with ha | ha
    · exact Nat.le_trans (hkept.now a ha) h.timely.now_le
    · rw [List.mem_singleton.mp ha]
  ordered := h.ordered hkept
  last := h.last hkept
  born := h.born hkept
  carried := h.carried hkept
  heard := h.heard hkept
  entered := h.entered hkept
  permitted := h.permitted hkept
  told := h.told hkept

end acted

theorem Passed.keeps {s : Setting} {wall : Nat → Nat} {t t' : State} (h : Passed t t')
    (hkept : Kept s wall t) (hwhole : Whole s t'.world) : Kept s wall t' := by
  have hacts : t'.acts = t.acts := by rw [h.result]
  have hlast : t'.last = t.last := by rw [h.result]
  have hnow : t'.now = t.now := by rw [h.result]
  have hentered : ⟨.init .expectCgroupApplied, true⟩ ∈ t'.world.log →
      ⟨.init .expectCgroupApplied, true⟩ ∈ t.world.log := by
    intro he
    rcases h.log _ he with he | hop
    · exact he
    · cases hop
  constructor
  case whole => exact hwhole
  case logged => exact fun a ha => h.kept _ (hkept.logged a (hacts ▸ ha))
  case recorded =>
    intro e he hop
    rw [hacts]
    exact hkept.recorded e ((h.log e he).resolve_right hop) hop
  case carried =>
    intro m hm
    obtain ⟨op, hsends, hlog⟩ := hkept.carried m (h.toParent ▸ hm)
    exact ⟨op, hsends, h.kept _ hlog⟩
  case owner => exact hacts ▸ hkept.owner
  case timely => exact hacts ▸ hkept.timely
  case now => exact hacts ▸ hnow ▸ hkept.now
  case ordered => exact hacts ▸ hkept.ordered
  case last => exact hacts ▸ hlast ▸ hkept.last
  case born => exact hacts ▸ hlast ▸ hkept.born
  case heard => exact hacts ▸ hkept.heard
  case entered => exact fun he => hacts ▸ hlast ▸ hkept.entered (hentered he)
  case permitted => exact hacts ▸ hkept.permitted
  case told => exact hacts ▸ hkept.told

theorem Kept.step {s : Setting} {wall : Nat → Nat} {t t' : State} {tick : Tick}
    (h : Kept s wall t) (hstep : step s wall t tick = some t') : Kept s wall t' := by
  have hwhole : Whole s t'.world := h.whole.step (step_world hstep)
  by_cases hact : ∃ who fault, tick.event = .act who fault
  · obtain ⟨who, fault, hevent⟩ := hact
    obtain ⟨c, hacted⟩ := step_acted h.whole.inOrder hstep hevent
    exact hacted.kept h hwhole
  · have hevent : ∀ who fault, tick.event ≠ .act who fault := by simpa using hact
    exact (step_passed h.whole hstep hevent).keeps h hwhole

end Mars.Timed
