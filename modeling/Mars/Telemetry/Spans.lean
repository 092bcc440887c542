import Mars.Telemetry.Foreseen

/-! # Spans of the children in the runtime's timeline

What the children report is shifted to where the runtime forked and to where it
let init go on, and lies between those points and the report.
-/

namespace Mars.Timed
open Spec Namespace Protocol Sync Telemetry History

/-! ## A child's recorder -/

/-- A statement that brings no phases of others in. -/
def Stmt.Own : Stmt → Prop
  | .absorbIntermediate _ => False
  | .absorbInit => False
  | _ => True

/-- What has been recorded and taken by one who started at or after `since`. -/
structure Recorded (since now : Nat) (l : Locals) : Prop where
  clock : ∀ r, l.clock = some r → r.Sound since now
  inSequence : InSequence l.taken
  taken : ∃ origin, since ≤ origin ∧ origin ≤ now ∧ ∀ p ∈ l.taken, p.endUs ≤ (now - origin) / 1000

section recorded
variable {since now next : Nat} {l : Locals} {wall : Nat → Nat}

theorem recorded_empty (h : since ≤ now) : Recorded since now .empty where
  clock := nofun
  inSequence := inSequence_nil
  taken := ⟨since, Nat.le_refl _, h, nofun⟩

theorem Recorded.kept (h : Recorded since now l) (hnext : now ≤ next) :
    Recorded since next l where
  clock := fun r hr => (h.clock r hr).kept hnext
  inSequence := h.inSequence
  taken := by
    obtain ⟨origin, hsince, horigin, hends⟩ := h.taken
    refine ⟨origin, hsince, Nat.le_trans horigin hnext, fun p hp => ?_⟩
    exact Nat.le_trans (hends p hp) (Nat.div_le_div_right (Nat.sub_le_sub_right hnext _))

theorem Recorded.setClock (h : Recorded since now l) {clock : Option Recorder}
    (hclock : ∀ r, clock = some r → r.Sound since now) :
    Recorded since now { l with clock := clock } :=
  ⟨hclock, h.inSequence, h.taken⟩

theorem Recorded.run (h : Recorded since now l) (hsince : since ≤ now) {stmt : Stmt}
    (hown : stmt.Own) : Recorded since now (stmt.run wall now l) := by
  cases stmt with
  | new =>
      apply h.setClock
      rintro r ⟨⟩
      exact sound_new _ hsince
  | endPhase =>
      apply h.setClock
      intro r hr
      obtain ⟨old, hold, rfl⟩ := Option.map_eq_some_iff.mp hr
      exact (h.clock old hold).endPhase
  | openPhase name =>
      apply h.setClock
      intro r hr
      obtain ⟨old, hold, rfl⟩ := Option.map_eq_some_iff.mp hr
      exact (h.clock old hold).openPhase name
  | take =>
      simp only [Stmt.run]
      split
      next r hr =>
        have hsound := h.clock r hr
        have htaken := hsound.endPhase
        refine ⟨?_, htaken.inSequence, r.origin, hsound.made, hsound.origin, ?_⟩
        · rintro _ ⟨⟩
          exact hsound.taken
        · intro p hp
          have hended := htaken.ended p hp
          rwa [Recorder.elapsedUs, endPhase_origin] at hended
      next => exact h
  | absorbIntermediate phases => cases hown
  | absorbInit => cases hown
  | _ => exact ⟨h.clock, h.inSequence, h.taken⟩

/-- The statements one after the other, each no earlier than the one before. -/
theorem Recorded.foldl (h : Recorded since now l) (hsince : since ≤ now) (hnext : now ≤ next)
    {stamps : List (Stmt × Nat)} (hordered : (now :: stamps.map Prod.snd).Pairwise (· ≤ ·))
    (hall : ∀ stamp ∈ stamps, stamp.1.Own ∧ stamp.2 ≤ next) :
    Recorded since next (stamps.foldl (fun l stamp => stamp.1.run wall stamp.2 l) l) := by
  induction stamps generalizing now l with
  | nil => exact h.kept hnext
  | cons stamp rest ih =>
      obtain ⟨hfirst, hrest⟩ := List.pairwise_cons.mp hordered
      obtain ⟨hown, hbound⟩ := hall stamp List.mem_cons_self
      have hle : now ≤ stamp.2 := hfirst _ List.mem_cons_self
      have hlater : since ≤ stamp.2 := Nat.le_trans hsince hle
      have hrun : Recorded since stamp.2 (stamp.1.run wall stamp.2 l) :=
        (h.kept hle).run hlater hown
      exact ih hrun hlater hbound hrest fun x hx => hall x (List.mem_cons_of_mem _ hx)

theorem recorded_locals {stamps : List (Stmt × Nat)} (hsince : since ≤ now)
    (hordered : (stamps.map Prod.snd).Pairwise (· ≤ ·)) (hown : ∀ stamp ∈ stamps, stamp.1.Own)
    (hbounds : ∀ stamp ∈ stamps, since ≤ stamp.2 ∧ stamp.2 ≤ now) :
    Recorded since now (locals wall stamps) := by
  apply (recorded_empty (Nat.le_refl since)).foldl (Nat.le_refl since) hsince
  · rw [List.pairwise_cons]
    refine ⟨?_, hordered⟩
    intro x hx
    obtain ⟨stamp, hstamp, rfl⟩ := List.mem_map.mp hx
    exact (hbounds stamp hstamp).1
  · exact fun stamp hstamp => ⟨hown stamp hstamp, (hbounds stamp hstamp).2⟩

end recorded

/-! ## Where the timelines meet -/

section meet
variable {s : Setting} {wall : Nat → Nat} {t : State} {x : Nat} {phases : List Sync.Phase}

theorem own_stmts (plan : Plan) (m : Option Message) {op : Op} {st : Stage}
    (hstage : op.stage = some st) (howner : st.owner ≠ .parent) {stmt : Stmt}
    (h : stmt ∈ before plan op ∨ stmt ∈ after op m) : stmt.Own := by
  have hbegin : ∀ {name}, stmt ∈ begin name → stmt.Own := by
    intro name hmem
    simp only [begin, List.mem_cons, List.not_mem_nil, or_false] at hmem
    rcases hmem with rfl | rfl <;> trivial
  have hnew : ∀ {name}, stmt ∈ .new :: begin name → stmt.Own := by
    intro name hmem
    rcases List.mem_cons.mp hmem with rfl | hmem
    · trivial
    · exact hbegin hmem
  have htake : stmt ∈ [Stmt.take] → stmt.Own := by
    intro hmem
    rw [List.mem_singleton.mp hmem]
    trivial
  cases op with
  | intermediate op =>
      rcases h with h | h <;> cases op <;>
        first | exact hbegin h | exact hnew h | exact htake h | cases h
  | init op =>
      rcases h with h | h <;> cases op <;>
        first
          | exact hbegin h
          | exact hnew h
          | exact htake h
          | exact hbegin (mem_ifTrue.mp h).2
          | cases h
  | prepare op => cases hstage; exact absurd rfl howner
  | mapping op => cases hstage; exact absurd rfl howner
  | settle op => cases hstage; exact absurd rfl howner
  | _ => cases hstage

theorem Kept.own (h : Kept s wall t) {who : Who} (hwho : who ≠ .parent) :
    ∀ stamp ∈ stamps s.plan t.acts who, stamp.1.Own := by
  intro stamp hstamp
  obtain ⟨a, ha, rfl, hmem⟩ := exists_act hstamp
  cases hstage : a.entry.op.stage with
  | none =>
      rw [stamps_unstaged hstage] at hmem
      cases hmem
  | some st =>
      have howner : st.owner ≠ .parent := by rwa [h.owner a ha st hstage]
      rcases mem_stamps hmem with ⟨hstmt, -⟩ | ⟨hstmt, -⟩
      · exact own_stmts s.plan none hstage howner (Or.inl hstmt)
      · exact own_stmts s.plan a.message hstage howner (Or.inr (mem_ifTrue.mp hstmt).2)

/-- Nothing of the runtime's has failed where it has no error. -/
theorem Kept.succeeded (h : Kept s wall t) (hnone : t.world.error = none) {a : Act}
    (ha : a ∈ t.acts) (hwho : a.who = .parent) (st : Stage)
    (hstage : a.entry.op.stage = some st) : a.entry.ok = true := by
  cases hok : a.entry.ok with
  | true => rfl
  | false =>
      have hfailed : ⟨a.entry.op, false⟩ ∈ t.world.log := hok ▸ h.logged a ha
      have hsome := h.whole.ending.failed _ st hstage ((h.owner a ha st hstage).trans hwho) hfailed
      rw [hnone] at hsome
      cases hsome

theorem mem_before_forkedAt {plan : Plan} {op : Op} (h : .forkedAt ∈ before plan op) :
    op = .prepare .fork := by
  cases op with
  | prepare op => cases op <;> simp [before, begin] at h ⊢
  | settle op => cases op <;> simp [before, begin] at h
  | intermediate op => cases op <;> simp [before, begin] at h
  | init op => cases op <;> simp [before, begin] at h
  | _ => cases h

theorem not_mem_after_forkedAt {op : Op} {m : Option Message} : .forkedAt ∉ after op m := by
  unfold after
  split <;> simp [begin]

theorem not_mem_before {plan : Plan} {op : Op} :
    .absorbIntermediate phases ∉ before plan op ∧ .bindPhases phases ∉ before plan op := by
  unfold before
  split <;> simp [begin]

theorem mem_after_absorb {op : Op} {m : Option Message}
    (h : .absorbIntermediate phases ∈ after op m) : ∃ pid, m = some (.initPid pid phases) := by
  unfold after at h
  split at h <;> simp [begin] at h
  all_goals
    subst h
    exact ⟨_, rfl⟩

theorem mem_after_bind {op : Op} {m : Option Message} (h : .bindPhases phases ∈ after op m) :
    m = some (.initReady phases) := by
  unfold after at h
  split at h <;> simp [begin] at h
  exact h ▸ rfl

/-- The intermediate starts no earlier than `forked_at` is read. -/
theorem Kept.forked (h : Kept s wall t) (hnone : t.world.error = none)
    (hstamp : (.forkedAt, x) ∈ stamps s.plan t.acts .parent) :
    ∀ stamp ∈ stamps s.plan t.acts .intermediate, x ≤ stamp.2 := by
  obtain ⟨a, ha, hwho, hmem⟩ := exists_act hstamp
  obtain ⟨last, now, htimely⟩ := h.timely a ha
  rcases mem_stamps hmem with ⟨hstmt, hx⟩ | ⟨hstmt, -⟩
  · have hop := mem_before_forkedAt hstmt
    have hok := h.succeeded hnone ha hwho .prepare (by rw [hop]; rfl)
    have hfork : a.entry = ⟨.prepare .fork, true⟩ := by
      rw [← hop, ← hok]
    intro stamp hchild
    exact Nat.le_trans (htimely.before_le hx).2 ((h.born a ha hfork).2 stamp hchild)
  · exact absurd (mem_ifTrue.mp hstmt).2 not_mem_after_forkedAt

/-- What a child reports it has recorded before the runtime hears of it. -/
theorem Kept.reported (h : Kept s wall t) {b : Act} (hb : b ∈ t.acts) {m : Message}
    (hm : b.message = some m) (report : Who × List Sync.Phase)
    (hreport : ∀ op, SendsParent s op m → report ∈ reports s op) :
    ∃ front back, stamps s.plan t.acts report.1 = front ++ back ∧
      (locals wall front).taken = report.2 ∧ ∀ stamp ∈ front, stamp.2 ≤ b.instant := by
  obtain ⟨a, ha, hok, hsends, hinstant⟩ := h.heard b hb m hm
  obtain ⟨front, back, hsplit, htaken, hfront⟩ := h.told a ha hok report (hreport _ hsends)
  exact ⟨front, back, hsplit, htaken, fun stamp hstamp =>
    Nat.le_trans (hfront stamp hstamp) hinstant⟩

/-- The intermediate's phases have been taken by when the runtime absorbs them. -/
theorem Kept.absorbed (h : Kept s wall t)
    (hstamp : (.absorbIntermediate phases, x) ∈ stamps s.plan t.acts .parent) :
    ∃ front back, stamps s.plan t.acts .intermediate = front ++ back ∧
      (locals wall front).taken = s.intermediatePhases ∧ ∀ stamp ∈ front, stamp.2 ≤ x := by
  obtain ⟨b, hb, -, hmem⟩ := exists_act hstamp
  obtain ⟨last, now, htimely⟩ := h.timely b hb
  rcases mem_stamps hmem with ⟨hstmt, -⟩ | ⟨hstmt, hx⟩
  · exact absurd hstmt not_mem_before.1
  · obtain ⟨pid, hm⟩ := mem_after_absorb (mem_ifTrue.mp hstmt).2
    obtain ⟨front, back, hsplit, htaken, hfront⟩ :=
      h.reported hb hm (.intermediate, s.intermediatePhases) fun op hsends => by
        cases hsends
        rfl
    exact ⟨front, back, hsplit, htaken, fun stamp hold =>
      Nat.le_trans (hfront stamp hold) (htimely.le_after hx)⟩

theorem Kept.bound (h : Kept s wall t)
    (hstamp : (.bindPhases phases, x) ∈ stamps s.plan t.acts .parent) :
    ∃ front back, stamps s.plan t.acts .init = front ++ back ∧
      (locals wall front).taken = s.initPhases ∧ ∀ stamp ∈ front, stamp.2 ≤ x := by
  obtain ⟨b, hb, -, hmem⟩ := exists_act hstamp
  obtain ⟨last, now, htimely⟩ := h.timely b hb
  rcases mem_stamps hmem with ⟨hstmt, -⟩ | ⟨hstmt, hx⟩
  · exact absurd hstmt not_mem_before.2
  · obtain ⟨front, back, hsplit, htaken, hfront⟩ :=
      h.reported hb (mem_after_bind (mem_ifTrue.mp hstmt).2) (.init, s.initPhases)
        fun op hsends => by
          cases hsends
          rfl
    exact ⟨front, back, hsplit, htaken, fun stamp hold =>
      Nat.le_trans (hfront stamp hold) (htimely.le_after hx)⟩

/-- Init's recorder starts no earlier than some reading of `init_started`. -/
theorem Kept.started (h : Kept s wall t) {stamp : Stmt × Nat}
    (hstamp : stamp ∈ stamps s.plan t.acts .init) :
    ∃ x, (.initStarted, x) ∈ stamps s.plan t.acts .parent ∧ x ≤ stamp.2 := by
  obtain ⟨a, ha, hsend, hinstant⟩ := h.permitted stamp hstamp
  obtain ⟨last, now, htimely⟩ := h.timely a ha
  have hwho : .parent = a.who := h.owner a ha .settle (by rw [hsend]; rfl)
  have hbefore : before s.plan a.entry.op = begin "init" ++ [.initStarted] := by rw [hsend]; rfl
  have hlength : a.before.length = 3 := by
    rw [htimely.1, hbefore]
    rfl
  obtain ⟨ended, opened, started, hread⟩ := List.length_eq_three.mp hlength
  have hmem : (.initStarted, started) ∈ a.stamps s.plan := by
    rw [Act.stamps, hbefore, hread]
    simp [begin]
  refine ⟨started, List.mem_flatMap.mpr ⟨a, List.mem_filter.mpr ⟨ha, by simp [hwho]⟩, hmem⟩, ?_⟩
  have hle := (htimely.before_le (x := started) (by simp [hread])).2
  exact Nat.le_trans hle hinstant

end meet

/-! ## The runtime's timeline -/

/-- A list of statements with instants, the instants as a function of the place. -/
theorem exists_instants {stamps : List (Stmt × Nat)} {stmts : List Stmt}
    (h : stamps.map Prod.fst = stmts) (hordered : (stamps.map Prod.snd).Pairwise (· ≤ ·)) :
    ∃ at' : Nat → Nat, stamps = stmts.zipIdx.map (fun x => (x.1, at' x.2)) ∧
      ∀ i j, i ≤ j → j < stmts.length → at' i ≤ at' j := by
  subst h
  refine ⟨fun i => (stamps.map Prod.snd).getD i 0, ?_, ?_⟩
  · apply List.ext_getElem
    · simp
    · intro i hi _
      simp [hi]
  · intro i j hij hj
    rw [List.length_map] at hj
    rcases Nat.eq_or_lt_of_le hij with rfl | hlt
    · exact Nat.le_refl _
    · have hpairs := List.pairwise_iff_getElem.mp hordered i j (by simpa using Nat.lt_trans hlt hj)
        (by simpa using hj) hlt
      simpa [hj, Nat.lt_trans hlt hj] using hpairs

/-- The phases of the runtime's own recorder, and what it shifts the others' by. -/
structure Timeline where
  preparing : List Sync.Phase
  fork : Sync.Phase
  waiting : Sync.Phase
  placing : List Sync.Phase
  init : Sync.Phase
  state : Sync.Phase
  forkedAt : Nat
  initStarted : Nat

def Timeline.own (l : Timeline) : List Sync.Phase :=
  l.preparing ++ [l.fork, l.waiting] ++ l.placing ++ [l.init, l.state]

/-- With the children's phases where they have been absorbed. -/
def Timeline.absorbed (l : Timeline) (s : Setting) : List Sync.Phase :=
  l.preparing ++ l.fork :: s.intermediatePhases.map (shifted "intermediate" l.forkedAt) ++
    l.waiting :: l.placing ++ [l.init, l.state] ++ s.initPhases.map (shifted "init" l.initStarted)

theorem mem_absorbed {l : Timeline} {s : Setting} {p : Sync.Phase} (h : p ∈ l.absorbed s) :
    p ∈ l.own ∨ p ∈ s.intermediatePhases.map (shifted "intermediate" l.forkedAt) ∨
      p ∈ s.initPhases.map (shifted "init" l.initStarted) := by
  simp only [Timeline.absorbed, Timeline.own, List.mem_append, List.mem_cons] at h ⊢
  tauto

/-- The timeline for the instants of `runtimeStmts`. -/
def timeline (elapsed : Nat → Nat) : Timeline where
  preparing := [⟨"bundle", elapsed 2, elapsed 3⟩, ⟨"plan", elapsed 4, elapsed 5⟩,
    ⟨"cgroup", elapsed 6, elapsed 7⟩]
  fork := ⟨"fork", elapsed 8, elapsed 10⟩
  waiting := ⟨"wait.initpid", elapsed 11, elapsed 13⟩
  placing := [⟨"reap.intermediate", elapsed 14, elapsed 15⟩,
    ⟨"cgroup.attach", elapsed 16, elapsed 17⟩, ⟨"hooks.createRuntime", elapsed 18, elapsed 19⟩]
  init := ⟨"init", elapsed 20, elapsed 23⟩
  state := ⟨"state", elapsed 24, elapsed 25⟩
  forkedAt := elapsed 9
  initStarted := elapsed 21

theorem runtime_locals (s : Setting) (wall at' : Nat → Nat) :
    (locals wall ((runtimeStmts s).zipIdx.map fun x => (x.1, at' x.2))).clock =
      some ⟨at' 0, wall (at' 0), (timeline fun i => (at' i - at' 0) / 1000).absorbed s, none⟩ := by
  have hphases : ∀ a b : List Sync.Phase, ∀ p q r u v w x y z o : Sync.Phase,
      ((((((((((([] ++ [p]) ++ [q]) ++ [r]) ++ [u]) ++ a) ++ [v]) ++ [w]) ++ [x]) ++ [y]) ++ [z]) ++
        [o]) ++ b = [p, q, r] ++ u :: a ++ v :: [w, x, y] ++ [z, o] ++ b := by
    simp
  exact congrArg (fun phases => some (Recorder.mk _ _ phases none))
    (hphases _ _ _ _ _ _ _ _ _ _ _ _)

/-- A monotone clock gives its phases in order, each between two of its instants. -/
theorem inSequence_map {elapsed : Nat → Nat} {bound : Nat}
    (h : ∀ i j, i ≤ j → j < bound → elapsed i ≤ elapsed j) (marks : List (String × Nat × Nat))
    (hapart : marks.Pairwise fun a b => a.2.2 ≤ b.2.1)
    (hforward : ∀ a ∈ marks, a.2.1 ≤ a.2.2 ∧ a.2.2 < bound) :
    InSequence (marks.map fun a => ⟨a.1, elapsed a.2.1, elapsed a.2.2⟩) where
  apart := by
    rw [List.pairwise_map]
    apply List.Pairwise.imp_of_mem _ hapart
    intro a b _ hb hle
    exact h _ _ hle (Nat.lt_of_le_of_lt (hforward b hb).1 (hforward b hb).2)
  forward := by
    intro p hp
    obtain ⟨a, ha, rfl⟩ := List.mem_map.mp hp
    exact h _ _ (hforward a ha).1 (hforward a ha).2

theorem timeline_own {elapsed : Nat → Nat}
    (h : ∀ i j, i ≤ j → j < 27 → elapsed i ≤ elapsed j) : InSequence (timeline elapsed).own :=
  inSequence_map h [("bundle", 2, 3), ("plan", 4, 5), ("cgroup", 6, 7), ("fork", 8, 10),
    ("wait.initpid", 11, 13), ("reap.intermediate", 14, 15), ("cgroup.attach", 16, 17),
    ("hooks.createRuntime", 18, 19), ("init", 20, 23), ("state", 24, 25)] (by decide) (by decide)

/-- From one clock to the other the microseconds are rounded down twice, and still
the shifted end is no later than a reading made after it. -/
theorem shifted_end_le {made shift origin heard later us : Nat} (hshift : made ≤ shift)
    (horigin : shift ≤ origin) (hlater : heard ≤ later) (hheard : origin ≤ heard)
    (hus : us ≤ (heard - origin) / 1000) :
    (shift - made) / 1000 + us ≤ (later - made) / 1000 := by
  omega

/-! ## The nesting -/

/-- The phases lie where the runtime's timeline has the children. -/
structure Nested (s : Setting) (clock : Recorder) (l : Timeline) : Prop where
  names : l.fork.name = "fork" ∧ l.waiting.name = "wait.initpid" ∧ l.init.name = "init"
  phases : clock.phases = l.absorbed s
  closed : clock.opened = none
  own : InSequence l.own
  intermediate : InSequence s.intermediatePhases
  init : InSequence s.initPhases
  absorbed : InSequence (s.intermediatePhases.map (shifted "intermediate" l.forkedAt)) ∧
    InSequence (s.initPhases.map (shifted "init" l.initStarted))
  underFork : ∀ p ∈ s.intermediatePhases.map (shifted "intermediate" l.forkedAt),
    l.fork.startUs ≤ p.startUs ∧ p.startUs ≤ p.endUs ∧ p.endUs ≤ l.waiting.endUs
  underInit : ∀ p ∈ s.initPhases.map (shifted "init" l.initStarted),
    l.init.startUs ≤ p.startUs ∧ p.startUs ≤ p.endUs ∧ p.endUs ≤ l.init.endUs
  durations : ∀ pre offsetUs phase, (shifted pre offsetUs phase).endUs -
    (shifted pre offsetUs phase).startUs = phase.endUs - phase.startUs
  exported : ∀ urandom host root containerId now body,
    exportBody urandom host root containerId clock.wallOrigin (clock.take now).1 =
      some (some body) → RootCovers host root containerId clock.wallOrigin body

section nesting
variable {s : Setting} {wall : Nat → Nat} {t : State}

/-- A child's phases, shifted to where its recorder cannot have started yet. -/
theorem shifted_within (pre : String) {phases : List Sync.Phase} {front : List (Stmt × Nat)}
    {made opening shift heard closing : Nat} (hmade : made ≤ shift) (hopening : opening ≤ shift)
    (hclosing : heard ≤ closing)
    (hrecorded : Recorded shift heard (locals wall front))
    (htaken : (locals wall front).taken = phases) :
    InSequence phases ∧ ∀ p ∈ phases.map (shifted pre ((shift - made) / 1000)),
      (opening - made) / 1000 ≤ p.startUs ∧ p.startUs ≤ p.endUs ∧
        p.endUs ≤ (closing - made) / 1000 := by
  subst htaken
  obtain ⟨origin, hsince, horigin, hends⟩ := hrecorded.taken
  refine ⟨hrecorded.inSequence, ?_⟩
  intro p hp
  obtain ⟨phase, hphase, rfl⟩ := List.mem_map.mp hp
  have hforward := hrecorded.inSequence.forward phase hphase
  have hend := shifted_end_le hmade hsince hclosing horigin (hends phase hphase)
  have hstart : (opening - made) / 1000 ≤ (shift - made) / 1000 :=
    Nat.div_le_div_right (Nat.sub_le_sub_right hopening made)
  exact ⟨Nat.le_trans hstart (Nat.le_add_right _ _), Nat.add_le_add_left hforward _, hend⟩

/-- The part of a child's doing that its report is about. -/
theorem Kept.recorded_front (h : Kept s wall t) {who : Who} (hwho : who ≠ .parent)
    {front back : List (Stmt × Nat)} {since now : Nat}
    (hsplit : stamps s.plan t.acts who = front ++ back) (hsince : since ≤ now)
    (hfrom : ∀ stamp ∈ stamps s.plan t.acts who, since ≤ stamp.2)
    (hto : ∀ stamp ∈ front, stamp.2 ≤ now) : Recorded since now (locals wall front) := by
  have hsub : ∀ stamp ∈ front, stamp ∈ stamps s.plan t.acts who := fun stamp hstamp =>
    hsplit ▸ List.mem_append_left _ hstamp
  apply recorded_locals hsince
  · have hordered := h.ordered who
    rw [hsplit, List.map_append] at hordered
    exact (List.pairwise_append.mp hordered).1
  · exact fun stamp hstamp => h.own hwho stamp (hsub stamp hstamp)
  · exact fun stamp hstamp => ⟨hfrom stamp (hsub stamp hstamp), hto stamp hstamp⟩

theorem Kept.nested (h : Kept s wall t) (hforeseen : Foreseen s t)
    (hreturned : t.world.returned = some (.ok ())) :
    ∃ clock l, (t.runtime s wall).clock = some clock ∧ Nested s clock l := by
  obtain ⟨hops, hnone⟩ := returned_ok hreturned
  have hstmts := hforeseen hnone
  rw [hops, List.flatMap_nil, List.append_nil] at hstmts
  obtain ⟨at', hstamps, hmono⟩ := exists_instants hstmts (h.ordered .parent)
  have hat : ∀ i stmt, (runtimeStmts s)[i]? = some stmt →
      (stmt, at' i) ∈ stamps s.plan t.acts .parent := by
    intro i stmt hstmt
    rw [hstamps]
    exact List.mem_map.mpr ⟨(stmt, i), List.mem_zipIdx_iff_getElem?.mpr hstmt, rfl⟩
  have hlength : (runtimeStmts s).length = 27 := rfl
  rw [hlength] at hmono
  have hle : ∀ i j, i ≤ j ∧ j < 27 → at' i ≤ at' j := fun i j hij => hmono i j hij.1 hij.2
  -- the intermediate between `forked_at` and the message about init's pid
  obtain ⟨front, back, hsplit, htaken, hfront⟩ := h.absorbed (hat 12 _ rfl)
  have hintermediate : Recorded (at' 9) (at' 12) (locals wall front) :=
    h.recorded_front (by decide) hsplit (hle 9 12 (by decide)) (h.forked hnone (hat 9 _ rfl)) hfront
  -- init between `init_started` and its report
  obtain ⟨front', back', hsplit', htaken', hfront'⟩ := h.bound (hat 22 _ rfl)
  have hstarted : ∀ stamp ∈ stamps s.plan t.acts .init, at' 21 ≤ stamp.2 := by
    intro stamp hstamp
    obtain ⟨x, hx, hbehind⟩ := h.started hstamp
    have hone : x = at' 21 := by
      rw [hstamps] at hx
      simpa [runtimeStmts, begin] using hx
    exact hone ▸ hbehind
  have hinit : Recorded (at' 21) (at' 22) (locals wall front') :=
    h.recorded_front (by decide) hsplit' (hle 21 22 (by decide)) hstarted hfront'
  obtain ⟨hsequence, hunder⟩ := shifted_within "intermediate" (hle 0 9 (by decide))
    (hle 8 9 (by decide)) (hle 12 13 (by decide)) hintermediate htaken
  obtain ⟨hsequence', hunder'⟩ := shifted_within "init" (hle 0 21 (by decide))
    (hle 20 21 (by decide)) (hle 22 23 (by decide)) hinit htaken'
  have hown : InSequence (timeline fun i => (at' i - at' 0) / 1000).own :=
    timeline_own fun i j hij hj =>
      Nat.div_le_div_right (Nat.sub_le_sub_right (hmono i j hij hj) _)
  have hclock := runtime_locals s wall at'
  rw [← hstamps] at hclock
  refine ⟨_, _, hclock, ⟨rfl, rfl, rfl⟩, rfl, rfl, hown, hsequence, hsequence',
    ⟨hsequence.shifted _ _, hsequence'.shifted _ _⟩, hunder, hunder', shifted_duration, ?_⟩
  intro urandom host root containerId now body hbody
  refine rootCovers_export (fun p hp => ?_) hbody
  rcases mem_absorbed hp with hp | hp | hp
  · exact hown.forward p hp
  · exact (hunder p hp).2.1
  · exact (hunder' p hp).2.1

end nesting

/-! ## Every create that returns well -/

section run
variable {s : Setting} {wall : Nat → Nat} {t u : State} {dir stateFile : Bool} {ticks : List Tick}

/-- Without its times a run is one of the create. -/
theorem run_world (h : Transition.run (step s wall) t ticks = some u) :
    Transition.run (Protocol.step s) t.world (ticks.map Tick.event) = some u.world := by
  induction ticks generalizing t with
  | nil => exact congrArg some (congrArg State.world (Option.some.inj h))
  | cons tick rest ih =>
      obtain ⟨next, hnext, hrest⟩ := Transition.run_cons_eq_some.mp h
      exact Transition.run_cons_eq_some.mpr ⟨next.world, step_world hnext, ih hrest⟩

/-- However long steps and messages take, and in whatever order the parties go on, the
intermediate's phases lie between the runtime's fork and the end of its wait for init's
pid, and init's in the phase the runtime has for it. -/
theorem spans_nest (hrun : Transition.run (step s wall) (start s dir stateFile) ticks = some t)
    (hreturned : t.world.returned = some (.ok ())) :
    ∃ clock l, (t.runtime s wall).clock = some clock ∧ Nested s clock l := by
  obtain rfl := fresh_of_returned (run_world hrun) hreturned
  have hboth : Kept s wall t ∧ Foreseen s t :=
    @Transition.run_invariant _ _ _ (fun t => Kept s wall t ∧ Foreseen s t)
      (fun _ _ _ h hstep => ⟨h.1.step hstep, foreseen_step h.1 h.2 hstep⟩) _ _ _
      ⟨kept_start s wall dir, foreseen_start s dir false⟩ hrun
  exact hboth.1.nested hboth.2 hreturned

end run

/-! ## A create with a user namespace -/

def tracedSetting : Setting := { Placement.userSetting with
  intermediatePhases := [⟨"join", 0, 2⟩, ⟨"unshare.user", 2, 4⟩, ⟨"unshare.user.map", 5, 29⟩,
    ⟨"fork.init", 30, 32⟩]
  initPhases := [⟨"unshare.cgroup", 0, 2⟩, ⟨"identity", 2, 12⟩, ⟨"security", 12, 14⟩] }

/-- The `n`th act, with so many statements on both sides of the step. -/
def paced (n : Nat) (who : Who) (before after : Nat) : Tick :=
  let instants := (List.range (before + 1 + after)).map fun i => 2500 * (n + 1) + 300 * i
  ⟨.act who none, instants.take before, 2500 * (n + 1) + 300 * before, instants.drop (before + 1)⟩

open Who in
def tracedRun : List Tick :=
  ([(parent, 3, 0), (parent, 0, 0), (parent, 0, 0), (parent, 2, 0), (parent, 0, 0), (parent, 0, 0),
    (parent, 0, 0), (parent, 2, 0), (parent, 0, 0), (parent, 0, 0), (parent, 0, 0), (parent, 0, 0),
    (parent, 3, 0), (parent, 0, 0), (intermediate, 0, 3), (intermediate, 2, 0),
    (intermediate, 2, 0), (parent, 2, 0), (parent, 0, 0), (parent, 0, 0), (parent, 0, 0),
    (parent, 0, 0), (parent, 0, 0), (intermediate, 0, 0), (intermediate, 0, 0),
    (intermediate, 0, 0), (intermediate, 2, 0), (intermediate, 1, 0), (intermediate, 0, 0),
    (parent, 0, 1), (parent, 2, 0), (parent, 2, 2), (parent, 3, 0), (init, 0, 3), (init, 2, 0),
    (init, 0, 0), (init, 0, 0), (init, 0, 0), (init, 0, 2), (init, 1, 0), (init, 0, 0),
    (parent, 0, 3), (parent, 0, 0), (parent, 0, 0), (parent, 0, 0), (parent, 2, 0)]
    : List (Who × Nat × Nat)).zipIdx.map fun x => paced x.2 x.1.1 x.1.2.1 x.1.2.2

theorem tracedRun_enabled : (Transition.run (step tracedSetting id)
    (start tracedSetting false false) tracedRun).isSome = true := by rfl

theorem spans_nest_traced :
    ∃ clock l, ((Option.get _ tracedRun_enabled).runtime tracedSetting id).clock = some clock ∧
      Nested tracedSetting clock l :=
  spans_nest (Option.some_get tracedRun_enabled).symm (by rfl)

end Mars.Timed
