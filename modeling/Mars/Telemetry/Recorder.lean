import Mars.Telemetry.Export

/-! # Recorders

The recorders of a machine read one monotone clock, each in whole microseconds
since its own origin. Instants are nanoseconds of that clock.
-/

namespace Mars.Telemetry
open JsonRead (print)
open Sync

structure Recorder where
  origin : Nat
  wallOrigin : Nat
  phases : List Phase
  opened : Option (String × Nat)
  deriving DecidableEq

/-! ## What a recorder does -/

def Recorder.new (now wall : Nat) : Recorder := ⟨now, wall, [], none⟩

def Recorder.elapsedUs (r : Recorder) (now : Nat) : Nat := (now - r.origin) / 1000

/-- `end`, which reads the clock only where a phase is open. -/
def Recorder.endPhase (r : Recorder) (now : Nat) : Recorder :=
  match r.opened with
  | some (name, startUs) =>
      { r with phases := r.phases ++ [⟨name, startUs, r.elapsedUs now⟩], opened := none }
  | none => r

/-- What `begin` does after its `end`. -/
def Recorder.openPhase (r : Recorder) (name : String) (now : Nat) : Recorder :=
  { r with opened := some (name, r.elapsedUs now) }

/-- The two readings of `begin` are apart. -/
def Recorder.begin (r : Recorder) (name : String) (ended now : Nat) : Recorder :=
  (r.endPhase ended).openPhase name now

def shifted (pre : String) (offsetUs : Nat) (phase : Phase) : Phase :=
  ⟨pre ++ "." ++ phase.name, offsetUs + phase.startUs, offsetUs + phase.endUs⟩

def Recorder.absorb (r : Recorder) (pre : String) (offsetUs : Nat) (phases : List Phase) :
    Recorder :=
  { r with phases := r.phases ++ phases.map (shifted pre offsetUs) }

def Recorder.take (r : Recorder) (now : Nat) : List Phase × Recorder :=
  ((r.endPhase now).phases, { r.endPhase now with phases := [] })

theorem shifted_duration (pre : String) (offsetUs : Nat) (phase : Phase) :
    (shifted pre offsetUs phase).endUs - (shifted pre offsetUs phase).startUs =
      phase.endUs - phase.startUs :=
  Nat.add_sub_add_left _ _ _

theorem elapsedUs_mono (r : Recorder) {a b : Nat} (h : a ≤ b) : r.elapsedUs a ≤ r.elapsedUs b :=
  Nat.div_le_div_right (Nat.sub_le_sub_right h r.origin)

/-! ## Phases in order -/

/-- Each phase ends where it started or later, and before the next one starts. -/
structure InSequence (phases : List Phase) : Prop where
  apart : phases.Pairwise fun p q => p.endUs ≤ q.startUs
  forward : ∀ p ∈ phases, p.startUs ≤ p.endUs

theorem inSequence_nil : InSequence [] := ⟨.nil, nofun⟩

/-- One offset for all phases keeps their order. -/
theorem InSequence.shifted {phases : List Phase} (h : InSequence phases) (pre : String)
    (offsetUs : Nat) : InSequence (phases.map (shifted pre offsetUs)) where
  apart := by
    rw [List.pairwise_map]
    exact h.apart.imp fun hle => Nat.add_le_add_left hle offsetUs
  forward := by
    intro p hp
    obtain ⟨phase, hphase, rfl⟩ := List.mem_map.mp hp
    exact Nat.add_le_add_left (h.forward phase hphase) offsetUs

theorem InSequence.snoc {phases : List Phase} {phase : Phase} (h : InSequence phases)
    (hbefore : ∀ p ∈ phases, p.endUs ≤ phase.startUs) (hforward : phase.startUs ≤ phase.endUs) :
    InSequence (phases ++ [phase]) where
  apart := by
    rw [List.pairwise_append]
    refine ⟨h.apart, List.pairwise_singleton _ _, ?_⟩
    intro p hp q hq
    obtain rfl := List.mem_singleton.mp hq
    exact hbefore p hp
  forward := by
    intro p hp
    rcases List.mem_append.mp hp with hp | hp
    · exact h.forward p hp
    · obtain rfl := List.mem_singleton.mp hp
      exact hforward

/-- A recorder made at or after `since` and used up to `now`. -/
structure Recorder.Sound (since now : Nat) (r : Recorder) : Prop where
  made : since ≤ r.origin
  origin : r.origin ≤ now
  inSequence : InSequence r.phases
  ended : ∀ p ∈ r.phases, p.endUs ≤ r.elapsedUs now
  opened : ∀ name startUs, r.opened = some (name, startUs) →
    (∀ p ∈ r.phases, p.endUs ≤ startUs) ∧ startUs ≤ r.elapsedUs now

section sound
variable {since now next : Nat} {r : Recorder}

theorem sound_new (wall : Nat) (h : since ≤ now) : (Recorder.new now wall).Sound since now where
  made := h
  origin := Nat.le_refl now
  inSequence := inSequence_nil
  ended := nofun
  opened := nofun

theorem Recorder.Sound.kept (h : r.Sound since now) (hnext : now ≤ next) :
    r.Sound since next where
  made := h.made
  origin := Nat.le_trans h.origin hnext
  inSequence := h.inSequence
  ended := fun p hp => Nat.le_trans (h.ended p hp) (elapsedUs_mono r hnext)
  opened := fun name startUs hopened =>
    (h.opened name startUs hopened).imp_right fun hstart =>
      Nat.le_trans hstart (elapsedUs_mono r hnext)

theorem Recorder.Sound.endPhase (h : r.Sound since now) : (r.endPhase now).Sound since now := by
  unfold Recorder.endPhase
  split
  next name startUs hopened =>
    obtain ⟨hbefore, hstart⟩ := h.opened name startUs hopened
    refine ⟨h.made, h.origin, h.inSequence.snoc hbefore hstart, ?_, nofun⟩
    intro p hp
    rcases List.mem_append.mp hp with hp | hp
    · exact h.ended p hp
    · obtain rfl := List.mem_singleton.mp hp
      exact Nat.le_refl _
  next => exact h

theorem Recorder.Sound.openPhase (h : r.Sound since now) (name : String) :
    (r.openPhase name now).Sound since now where
  made := h.made
  origin := h.origin
  inSequence := h.inSequence
  ended := h.ended
  opened := by
    rintro _ _ ⟨⟩
    exact ⟨h.ended, Nat.le_refl _⟩

theorem endPhase_origin (r : Recorder) (now : Nat) : (r.endPhase now).origin = r.origin := by
  unfold Recorder.endPhase
  split
  next => rfl
  next => rfl

theorem endPhase_opened (r : Recorder) (now : Nat) : (r.endPhase now).opened = none := by
  unfold Recorder.endPhase
  split
  next => rfl
  next hnone => exact hnone

theorem Recorder.Sound.taken (h : r.Sound since now) : (r.take now).2.Sound since now where
  made := h.endPhase.made
  origin := h.endPhase.origin
  inSequence := inSequence_nil
  ended := nofun
  opened := by
    intro name startUs hopened
    cases (endPhase_opened r now).symm.trans hopened

end sound

/-! ## Spans -/

theorem le_total {phases : List Phase} {phase : Phase} (h : phase ∈ phases) :
    phase.endUs ≤ total phases := by
  unfold total
  cases hmax : (phases.map Phase.endUs).max? with
  | none =>
      rw [List.max?_eq_none_iff, List.map_eq_nil_iff] at hmax
      rw [hmax] at h
      cases h
  | some most => exact (List.max?_eq_some_iff.mp hmax).2 _ (List.mem_map_of_mem h)

/-- The document is a root span and, under it, spans that start and end within it. -/
def RootCovers (host root containerId : String) (origin : Nat) (body : List Char) : Prop :=
  ∃ traceId rootSpan totalUs spans, body = print form (documentValue host
      (spanValue traceId rootSpan none root origin 0 totalUs containerId :: spans)) ∧
    ∀ v ∈ spans, ∃ id name startUs endUs, v = spanValue traceId id (some rootSpan) name origin
      startUs endUs containerId ∧ startUs ≤ endUs ∧ endUs ≤ totalUs

section spans
variable {urandom : Nat → Option (Nat → UInt8)} {host root traceId rootSpan containerId : String}
  {origin draw : Nat} {phases : List Phase} {spans : List JsonRead.Value} {body : List Char}

/-- The spans of the loop are those of the phases. -/
theorem phaseValues_phases
    (h : phaseValues urandom traceId rootSpan origin containerId draw phases = some spans) :
    ∀ v ∈ spans, ∃ id, ∃ p ∈ phases, v = spanValue traceId id (some rootSpan) p.name origin
      p.startUs p.endUs containerId := by
  induction phases generalizing draw spans with
  | nil =>
      cases h
      nofun
  | cons phase phases ih =>
      obtain ⟨id, -, hrest⟩ := Option.bind_eq_some_iff.mp h
      obtain ⟨others, hothers, hspans⟩ := Option.bind_eq_some_iff.mp hrest
      obtain rfl := Option.some.inj hspans
      intro v hv
      rcases List.mem_cons.mp hv with rfl | hv
      · exact ⟨id, phase, List.mem_cons_self, rfl⟩
      · obtain ⟨id', p, hp, hspan⟩ := ih hothers v hv
        exact ⟨id', p, List.mem_cons_of_mem _ hp, hspan⟩

theorem rootCovers_export (hforward : ∀ p ∈ phases, p.startUs ≤ p.endUs)
    (h : exportBody urandom host root containerId origin phases = some (some body)) :
    RootCovers host root containerId origin body := by
  have hphases : phases ≠ [] := by
    rintro rfl
    cases h
  rw [exportBody_eq hphases] at h
  obtain ⟨v, hdocument, hbody⟩ := Option.map_eq_some_iff.mp h
  obtain ⟨traceId, -, hroot⟩ := Option.bind_eq_some_iff.mp hdocument
  obtain ⟨rootSpan, -, hvalues⟩ := Option.bind_eq_some_iff.mp hroot
  obtain ⟨spans, hspans, hv⟩ := Option.bind_eq_some_iff.mp hvalues
  obtain rfl := Option.some.inj hv
  refine ⟨traceId, rootSpan, total phases, spans, (Option.some.inj hbody).symm, ?_⟩
  intro v hv
  obtain ⟨id, p, hp, rfl⟩ := phaseValues_phases hspans v hv
  exact ⟨id, p.name, p.startUs, p.endUs, rfl, hforward p hp, le_total hp⟩

end spans

end Mars.Telemetry
