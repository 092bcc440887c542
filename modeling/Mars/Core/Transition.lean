import Mathlib.Logic.Function.Basic

/-! # Runs of a step function

A system is a step function that is undefined where an event cannot happen. A
run is a list of events, each enabled in the state before it.
-/

namespace Transition

variable {S E : Type} {step : S → E → Option S}

def run (step : S → E → Option S) (s : S) : List E → Option S
  | [] => some s
  | e :: rest => (step s e).bind fun next => run step next rest

theorem run_cons_eq_some {s s' : S} {e : E} {rest : List E} :
    run step s (e :: rest) = some s' ↔
      ∃ next, step s e = some next ∧ run step next rest = some s' := by
  simp [run, Option.bind_eq_some_iff]

theorem run_append {s : S} (front back : List E) :
    run step s (front ++ back) = (run step s front).bind fun next => run step next back := by
  induction front generalizing s with
  | nil => rfl
  | cons e rest ih =>
      simp only [List.cons_append, run]
      cases step s e with
      | none => rfl
      | some next => exact ih

/-- What every step preserves holds along every run. -/
theorem run_invariant {I : S → Prop} (hstep : ∀ s e s', I s → step s e = some s' → I s')
    {s s' : S} {events : List E} (hs : I s) (h : run step s events = some s') : I s' := by
  induction events generalizing s with
  | nil => exact Option.some.inj h ▸ hs
  | cons e rest ih =>
      obtain ⟨next, hnext, hrest⟩ := run_cons_eq_some.mp h
      exact ih (hstep s e next hs hnext) hrest

/-- Two step functions that agree wherever the first leads have the same runs. -/
theorem run_congr {step' : S → E → Option S} {I : S → Prop}
    (hsame : ∀ s e, I s → step s e = step' s e)
    (hstep : ∀ s e s', I s → step s e = some s' → I s') {s : S} (hs : I s) (events : List E) :
    run step s events = run step' s events := by
  induction events generalizing s with
  | nil => rfl
  | cons e rest ih =>
      rw [run, run, ← hsame s e hs]
      cases hnext : step s e with
      | none => rfl
      | some next => exact ih (hstep s e next hs hnext)

/-- Each event meets a condition in the state it happens in. -/
def Along (step : S → E → Option S) (ok : S → E → Prop) (s : S) : List E → Prop
  | [] => True
  | e :: rest => ok s e ∧ match step s e with
      | some next => Along step ok next rest
      | none => True

def decideAlong {ok : S → E → Prop} [∀ s e, Decidable (ok s e)] :
    (s : S) → (events : List E) → Decidable (Along step ok s events)
  | _, [] => isTrue trivial
  | s, e :: rest =>
      have : Decidable (match step s e with
          | some next => Along step ok next rest
          | none => True) :=
        match step s e with
        | some next => decideAlong next rest
        | none => isTrue trivial
      inferInstanceAs (Decidable (_ ∧ _))

instance {ok : S → E → Prop} [∀ s e, Decidable (ok s e)] (s : S) (events : List E) :
    Decidable (Along step ok s events) := decideAlong s events

theorem along_of_forall {ok : S → E → Prop} {events : List E} (h : ∀ e ∈ events, ∀ s, ok s e)
    (s : S) : Along step ok s events := by
  induction events generalizing s with
  | nil => trivial
  | cons e rest ih =>
      obtain ⟨he, hrest⟩ := List.forall_mem_cons.mp h
      refine ⟨he s, ?_⟩
      split
      · exact ih hrest _
      · trivial

/-- What every step preserves under a condition holds along every run that meets it. -/
theorem run_invariant_along {I : S → Prop} {ok : S → E → Prop}
    (hstep : ∀ s e s', I s → ok s e → step s e = some s' → I s')
    {s s' : S} {events : List E} (hs : I s) (h : run step s events = some s')
    (hok : Along step ok s events) : I s' := by
  induction events generalizing s with
  | nil => exact Option.some.inj h ▸ hs
  | cons e rest ih =>
      obtain ⟨next, hnext, hrest⟩ := run_cons_eq_some.mp h
      obtain ⟨he, hok⟩ := hok
      rw [hnext] at hok
      exact ih (hstep s e next hs he hnext) hrest hok

/-- What follows from the invariant and the condition at each event holds along
every run that meets the condition. -/
theorem along_of_invariant {I : S → Prop} {ok good : S → E → Prop}
    (hstep : ∀ s e s', I s → ok s e → step s e = some s' → I s')
    (hgood : ∀ s e, I s → ok s e → good s e) {s : S} {events : List E} (hs : I s)
    (hok : Along step ok s events) : Along step good s events := by
  induction events generalizing s with
  | nil => trivial
  | cons e rest ih =>
      obtain ⟨he, hrest⟩ := hok
      refine ⟨hgood s e hs he, ?_⟩
      cases hnext : step s e with
      | none => trivial
      | some next =>
          rw [hnext] at hrest
          exact ih (hstep s e next hs he hnext) hrest

/-- Two step functions that agree where the condition holds have the same runs that meet it. -/
theorem along_congr {step' : S → E → Option S} {ok : S → E → Prop}
    (hsame : ∀ s e, ok s e → step s e = step' s e) {s : S} {events : List E}
    (h : Along step ok s events) :
    Along step' ok s events ∧ run step s events = run step' s events := by
  induction events generalizing s with
  | nil => exact ⟨trivial, rfl⟩
  | cons e rest ih =>
      obtain ⟨he, hrest⟩ := h
      have hstep := hsame s e he
      cases hnext : step s e with
      | none =>
          rw [hnext] at hstep
          simp only [Along, run, hnext, ← hstep]
          exact ⟨⟨he, trivial⟩, rfl⟩
      | some next =>
          rw [hnext] at hrest hstep
          simp only [Along, run, hnext, ← hstep]
          exact ⟨⟨he, (ih hrest).1⟩, (ih hrest).2⟩

theorem along_append {ok : S → E → Prop} {s w : S} {front back : List E}
    (hfront : Along step ok s front) (hrun : run step s front = some w)
    (hback : Along step ok w back) : Along step ok s (front ++ back) := by
  induction front generalizing s with
  | nil => exact Option.some.inj hrun ▸ hback
  | cons e rest ih =>
      obtain ⟨he, hrest⟩ := hfront
      obtain ⟨next, hnext, hrun⟩ := run_cons_eq_some.mp hrun
      rw [hnext] at hrest
      refine ⟨he, ?_⟩
      rw [hnext]
      exact ih hrest hrun

/-- A step whose event meets the condition, before a run that meets it. -/
theorem along_cons {ok : S → E → Prop} {s next : S} {e : E} {rest : List E} (he : ok s e)
    (hnext : step s e = some next) (hrest : Along step ok next rest) :
    Along step ok s (e :: rest) := by
  refine ⟨he, ?_⟩
  rw [hnext]
  exact hrest

/-- A condition that holds along a run holds of its last event. -/
theorem along_last {ok : S → E → Prop} {s w : S} {front : List E} {e : E}
    (h : Along step ok s (front ++ [e])) (hrun : run step s front = some w) : ok w e := by
  induction front generalizing s with
  | nil =>
      obtain rfl := Option.some.inj hrun
      exact h.1
  | cons first rest ih =>
      obtain ⟨next, hnext, hrest⟩ := run_cons_eq_some.mp hrun
      have hlater := h.2
      rw [hnext] at hlater
      exact ih hlater hrest

theorem run_snoc {s s' w : S} {e : E} {events : List E} (h : run step s events = some w)
    (hstep : step w e = some s') : run step s (events ++ [e]) = some s' := by
  rw [run_append, h]
  simp [run, hstep]

/-- Events that all lower a measure can happen until none of them is left to. -/
theorem exists_stuck {counts : E → Prop} {measure : S → Nat}
    (hless : ∀ s e s', counts e → step s e = some s' → measure s' < measure s) (s : S) :
    ∃ events w, run step s events = some w ∧ ∀ e, counts e → step w e = none := by
  induction hn : measure s using Nat.strongRecOn generalizing s with
  | ind n ih =>
      by_cases hstuck : ∀ e, counts e → step s e = none
      · exact ⟨[], s, rfl, hstuck⟩
      · simp only [not_forall] at hstuck
        obtain ⟨e, he, hsome⟩ := hstuck
        obtain ⟨next, hnext⟩ := Option.ne_none_iff_exists'.mp hsome
        obtain ⟨events, w, hrun, hlast⟩ := ih _ (hn ▸ hless s e next he hnext) next rfl
        exact ⟨e :: events, w, run_cons_eq_some.mpr ⟨next, hnext, hrun⟩, hlast⟩

/-- A run has no more of them than the measure it starts with. -/
theorem counted_le {counts : E → Prop} [DecidablePred counts] {measure : S → Nat}
    (hless : ∀ s e s', counts e → step s e = some s' → measure s' < measure s)
    (hkept : ∀ s e s', ¬counts e → step s e = some s' → measure s' ≤ measure s)
    {s w : S} {events : List E} (h : run step s events = some w) :
    (events.filter counts).length + measure w ≤ measure s := by
  induction events generalizing s with
  | nil =>
      obtain rfl : s = w := Option.some.inj h
      simp
  | cons e rest ih =>
      obtain ⟨next, hnext, hrest⟩ := run_cons_eq_some.mp h
      have hlater := ih hrest
      by_cases he : counts e
      · have hstep := hless s e next he hnext
        rw [List.filter_cons_of_pos (by simpa using he), List.length_cons]
        omega
      · have hstep := hkept s e next he hnext
        rw [List.filter_cons_of_neg (by simpa using he)]
        omega

end Transition
