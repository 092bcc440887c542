import Mars.Core.MountRoots
import Mars.Rootfs.Pivot

/-! # Isolation of the mounts

Init's first call cuts its namespace off, because the root it starts from carries all
of its mounts. From then on no mount of the container shares a group with one that is
not, whatever init, the hooks, the container and everybody else do.
-/

namespace Mars.Pivot
open UnixPath MountSpace Transition

/-! ## What a step does -/

section cases
variable {w w' : World} {answer : Answer} {e : Event}

theorem World.apply_eq_some {ns : Nat} {op : Op} :
    w.apply ns op = some w' ↔ ∃ space, w.space.apply ns op = some space ∧
      w' = { w with
        space := space
        inner := extend w.space.next w.inner (w.inner ns)
        init := w.init.moved ns op } := by
  simp [World.apply, eq_comm]

/-- Nothing happens to the mounts. -/
structure Quiet (w w' : World) : Prop where
  space : w'.space = w.space
  inner : w'.inner = w.inner
  ns : w'.init.ns = w.init.ns
  done : w'.done = w.done
  since : w'.since = w.since

theorem call_cases {made : Dir} {call : MountTable.Call} (h : w.call made call = some w') :
    w.init.asks w.space made call = some none ∧ w' = w ∨
      ∃ op, w.init.asks w.space made call = some (some op) ∧
        w.apply w.init.ns op = some w' := by
  obtain ⟨asked, hasked, h⟩ := Option.bind_eq_some_iff.mp h
  cases asked with
  | none => exact .inl ⟨hasked, (Option.some.inj h).symm⟩
  | some op => exact .inr ⟨op, hasked, h⟩

theorem run_cases {act : Act} (h : act.run w answer = some w') :
    Quiet w w' ∨ ∃ op, w.apply w.init.ns op = some w' := by
  have hquiet : ∀ {made : Dir} {call : MountTable.Call}, w.call made call = some w' →
      Quiet w w' ∨ ∃ op, w.apply w.init.ns op = some w' := by
    intro made call hcall
    rcases call_cases hcall with ⟨-, rfl⟩ | ⟨op, -, happly⟩
    · exact .inl ⟨rfl, rfl, rfl, rfl, rfl⟩
    · exact .inr ⟨op, happly⟩
  cases act with
  | call c => exact hquiet h
  | bindConsole => exact hquiet h
  | either alternatives =>
      obtain ⟨calls, -, rfl⟩ := Option.map_eq_some_iff.mp h
      exact .inl ⟨rfl, rfl, rfl, rfl, rfl⟩
  | fail => cases h
  | enterNew =>
      obtain ⟨place, -, rfl⟩ := Option.map_eq_some_iff.mp h
      exact .inl ⟨rfl, rfl, rfl, rfl, rfl⟩
  | enterOld =>
      obtain ⟨place, -, rfl⟩ := Option.map_eq_some_iff.mp h
      exact .inl ⟨rfl, rfl, rfl, rfl, rfl⟩
  | pivotRoot => exact .inr ⟨_, h⟩
  | privateOld => exact .inr ⟨_, h⟩
  | detachOld => exact .inr ⟨_, h⟩
  | _ =>
      obtain rfl := Option.some.inj h
      exact .inl ⟨rfl, rfl, rfl, rfl, rfl⟩

theorem run_done {act : Act} (h : act.run w answer = some w') : w'.done = w.done := by
  rcases run_cases h with hquiet | ⟨op, happly⟩
  · exact hquiet.done
  · obtain ⟨space, -, rfl⟩ := World.apply_eq_some.mp happly
    rfl

theorem perform_eq_some : w.perform answer = some w' ↔ ∃ act rest next, w.ops = act :: rest ∧
    act.run { w with ops := rest } answer = some next ∧
    w' = { next with
      done := next.done ++ [act], since := next.since <|> some next.space.next } := by
  unfold World.perform
  cases hops : w.ops with
  | nil => simp
  | cons act rest => simp [eq_comm]

end cases

/-! ## The first call -/

theorem asks_makeRootPrivate (p : Process) (s : Space) (made : Dir) :
    p.asks s made makeRootPrivate = some (some (.change p.root .makePrivate true)) := rfl

/-- Init is alone in its namespace, and has made no call yet. -/
structure Alone (plan : Plan) (w : World) : Prop where
  ops : w.ops = program plan ∨ w.ops = []
  inner : ∀ i < w.space.next, w.inner i = decide (i = w.init.ns)
  rooted : Rooted (w.space.view w.init.ns) w.init.root.mnt
  root : w.init.root.mnt < w.space.next

structure Isolated (plan : Plan) (w : World) : Prop where
  ns : w.init.ns < w.space.next
  inside : w.inner w.init.ns = true
  named : w.space.Named
  alone : w.since = none → Alone plan w
  apart : w.since.isSome → ∃ own, Apart w.inner own w.space

section invariant
variable {plan : Plan} {w w' : World} {answer : Answer} {e : Event}

theorem moved_ns (p : Process) (ns : Nat) (op : Op) : (p.moved ns op).ns = p.ns := by
  cases op with
  | pivot root new =>
      show (if ns = p.ns then _ else p).ns = p.ns
      split <;> rfl
  | _ => rfl

theorem moved_other {p : Process} {ns : Nat} (h : ns ≠ p.ns) (op : Op) : p.moved ns op = p := by
  cases op with
  | pivot root new => exact if_neg h
  | _ => rfl

/-- What every call keeps. -/
theorem Isolated.kept (h : Isolated plan w) {ns : Nat} {op : Op} {space : Space}
    (hspace : w.space.apply ns op = some space) :
    (w.init.moved ns op).ns < space.next ∧
      extend w.space.next w.inner (w.inner ns) (w.init.moved ns op).ns = true ∧ space.Named := by
  rw [moved_ns, extend_old h.ns]
  exact ⟨Nat.lt_of_lt_of_le h.ns (h.named.next_le hspace), h.inside, h.named.apply hspace⟩

theorem Isolated.apply_after (h : Isolated plan w) (hsince : w.since.isSome) {ns : Nat} {op : Op}
    (happly : w.apply ns op = some w') : Isolated plan w' := by
  obtain ⟨space, hspace, rfl⟩ := World.apply_eq_some.mp happly
  obtain ⟨hns, hinside, hnamed⟩ := h.kept hspace
  refine ⟨hns, hinside, hnamed, ?_, ?_⟩
  · intro hnone
    rw [Option.isSome_iff_ne_none] at hsince
    exact absurd hnone hsince
  · intro _
    obtain ⟨own, hapart⟩ := h.apart hsince
    exact ⟨_, hapart.apply hspace⟩

theorem Alone.outside (h : Isolated plan w) (halone : Alone plan w) {ns : Nat} {op : Op}
    (houter : w.inner ns = false) {space : Space} (hspace : w.space.apply ns op = some space) :
    Alone plan { w with
      space := space
      inner := extend w.space.next w.inner (w.inner ns)
      init := w.init.moved ns op } := by
  have hne : ns ≠ w.init.ns := by
    rintro rfl
    exact Bool.false_ne_true (houter.symm.trans h.inside)
  have hle := h.named.next_le hspace
  rw [moved_other hne]
  refine ⟨halone.ops, ?_, ?_, Nat.lt_of_lt_of_le halone.root hle⟩
  · intro i _
    by_cases hi : i < w.space.next
    · exact (extend_old hi).trans (halone.inner i hi)
    · have hns : i ≠ w.init.ns := fun heq => hi (heq ▸ h.ns)
      exact (extend_new (Nat.le_of_not_lt hi)).trans (by simp [houter, hns])
  · rcases apply_elsewhere hspace (Nat.ne_of_lt h.ns) hne with ⟨f, new, hvaries⟩ | ⟨gone, hthins⟩
    · exact hvaries.rooted halone.root halone.rooted
    · exact hthins.rooted halone.rooted

theorem Isolated.outside (h : Isolated plan w) {ns : Nat} {op : Op} (houter : w.inner ns = false)
    (happly : w.apply ns op = some w') : Isolated plan w' := by
  cases hsince : w.since with
  | some since => exact h.apply_after (by simp [hsince]) happly
  | none =>
      obtain ⟨space, hspace, rfl⟩ := World.apply_eq_some.mp happly
      obtain ⟨hns, hinside, hnamed⟩ := h.kept hspace
      refine ⟨hns, hinside, hnamed, ?_, ?_⟩
      · exact fun _ => (h.alone hsince).outside h houter hspace
      · intro hsome
        simp [hsince] at hsome

/-- What init's first call does. -/
structure FirstCall (plan : Plan) (w w' : World) : Prop where
  space : w.space.apply w.init.ns (.change w.init.root .makePrivate true) = some w'.space
  inner : w'.inner = extend w.space.next w.inner (w.inner w.init.ns)
  init : w'.init = w.init
  ops : w'.ops = (program plan).tail
  done : w'.done = w.done ++ [.call makeRootPrivate]
  since : w'.since = some w'.space.next

theorem Alone.first_call (halone : Alone plan w) (hsince : w.since = none)
    (hperform : w.perform answer = some w') : FirstCall plan w w' := by
  obtain ⟨act, rest, next, hops, hrun, rfl⟩ := perform_eq_some.mp hperform
  obtain ⟨rfl, rfl⟩ : act = .call makeRootPrivate ∧ rest = (program plan).tail := by
    rcases halone.ops with hprogram | hnil
    · rw [hops] at hprogram
      exact List.cons.inj hprogram
    · rw [hops] at hnil
      cases hnil
  rcases call_cases hrun with ⟨hasked, -⟩ | ⟨op, hasked, happly⟩
  · rw [asks_makeRootPrivate] at hasked
    cases hasked
  · rw [asks_makeRootPrivate] at hasked
    obtain rfl := Option.some.inj (Option.some.inj hasked)
    obtain ⟨space, hspace, rfl⟩ := World.apply_eq_some.mp happly
    exact ⟨hspace, rfl, rfl, rfl, rfl, by simp [hsince]⟩

/-- The namespace is cut off by the first call. -/
theorem Isolated.first (h : Isolated plan w) (hsince : w.since = none)
    (hperform : w.perform answer = some w') : Isolated plan w' := by
  have halone := h.alone hsince
  obtain ⟨hspace, hinner, hinit, -, -, hsome⟩ := halone.first_call hsince hperform
  refine ⟨?_, ?_, h.named.apply hspace, (fun hnone => by simp [hsome] at hnone), ?_⟩
  · rw [hinit]
    exact Nat.lt_of_lt_of_le h.ns (h.named.next_le hspace)
  · rw [hinit, hinner, extend_old h.ns]
    exact h.inside
  · intro _
    rw [hinner, h.inside]
    exact halone.rooted.apart h.named h.ns halone.inner hspace

theorem Isolated.quiet (h : Isolated plan w) (hsince : w.since.isSome) (hquiet : Quiet w w') :
    Isolated plan w' := by
  obtain ⟨hspace, hinner, hns, -, hsame⟩ := hquiet
  refine ⟨?_, ?_, ?_, ?_, ?_⟩
  · rw [hspace, hns]
    exact h.ns
  · rw [hinner, hns]
    exact h.inside
  · rw [hspace]
    exact h.named
  · intro hnone
    rw [← hsame, hnone] at hsince
    cases hsince
  · intro _
    rw [hspace, hinner]
    exact h.apart hsince

theorem Isolated.perform (h : Isolated plan w) (hsince : w.since.isSome)
    (hperform : w.perform answer = some w') : Isolated plan w' := by
  obtain ⟨act, rest, next, -, hrun, rfl⟩ := perform_eq_some.mp hperform
  obtain ⟨since, hsome⟩ := Option.isSome_iff_exists.mp hsince
  have hpopped : Isolated plan { w with ops := rest } :=
    ⟨h.ns, h.inside, h.named, fun hnone => by simp [hsome] at hnone, h.apart⟩
  have hnext : Isolated plan next ∧ next.since = some since := by
    rcases run_cases hrun with hquiet | ⟨op, happly⟩
    · exact ⟨hpopped.quiet hsince hquiet, hquiet.since.trans hsome⟩
    · refine ⟨hpopped.apply_after hsince happly, ?_⟩
      obtain ⟨space, -, rfl⟩ := World.apply_eq_some.mp happly
      exact hsome
  obtain ⟨hnext, hkept⟩ := hnext
  exact ⟨hnext.ns, hnext.inside, hnext.named, fun hnone => by simp [hkept] at hnone,
    fun _ => hnext.apart (by simp [hkept])⟩

theorem Isolated.step (h : Isolated plan w) (hstep : w.step e = some w') : Isolated plan w' := by
  cases e with
  | init answer =>
      cases hsince : w.since with
      | none => exact h.first hsince hstep
      | some since => exact h.perform (by simp [hsince]) hstep
  | refused =>
      simp only [World.step] at hstep
      split at hstep
      · cases hstep
      · obtain rfl := Option.some.inj hstep
        refine ⟨h.ns, h.inside, h.named, ?_, h.apart⟩
        intro hnone
        have halone := h.alone hnone
        exact ⟨.inr rfl, halone.inner, halone.rooted, halone.root⟩
  | inside ns op =>
      simp only [World.step] at hstep
      split at hstep
      · next hguard => exact h.apply_after hguard.2 hstep
      · cases hstep
  | outside ns op =>
      simp only [World.step] at hstep
      split at hstep
      · cases hstep
      · next houter => exact h.outside (by simpa using houter) hstep

/-! ## Every run -/

/-- The runtime's root carries all mounts of its namespace. -/
structure Whole (s : Space) (runtime : Process) : Prop where
  named : s.Named
  root : runtime.root.mnt < s.next
  rooted : Rooted (s.view runtime.ns) runtime.root.mnt

theorem isolated_start {s : Space} {runtime : Process} (h : Whole s runtime) :
    Isolated plan (start plan s runtime) where
  ns := by
    show s.next < s.next + s.next + 1
    omega
  inside := decide_eq_true rfl
  named := by
    have hfork : s.apply runtime.ns (.unshare plan.userNamespace) =
        some (s.fork runtime.ns plan.userNamespace) := rfl
    exact h.named.apply hfork
  alone := by
    intro _
    refine ⟨.inl rfl, fun _ _ => rfl, h.rooted.fork h.named _, ?_⟩
    have hroot := h.root
    show s.next + runtime.root.mnt < s.next + s.next + 1
    omega
  apart := by
    intro hsome
    cases hsome

theorem isolated_run {s : Space} {runtime : Process} {events : List Event} (h : Whole s runtime)
    (hrun : run World.step (start plan s runtime) events = some w) : Isolated plan w :=
  run_invariant (fun _ _ _ hw hstep => hw.step hstep) (isolated_start h) hrun

def Event.isOutside : Event → Bool
  | .outside _ _ => true
  | _ => false

/-- The first call changes init's own namespace only. -/
theorem FirstCall.view (h : FirstCall plan w w') {ns : Nat} (hns : ns ≠ w.init.ns) :
    w'.space.view ns = w.space.view ns := by
  obtain ⟨m, hm, hspace⟩ := change_eq_some.mp h.space
  rw [← hspace]
  exact change_view_other (fun heq => hns (heq.symm.trans (mountPoint_mem hm).2.1)) _ _

theorem Isolated.view (h : Isolated plan w) (hsince : w.since.isSome) {caller ns : Nat} {op : Op}
    (happly : w.apply caller op = some w') (hother : w'.inner ns ≠ w.inner caller) :
    w'.space.view ns = w.space.view ns := by
  obtain ⟨space, hspace, rfl⟩ := World.apply_eq_some.mp happly
  obtain ⟨own, hapart⟩ := h.apart hsince
  exact hapart.view hspace hother

theorem Isolated.view_perform (h : Isolated plan w) (hperform : w.perform answer = some w')
    {ns : Nat} (hns : w'.inner ns = false) : w'.space.view ns = w.space.view ns := by
  cases hsince : w.since with
  | none =>
      have hfirst := (h.alone hsince).first_call hsince hperform
      refine hfirst.view ?_
      rintro rfl
      rw [hfirst.inner, extend_old h.ns, h.inside] at hns
      cases hns
  | some since =>
      obtain ⟨act, rest, next, -, hrun, rfl⟩ := perform_eq_some.mp hperform
      show next.space.view ns = w.space.view ns
      rcases run_cases hrun with hquiet | ⟨op, happly⟩
      · rw [hquiet.space]
      · have hpopped : Isolated plan { w with ops := rest } :=
          ⟨h.ns, h.inside, h.named, fun hnone => by simp [hsince] at hnone, h.apart⟩
        refine hpopped.view (by simp [hsince]) happly ?_
        show next.inner ns ≠ w.inner w.init.ns
        rw [h.inside, hns]
        exact Bool.false_ne_true

/-- In every interleaving, no call of init, the hooks or the container changes a mount
outside, and after init's first call no call outside changes a mount of the container. -/
theorem isolated {s : Space} {runtime : Process} {events : List Event} (h : Whole s runtime)
    (hrun : run World.step (start plan s runtime) events = some w)
    (hstep : w.step e = some w') (ns : Nat) :
    (e.isOutside = false → w'.inner ns = false → w'.space.view ns = w.space.view ns) ∧
      (e.isOutside = true → w.since.isSome → w'.inner ns = true →
        w'.space.view ns = w.space.view ns) := by
  have hw := isolated_run h hrun
  cases e with
  | init answer => exact ⟨fun _ hns => hw.view_perform hstep hns, fun hout => by cases hout⟩
  | refused =>
      simp only [World.step] at hstep
      split at hstep
      · cases hstep
      · obtain rfl := Option.some.inj hstep
        exact ⟨fun _ _ => rfl, fun hout => by cases hout⟩
  | inside caller op =>
      refine ⟨fun _ hns => ?_, fun hout => by cases hout⟩
      simp only [World.step] at hstep
      split at hstep
      · next hguard =>
          refine hw.view hguard.2 hstep ?_
          rw [hns, hguard.1]
          exact Bool.false_ne_true
      · cases hstep
  | outside caller op =>
      refine ⟨(fun hin => by cases hin), fun _ hsince hns => ?_⟩
      simp only [World.step] at hstep
      split at hstep
      · cases hstep
      · next houter =>
          refine hw.view hsince hstep ?_
          rw [hns]
          exact fun heq => houter heq.symm

end invariant

/-! ## A host whose root is shared -/

def sharedHost : Space where
  mounts := [{ fresh ⟨0, []⟩ with group := some 1 }]
  links := []
  next := 2

def runtime : Process where
  ns := 0
  root := ⟨0, ⟨0, []⟩⟩
  cwd := ⟨0, ⟨0, []⟩⟩
  base := []
  oldroot := none
  newroot := none

def bare : Plan where
  rootfs := "/r"
  overlay := none
  mounts := []
  devices := []
  rootfsPropagation := none
  console := false
  maskedPaths := []
  readonlyPaths := []
  readonlyRootfs := false
  userNamespace := false
  host :=
    { unifiedCgroup := false
      leads := fun k path => k.locate path
      isFile := fun _ => false
      pathExists := fun _ => false
      linkExists := fun _ => false
      fails := fun _ => false
      refuses := fun _ => false }

def answered : Event := .init { made := ⟨1, []⟩, choice := 0, pty := "", lost := [] }

theorem whole_sharedHost : Whole sharedHost runtime where
  named := by
    constructor
    · intro m hm
      obtain rfl := List.mem_singleton.mp hm
      exact ⟨by decide, by simp [fresh], by decide, rfl, by simp [sharedHost], by simp [fresh]⟩
    · simp [sharedHost]
  root := by decide
  rooted := ⟨by decide, by decide⟩

/-- What the host mounts afterwards does not reach the container. -/
theorem isolated_sharedHost :
    ∃ w w', run World.step (start bare sharedHost runtime) [answered] = some w ∧
      w.step (.outside 0 (.create runtime.root ⟨7, []⟩)) = some w' ∧
      w'.space.view 2 = w.space.view 2 := by
  let e : Event := .outside 0 (.create runtime.root ⟨7, []⟩)
  let w := (run World.step (start bare sharedHost runtime) [answered]).get rfl
  let w' := (w.step e).get rfl
  have hw : run World.step (start bare sharedHost runtime) [answered] = some w := rfl
  have hw' : w.step e = some w' := rfl
  exact ⟨w, w', hw, hw', (isolated whole_sharedHost hw hw' 2).2 rfl rfl rfl⟩

end Mars.Pivot
