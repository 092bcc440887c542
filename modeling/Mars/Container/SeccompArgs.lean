import Mars.Container.Seccomp

/-! # Argument conditions through the translation

Every operator keeps its meaning but the masked one: the library is handed the
value for the datum and the second value for the mask, the spec has them the
other way round.
-/

namespace Mars.Seccomp

/-- A masked condition with its two values in each other's place. -/
def exchange (arg : LinuxSeccompArg) : LinuxSeccompArg :=
  if arg.op = .maskedEq then
    { arg with value := arg.valueTwo.getD 0, valueTwo := some arg.value }
  else arg

/-- All conditions of a rule hold. -/
def Matches (argv : Arguments) (args : List LinuxSeccompArg) : Prop :=
  ∀ arg ∈ args, arg.holds argv = true

/-- Either the two values of each masked condition are one, or no arguments ever
match the rule, read either way. -/
def Exchangeable (args : List LinuxSeccompArg) : Prop :=
  (∀ arg ∈ args, arg.op = .maskedEq → arg.value = arg.valueTwo.getD 0) ∨
    ∀ argv, ¬ Matches argv args ∧ ¬ Matches argv (args.map exchange)

/-! ## One condition -/

section condition
variable {argv : Arguments} {arg : LinuxSeccompArg} {c : ScmpArgCompare}

theorem comparator_ok (h : comparator arg = .ok c) :
    c = { arg := arg.index, op := compareOp arg, datum := arg.value } := by
  unfold comparator at h
  split at h
  next => cases h
  next =>
    split at h
    next => cases h
    next => exact (Except.ok.inj h).symm

/-- The comparator tests the condition with its two values exchanged. -/
theorem comparator_holds (h : comparator arg = .ok c) :
    c.holds argv = (exchange arg).holds argv := by
  rw [comparator_ok h]
  cases hop : arg.op <;> simp [ScmpArgCompare.holds, LinuxSeccompArg.holds, compareOp, exchange, hop]

theorem exchange_eq (h : arg.op = .maskedEq → arg.value = arg.valueTwo.getD 0) :
    (exchange arg).holds argv = arg.holds argv := by
  by_cases hop : arg.op = .maskedEq
  · simp only [exchange, hop, LinuxSeccompArg.holds, ↓reduceIte, Option.getD_some]
    rw [← h hop]
  · simp [exchange, hop]

/-- A value that passes the test both ways has the mask for its datum. -/
theorem values_eq_of_both (hop : arg.op = .maskedEq) (h : arg.holds argv = true)
    (hexchanged : (exchange arg).holds argv = true) : arg.value = arg.valueTwo.getD 0 := by
  simp only [LinuxSeccompArg.holds, hop, beq_iff_eq] at h
  simp only [LinuxSeccompArg.holds, exchange, hop, ↓reduceIte, Option.getD_some,
    beq_iff_eq] at hexchanged
  calc arg.value = argument argv arg.index &&& arg.valueTwo.getD 0 := hexchanged.symm
    _ = argument argv arg.index &&& (argument argv arg.index &&& arg.value) := by rw [h]
    _ = argument argv arg.index &&& arg.value := by
        rw [← BitVec.and_assoc, BitVec.and_self]
    _ = arg.valueTwo.getD 0 := h

end condition

/-! ## One rule -/

section rule
variable {argv : Arguments} {args : List LinuxSeccompArg} {cs : List ScmpArgCompare}

theorem comparators_hold (h : args.mapM comparator = .ok cs) :
    cs.all (·.holds argv) = true ↔ Matches argv (args.map exchange) := by
  induction args generalizing cs with
  | nil =>
      obtain rfl : [] = cs := Except.ok.inj h
      simp [Matches]
  | cons arg args ih =>
      obtain ⟨c, rest, hc, hrest, rfl⟩ := mapM_cons_eq_ok.mp h
      rw [List.all_cons, Bool.and_eq_true, ih hrest, comparator_holds hc]
      simp [Matches]

theorem matches_exchange (h : ∀ arg ∈ args, arg.op = .maskedEq → arg.value = arg.valueTwo.getD 0) :
    Matches argv (args.map exchange) ↔ Matches argv args := by
  simp only [Matches, List.mem_map, forall_exists_index, and_imp, forall_apply_eq_imp_iff₂]
  constructor
  · exact fun hall arg hmem => exchange_eq (h arg hmem) ▸ hall arg hmem
  · exact fun hall arg hmem => (exchange_eq (h arg hmem)).trans (hall arg hmem)

/-- The rule means the same read either way exactly when it is exchangeable. -/
theorem exchangeable_iff :
    (∀ argv, Matches argv (args.map exchange) ↔ Matches argv args) ↔ Exchangeable args := by
  constructor
  · intro hsame
    by_cases hvalues : ∀ arg ∈ args, arg.op = .maskedEq → arg.value = arg.valueTwo.getD 0
    · exact Or.inl hvalues
    · right
      simp only [Classical.not_forall] at hvalues
      obtain ⟨arg, hmem, hop, hne⟩ := hvalues
      -- what passes one way does not pass the other, so nothing passes at all
      have hnone : ∀ argv, ¬ Matches argv args := by
        intro argv hmatch
        have hexchanged := (hsame argv).mpr hmatch _ (List.mem_map_of_mem hmem)
        exact hne (values_eq_of_both hop (hmatch arg hmem) hexchanged)
      exact fun argv => ⟨hnone argv, fun hmatch => hnone argv ((hsame argv).mp hmatch)⟩
  · intro hrule argv
    rcases hrule with hvalues | hnever
    · exact matches_exchange hvalues
    · exact iff_of_false (hnever argv).2 (hnever argv).1

end rule

/-! ## The document -/

section document
variable {Filter : Type} (lib : Libseccomp Filter)

/-- Each rule reaches the library, under each of its names that resolves, with
comparators that mean what its conditions mean. -/
def Preserved (spec : LinuxSeccomp) (built : Build Filter) : Prop :=
  ∀ rule ∈ spec.syscalls.getD [], ∀ name ∈ rule.names, ∀ syscall, lib.fromName name = some syscall →
    ∃ attempt ∈ built.attempts, attempt.rule = rule ∧ attempt.name = name ∧
      attempt.syscall = syscall ∧
        ∀ argv, attempt.comparators.all (·.holds argv) = true ↔ Matches argv (rule.args.getD [])

variable {lib} {default verdict : ScmpAction} {rule : LinuxSyscall} {name : String} {syscall : Nat}
  {b b' : Build Filter} {attempt : Attempt}

theorem addRule_ok (h : addRule lib default b attempt = .ok b') :
    b'.attempts = b.attempts ++ [attempt] := by
  simp only [addRule] at h
  split at h
  next => cases h; rfl
  next =>
    split at h
    next => cases h; rfl
    next => cases h

/-- One name adds at most one attempt, with the rule's own conditions translated. -/
theorem addName_ok (h : addName lib default rule verdict b name = .ok b') :
    b'.attempts = b.attempts ∧ lib.fromName name = none ∨
      ∃ attempt, b'.attempts = b.attempts ++ [attempt] ∧ attempt.rule = rule ∧
        attempt.name = name ∧ lib.fromName name = some attempt.syscall ∧
          (rule.args.getD []).mapM comparator = .ok attempt.comparators := by
  unfold addName at h
  split at h
  next hname =>
    cases h
    exact Or.inl ⟨rfl, hname⟩
  next syscall hname =>
    obtain ⟨cs, hcs, hadd⟩ := bind_eq_ok.mp h
    exact Or.inr ⟨_, addRule_ok hadd, rfl, rfl, hname, hcs⟩

/-- Attempts are never taken back. -/
theorem addName_mem (hmem : attempt ∈ b.attempts)
    (h : addName lib default rule verdict b name = .ok b') : attempt ∈ b'.attempts := by
  rcases addName_ok h with ⟨hsame, -⟩ | ⟨other, hnew, -⟩
  · exact hsame ▸ hmem
  · rw [hnew]
    exact List.mem_append_left _ hmem

theorem addSyscall_mem (hmem : attempt ∈ b.attempts)
    (h : addSyscall lib default b rule = .ok b') : attempt ∈ b'.attempts := by
  obtain ⟨verdict, -, hnames⟩ := bind_eq_ok.mp h
  exact foldlM_preserves (P := fun b => attempt ∈ b.attempts)
    (fun _ _ _ hold hstep => addName_mem hold hstep) hmem hnames

/-- The attempt that a rule makes under one of its names. -/
def Tried (lib : Libseccomp Filter) (rule : LinuxSyscall) (name : String) (b : Build Filter) :
    Prop :=
  ∀ syscall, lib.fromName name = some syscall → ∃ attempt ∈ b.attempts,
    attempt.rule = rule ∧ attempt.name = name ∧ attempt.syscall = syscall

theorem addName_tried (h : addName lib default rule verdict b name = .ok b') :
    Tried lib rule name b' := by
  intro syscall hname
  rcases addName_ok h with ⟨-, hnone⟩ | ⟨attempt, hnew, hrule, hname', hsyscall, -⟩
  · rw [hnone] at hname
    cases hname
  · rw [hname] at hsyscall
    exact ⟨attempt, by simp [hnew], hrule, hname', (Option.some.inj hsyscall).symm⟩

theorem Tried.mono (h : Tried lib rule name b)
    (hmono : ∀ attempt ∈ b.attempts, attempt ∈ b'.attempts) : Tried lib rule name b' := by
  intro syscall hname
  obtain ⟨attempt, hmem, hattempt⟩ := h syscall hname
  exact ⟨attempt, hmono attempt hmem, hattempt⟩

theorem addSyscall_tried (h : addSyscall lib default b rule = .ok b') (hname : name ∈ rule.names) :
    Tried lib rule name b' := by
  obtain ⟨verdict, -, hnames⟩ := bind_eq_ok.mp h
  exact foldlM_mem (P := Tried lib rule name) (fun _ _ hstep => addName_tried hstep)
    (fun _ _ _ hold hstep => hold.mono fun _ hmem => addName_mem hmem hstep) hname hnames

/-- The comparators of an attempt are its rule's conditions, translated. -/
def Translated (b : Build Filter) : Prop :=
  ∀ attempt ∈ b.attempts, (attempt.rule.args.getD []).mapM comparator = .ok attempt.comparators

theorem addName_translated (hb : Translated b)
    (h : addName lib default rule verdict b name = .ok b') : Translated b' := by
  intro attempt hmem
  rcases addName_ok h with ⟨hsame, -⟩ | ⟨other, hnew, hrule, -, -, hcs⟩
  · exact hb attempt (hsame ▸ hmem)
  · rw [hnew] at hmem
    rcases List.mem_append.mp hmem with hold | hother
    · exact hb attempt hold
    · obtain rfl := List.mem_singleton.mp hother
      rw [hrule]
      exact hcs

theorem addSyscall_translated (hb : Translated b)
    (h : addSyscall lib default b rule = .ok b') : Translated b' := by
  obtain ⟨verdict, -, hnames⟩ := bind_eq_ok.mp h
  exact foldlM_preserves (P := Translated) (fun _ _ _ hold hstep => addName_translated hold hstep)
    hb hnames

/-- Building tries every rule, with its conditions translated. -/
theorem build_ok {spec : LinuxSeccomp} {built : Build Filter} (h : build lib spec = .ok built) :
    Translated built ∧ ∀ rule ∈ spec.syscalls.getD [], ∀ name ∈ rule.names,
      Tried lib rule name built := by
  simp only [build, bind_eq_ok] at h
  obtain ⟨default, -, _, -, _, -, _, -, filter, -, hrules⟩ := h
  constructor
  · exact foldlM_preserves (P := Translated)
      (fun _ _ _ hold hstep => addSyscall_translated hold hstep) (by nofun) hrules
  · intro rule hrule name hname
    exact foldlM_mem (P := Tried lib rule name)
      (fun _ _ hstep => addSyscall_tried hstep hname)
      (fun _ _ _ hold hstep => hold.mono fun _ hmem => addSyscall_mem hmem hstep) hrule hrules

/-- A document keeps its meaning exactly when its rules mean the same with the
two values of their masked conditions exchanged. -/
theorem build_preserves_iff (spec : LinuxSeccomp) (built : Build Filter)
    (h : build lib spec = .ok built) :
    Preserved lib spec built ↔ ∀ rule ∈ spec.syscalls.getD [],
      (∃ name ∈ rule.names, (lib.fromName name).isSome = true) →
        Exchangeable (rule.args.getD []) := by
  obtain ⟨htranslated, htried⟩ := build_ok h
  constructor
  · rintro hpreserved rule hrule ⟨name, hname, hsome⟩
    obtain ⟨syscall, hsyscall⟩ := Option.isSome_iff_exists.mp hsome
    obtain ⟨attempt, hmem, rfl, -, -, hmeaning⟩ := hpreserved rule hrule name hname syscall hsyscall
    apply exchangeable_iff.mp
    intro argv
    rw [← hmeaning argv, comparators_hold (htranslated attempt hmem)]
  · intro hrules rule hrule name hname syscall hsyscall
    obtain ⟨attempt, hmem, hattempt, hname', hsyscall'⟩ :=
      htried rule hrule name hname syscall hsyscall
    subst hattempt
    refine ⟨attempt, hmem, rfl, hname', hsyscall', fun argv => ?_⟩
    have hrule := hrules attempt.rule hrule ⟨name, hname, by rw [hsyscall]; rfl⟩
    rw [comparators_hold (htranslated attempt hmem)]
    exact exchangeable_iff.mpr hrule argv

end document

/-! ## The rule for `clone` -/

/-- A library that takes everything and knows two names. -/
def demoLib : Libseccomp Unit where
  new := fun _ => .ok ()
  addArch := fun _ _ => .ok ()
  setFilterAttr := fun _ _ _ => .ok ()
  fromName := fun name =>
    if name = "clone" then some 56 else if name = "personality" then some 135 else none
  addRule := fun _ _ _ => .ok ()
  addRuleConditional := fun _ _ _ _ => .ok ()

def demoSpec (name : String) (args : List LinuxSeccompArg) : LinuxSeccomp where
  defaultAction := .errno
  defaultErrnoRet := none
  architectures := some [.x86_64]
  flags := none
  syscalls := some [{ names := [name], action := .allow, errnoRet := none, args := some args }]

def demoBuilt (name : String) (syscall : Nat) (args : List LinuxSeccompArg)
    (cs : List ScmpArgCompare) : Build Unit where
  filter := ()
  rules := 1
  attempts := [{ rule := { names := [name], action := .allow, errnoRet := none, args := some args }
                 name := name
                 syscall := syscall
                 verdict := .allow
                 comparators := cs }]

theorem build_preserves_personality :
    ∃ built, build demoLib (demoSpec "personality" [⟨0, 8, none, .eq⟩]) = .ok built ∧
      Preserved demoLib (demoSpec "personality" [⟨0, 8, none, .eq⟩]) built :=
  ⟨demoBuilt "personality" 135 [⟨0, 8, none, .eq⟩] [⟨0, .equal, 8⟩], rfl,
    (build_preserves_iff _ _ rfl).mpr (by
      intro rule hrule _
      obtain rfl := List.mem_singleton.mp hrule
      left
      intro arg harg hop
      obtain rfl := List.mem_singleton.mp harg
      cases hop)⟩

/-- `clone` may be called when none of the namespace flags is set. -/
def cloneArg : LinuxSeccompArg := ⟨0, 0x7E020000, none, .maskedEq⟩

/-- The rule allows a `clone` without namespace flags, the filter does not. -/
theorem clone_is_denied :
    ∃ built, build demoLib (demoSpec "clone" [cloneArg]) = .ok built ∧
      ¬ Preserved demoLib (demoSpec "clone" [cloneArg]) built ∧
      Matches (fun _ => 0) [cloneArg] ∧
      ∀ attempt ∈ built.attempts, attempt.comparators.all (·.holds fun _ => 0) = false := by
  refine ⟨demoBuilt "clone" 56 [cloneArg] [⟨0, .maskedEqual 0, 0x7E020000⟩], rfl, ?_, ?_, ?_⟩
  · intro hpreserved
    obtain ⟨attempt, hmem, -, -, -, hmeaning⟩ :=
      hpreserved _ List.mem_cons_self "clone" List.mem_cons_self 56 (by decide)
    obtain rfl := List.mem_singleton.mp hmem
    have hallowed := (hmeaning fun _ => 0).mpr (by
      intro arg harg
      obtain rfl := List.mem_singleton.mp harg
      decide)
    exact absurd hallowed (by decide)
  · intro arg harg
    obtain rfl := List.mem_singleton.mp harg
    decide
  · intro attempt hmem
    obtain rfl := List.mem_singleton.mp hmem
    decide

end Mars.Seccomp
