import Mars.Container.SeccompArgs
import Mars.Core.RuleSet

/-! # The rules the filter does not take

A name that the library does not know is passed over, whatever its rule says. A
rule that the library refuses because it restates the default action is left
out. Both leave calls to the default that the document may have a rule for.
-/

namespace Mars.Seccomp
open RuleSet

/-! ## What the library documents -/

structure Rule where
  action : ScmpAction
  syscall : Nat
  comparators : List ScmpArgCompare
  deriving DecidableEq

def Attempt.toRule (attempt : Attempt) : Rule where
  action := attempt.verdict
  syscall := attempt.syscall
  comparators := attempt.comparators

/-- A filter has a default action and the rules it took. It refuses a rule for
EACCES exactly where that restates the default action. The mask of a comparator
goes over its datum too. -/
structure Documented {Filter : Type} (lib : Libseccomp Filter) where
  default : Filter → ScmpAction
  rules : Filter → List Rule
  tests : Arguments → ScmpArgCompare → Bool
  tests_plain : ∀ argv c, (∀ mask, c.op ≠ .maskedEqual mask) → tests argv c = c.holds argv
  tests_masked : ∀ argv arg mask datum, tests argv ⟨arg, .maskedEqual mask, datum⟩ =
    (argument argv arg &&& mask == datum &&& mask)
  new : ∀ {a f}, lib.new a = .ok f → default f = a ∧ rules f = []
  addArch : ∀ {f arch f'}, lib.addArch f arch = .ok f' →
    default f' = default f ∧ rules f' = rules f
  setFilterAttr : ∀ {f attr n f'}, lib.setFilterAttr f attr n = .ok f' →
    default f' = default f ∧ rules f' = rules f
  addRule : ∀ {f a n f'}, lib.addRule f a n = .ok f' →
    default f' = default f ∧ rules f' = rules f ++ [⟨a, n, []⟩]
  addRuleConditional : ∀ {f a n cs f'}, lib.addRuleConditional f a n cs = .ok f' →
    default f' = default f ∧ rules f' = rules f ++ [⟨a, n, cs⟩]
  refused : ∀ {f a n}, (∃ e, lib.addRule f a n = .error e ∧ e.eacces = true) ↔ a = default f
  refusedConditional : ∀ {f a n cs},
    (∃ e, lib.addRuleConditional f a n cs = .error e ∧ e.eacces = true) ↔ a = default f

section document
variable {Filter : Type} {lib : Libseccomp Filter} (doc : Documented lib)
  (kernel : String → Option Nat) (spec : LinuxSeccomp)

def Rule.Applies (rule : Rule) (syscall : Nat) (argv : Arguments) : Prop :=
  rule.syscall = syscall ∧ rule.comparators.all (doc.tests argv) = true

/-- The rules of a filter are in force together. -/
def Taken (f : Filter) (syscall : Nat) (argv : Arguments) (v : ScmpAction) : Prop :=
  ∃ rule ∈ doc.rules f, Rule.Applies doc rule syscall argv ∧ rule.action = v

def Answers (verdict : Filter → Nat → Arguments → ScmpAction) : Prop :=
  ∀ f syscall argv,
    Outcome (Taken doc f syscall argv) (doc.default f) (verdict f syscall argv)

/-! ## What the document prescribes -/

/-- `kernel` has the system calls of the running kernel that the library lacks. -/
def number (lib : Libseccomp Filter) (name : String) : Option Nat :=
  (lib.fromName name).or (kernel name)

/-- The actions of the rules for a call, with the names and the conditions read
as the document has them. -/
def Meant (lib : Libseccomp Filter) (syscall : Nat) (argv : Arguments) (v : ScmpAction) : Prop :=
  ∃ rule ∈ spec.syscalls.getD [], (∃ name ∈ rule.names, number kernel lib name = some syscall) ∧
    Matches argv (rule.args.getD []) ∧ action rule.action rule.errnoRet = .ok v

/-- What is left of a condition in the library's hands: the second value of a masked
one is the mask, for the argument and for the first value. -/
def LinuxSeccompArg.told (argv : Arguments) (arg : LinuxSeccompArg) : Bool :=
  let value := argument argv arg.index
  let mask := arg.valueTwo.getD 0
  match arg.op with
  | .maskedEq => value &&& mask == arg.value &&& mask
  | _ => arg.holds argv

/-- The actions other than the default one of the rules under names that the
library knows, where what it is told of their conditions holds. -/
def Told (lib : Libseccomp Filter) (syscall : Nat) (argv : Arguments) (v : ScmpAction) : Prop :=
  ∃ rule ∈ spec.syscalls.getD [], (∃ name ∈ rule.names, lib.fromName name = some syscall) ∧
    (∀ arg ∈ rule.args.getD [], arg.told argv = true) ∧ action rule.action rule.errnoRet = .ok v ∧
      action spec.defaultAction spec.defaultErrnoRet ≠ .ok v

def Prescribed (lib : Libseccomp Filter) (syscall : Nat) (argv : Arguments) (v : ScmpAction) :
    Prop :=
  ∃ default, action spec.defaultAction spec.defaultErrnoRet = .ok default ∧
    Outcome (Meant kernel spec lib syscall argv) default v

/-- No attempt under this name of the rule is in the filter. -/
def Skipped (built : Build Filter) (rule : LinuxSyscall) (name : String) : Prop :=
  ∀ attempt ∈ built.attempts, attempt.rule = rule → attempt.name = name →
    attempt.toRule ∉ doc.rules built.filter

/-- Where a rule was skipped, its calls get a verdict the document prescribes. -/
def NeverWeakened (verdict : Filter → Nat → Arguments → ScmpAction) (built : Build Filter) : Prop :=
  ∀ rule ∈ spec.syscalls.getD [], ∀ name ∈ rule.names, Skipped doc built rule name →
    ∀ syscall, number kernel lib name = some syscall → ∀ argv,
      Prescribed kernel spec lib syscall argv (verdict built.filter syscall argv)

/-- For one call: what the library is told is meant, and where it is told nothing
a rule that is meant restates the default action. -/
structure Covered (lib : Libseccomp Filter) (syscall : Nat) (argv : Arguments) : Prop where
  told : ∀ v, Told spec lib syscall argv v → Meant kernel spec lib syscall argv v
  silent : (¬∃ v, Told spec lib syscall argv v) → (∃ v, Meant kernel spec lib syscall argv v) →
    ∃ default, action spec.defaultAction spec.defaultErrnoRet = .ok default ∧
      Meant kernel spec lib syscall argv default

end document

/-! ## What the library is told of a condition -/

section conditions
variable {Filter : Type} {lib : Libseccomp Filter} {argv : Arguments} {args : List LinuxSeccompArg}
  {cs : List ScmpArgCompare}

theorem comparator_tests (doc : Documented lib) {arg : LinuxSeccompArg} {c : ScmpArgCompare}
    (h : comparator arg = .ok c) : doc.tests argv c = arg.told argv := by
  rw [comparator_ok h]
  cases hop : arg.op with
  | maskedEq => simp only [compareOp, hop, LinuxSeccompArg.told, doc.tests_masked]
  | _ =>
      rw [doc.tests_plain _ _ (by simp [compareOp, hop])]
      simp [ScmpArgCompare.holds, LinuxSeccompArg.told, LinuxSeccompArg.holds, compareOp, hop]

theorem comparators_test (doc : Documented lib) (h : args.mapM comparator = .ok cs) :
    cs.all (doc.tests argv) = true ↔ ∀ arg ∈ args, arg.told argv = true := by
  induction args generalizing cs with
  | nil =>
      obtain rfl : [] = cs := Except.ok.inj h
      simp
  | cons arg args ih =>
      obtain ⟨c, rest, hc, hrest, rfl⟩ := mapM_cons_eq_ok.mp h
      rw [List.all_cons, Bool.and_eq_true, ih hrest, comparator_tests doc hc]
      simp

/-- Where the two values are one the library is told what is meant. -/
theorem told_eq {arg : LinuxSeccompArg} (h : arg.op = .maskedEq → arg.value = arg.valueTwo.getD 0) :
    arg.told argv = arg.holds argv := by
  unfold LinuxSeccompArg.told
  split
  next hop => simp only [LinuxSeccompArg.holds, hop, ← h hop, BitVec.and_self]
  next => rfl

end conditions

/-! ## What the filter takes -/

section building
variable {Filter : Type} {lib : Libseccomp Filter} {doc : Documented lib}
  {spec : LinuxSeccomp} {default verdict : ScmpAction} {rule : LinuxSyscall} {name : String}
  {b b' built : Build Filter} {attempt : Attempt}

def handed (lib : Libseccomp Filter) (f : Filter) (attempt : Attempt) : Except LibError Filter :=
  if attempt.comparators = [] then lib.addRule f attempt.verdict attempt.syscall
  else lib.addRuleConditional f attempt.verdict attempt.syscall attempt.comparators

theorem handed_ok (doc : Documented lib) {f f' : Filter} (h : handed lib f attempt = .ok f') :
    doc.default f' = doc.default f ∧ doc.rules f' = doc.rules f ++ [attempt.toRule] := by
  unfold handed at h
  split at h
  next hnil =>
    obtain ⟨hdefault, hrules⟩ := doc.addRule h
    exact ⟨hdefault, by rw [hrules, Attempt.toRule, hnil]⟩
  next => exact doc.addRuleConditional h

theorem handed_refused (doc : Documented lib) {f : Filter} :
    (∃ e, handed lib f attempt = .error e ∧ e.eacces = true) ↔ attempt.verdict = doc.default f := by
  unfold handed
  split
  next => exact doc.refused
  next => exact doc.refusedConditional

/-- The rules in the filter, and where each attempt comes from. -/
structure Held (doc : Documented lib) (spec : LinuxSeccomp) (d : ScmpAction)
    (b : Build Filter) : Prop where
  default : doc.default b.filter = d
  rules : doc.rules b.filter = (b.attempts.filter (·.verdict ≠ d)).map Attempt.toRule
  rule : ∀ attempt ∈ b.attempts, attempt.rule ∈ spec.syscalls.getD []
  name : ∀ attempt ∈ b.attempts, attempt.name ∈ attempt.rule.names ∧
    lib.fromName attempt.name = some attempt.syscall
  verdict : ∀ attempt ∈ b.attempts,
    action attempt.rule.action attempt.rule.errnoRet = .ok attempt.verdict
  comparators : ∀ attempt ∈ b.attempts,
    (attempt.rule.args.getD []).mapM comparator = .ok attempt.comparators

/-- An attempt is kept exactly where it says something else than the default. -/
theorem addRule_rules (hdefault : doc.default b.filter = default)
    (h : addRule lib default b attempt = .ok b') :
    doc.default b'.filter = default ∧ doc.rules b'.filter =
      doc.rules b.filter ++ if attempt.verdict = default then [] else [attempt.toRule] := by
  unfold addRule at h
  dsimp only at h
  rw [← handed] at h
  split at h
  next filter hhanded =>
    cases h
    obtain ⟨hsame, hrules⟩ := handed_ok doc hhanded
    have hother : attempt.verdict ≠ default := by
      intro hverdict
      obtain ⟨error, herror, -⟩ :=
        (handed_refused doc (f := b.filter)).mpr (hverdict.trans hdefault.symm)
      rw [hhanded] at herror
      cases herror
    rw [if_neg hother]
    exact ⟨hsame.trans hdefault, hrules⟩
  next error hhanded =>
    split at h
    next hrestated =>
      cases h
      rw [if_pos hrestated.1, List.append_nil]
      exact ⟨hdefault, rfl⟩
    next => cases h

theorem addRule_held (hb : Held doc spec default b) (hrule : attempt.rule ∈ spec.syscalls.getD [])
    (hname : attempt.name ∈ attempt.rule.names ∧ lib.fromName attempt.name = some attempt.syscall)
    (hverdict : action attempt.rule.action attempt.rule.errnoRet = .ok attempt.verdict)
    (hcs : (attempt.rule.args.getD []).mapM comparator = .ok attempt.comparators)
    (h : addRule lib default b attempt = .ok b') : Held doc spec default b' := by
  obtain ⟨hdefault, hrules⟩ := addRule_rules hb.default h
  have hattempts : b'.attempts = b.attempts ++ [attempt] := addRule_ok h
  have hall : ∀ {P : Attempt → Prop}, (∀ a ∈ b.attempts, P a) → P attempt →
      ∀ a ∈ b'.attempts, P a := by
    intro P hold hnew a ha
    rw [hattempts, List.mem_append, List.mem_singleton] at ha
    rcases ha with hmem | rfl
    · exact hold a hmem
    · exact hnew
  refine ⟨hdefault, ?_, hall hb.rule hrule, hall hb.name hname, hall hb.verdict hverdict,
    hall hb.comparators hcs⟩
  rw [hrules, hb.rules, hattempts, List.filter_append, List.map_append]
  by_cases hsame : attempt.verdict = default
  · simp [hsame]
  · simp [hsame]

theorem addName_held (hrule : rule ∈ spec.syscalls.getD [])
    (hverdict : action rule.action rule.errnoRet = .ok verdict) (hname : name ∈ rule.names)
    (hb : Held doc spec default b) (h : addName lib default rule verdict b name = .ok b') :
    Held doc spec default b' := by
  unfold addName at h
  split at h
  next => exact Except.ok.inj h ▸ hb
  next syscall hsyscall =>
    obtain ⟨cs, hcs, hadd⟩ := bind_eq_ok.mp h
    exact addRule_held hb hrule ⟨hname, hsyscall⟩ hverdict hcs hadd

theorem addSyscall_held (hrule : rule ∈ spec.syscalls.getD []) (hb : Held doc spec default b)
    (h : addSyscall lib default b rule = .ok b') : Held doc spec default b' := by
  obtain ⟨verdict, hverdict, hnames⟩ := bind_eq_ok.mp h
  exact foldlM_preserves_mem (fun name hname b b' => addName_held hrule hverdict hname) hb hnames

theorem invalid_eq_ok {α : Type} {doing : String} {result : Except LibError α} {a : α} :
    invalid doing result = .ok a ↔ result = .ok a := by
  cases result with
  | error error => exact ⟨nofun, nofun⟩
  | ok value =>
      constructor
      · rintro ⟨⟩
        rfl
      · rintro ⟨⟩
        rfl

/-- A filter without rules, before the first of them. -/
theorem build_start (doc : Documented lib) (h : build lib spec = .ok built) :
    ∃ default filter, action spec.defaultAction spec.defaultErrnoRet = .ok default ∧
      doc.default filter = default ∧ doc.rules filter = [] ∧
        (spec.syscalls.getD []).foldlM (addSyscall lib default) ⟨filter, 0, []⟩ = .ok built := by
  simp only [build, bind_eq_ok, invalid_eq_ok] at h
  obtain ⟨default, hdefault, f, hnew, f', harchs, f'', hattr, filter, hflags, hrules⟩ := h
  let Empty : Filter → Prop := fun f => doc.default f = default ∧ doc.rules f = []
  have hkept : ∀ {f f' : Filter}, Empty f →
      doc.default f' = doc.default f ∧ doc.rules f' = doc.rules f → Empty f' := by
    rintro f f' ⟨hd, hr⟩ ⟨hd', hr'⟩
    exact ⟨hd'.trans hd, hr'.trans hr⟩
  have hstart : Empty f := doc.new hnew
  have harch : Empty f' := foldlM_preserves
    (fun f arch f' hf hstep => by
      obtain ⟨mapped, -, hadd⟩ := bind_eq_ok.mp hstep
      exact hkept hf (doc.addArch (invalid_eq_ok.mp hadd))) hstart harchs
  have hcleared : Empty f'' := by
    cases hset : lib.setFilterAttr f' .ctlNnp 0 with
    | error e => rw [hset] at hattr; cases hattr
    | ok g =>
        rw [hset] at hattr
        obtain rfl : g = f'' := Except.ok.inj hattr
        exact hkept harch (doc.setFilterAttr hset)
  have hflagged : Empty filter := foldlM_preserves
    (fun f flag f' hf hstep => hkept hf (doc.setFilterAttr (invalid_eq_ok.mp hstep))) hcleared hflags
  exact ⟨default, filter, hdefault, hflagged.1, hflagged.2, hrules⟩

theorem build_held (doc : Documented lib) (h : build lib spec = .ok built) :
    ∃ default, action spec.defaultAction spec.defaultErrnoRet = .ok default ∧
      Held doc spec default built := by
  obtain ⟨default, filter, hdefault, hfilter, hrules, hfold⟩ := build_start doc h
  refine ⟨default, hdefault, foldlM_preserves_mem (fun rule hrule b b' => addSyscall_held hrule)
    ⟨hfilter, hrules, ?_, ?_, ?_, ?_⟩ hfold⟩ <;>
    exact fun _ hmem => absurd hmem List.not_mem_nil

theorem Held.mem_rules (hb : Held doc spec default b) {r : Rule} :
    r ∈ doc.rules b.filter ↔
      ∃ attempt ∈ b.attempts, attempt.verdict ≠ default ∧ attempt.toRule = r := by
  rw [hb.rules]
  simp [List.mem_map, List.mem_filter, and_assoc]

/-- The entries that are skipped are those of unknown names and those that
restate the default action. -/
theorem skipped_iff (doc : Documented lib) (h : build lib spec = .ok built)
    (hrule : rule ∈ spec.syscalls.getD []) (hname : name ∈ rule.names) :
    Skipped doc built rule name ↔ lib.fromName name = none ∨
      action rule.action rule.errnoRet = action spec.defaultAction spec.defaultErrnoRet := by
  obtain ⟨default, hdefault, hheld⟩ := build_held doc h
  rw [hdefault]
  constructor
  · intro hskipped
    cases hfrom : lib.fromName name with
    | none => exact Or.inl rfl
    | some syscall =>
        obtain ⟨attempt, hmem, rfl, hname', -⟩ := (build_ok h).2 rule hrule name hname syscall hfrom
        have hout := hskipped attempt hmem rfl hname'
        have hverdict : attempt.verdict = default := by
          by_contra hother
          exact hout (hheld.mem_rules.mpr ⟨attempt, hmem, hother, rfl⟩)
        exact Or.inr (hverdict ▸ hheld.verdict attempt hmem)
  · intro hreason attempt hmem hrule' hname' hin
    subst hrule' hname'
    have hverdict := hheld.verdict attempt hmem
    rcases hreason with hunknown | hrestated
    · rw [(hheld.name attempt hmem).2] at hunknown
      cases hunknown
    · obtain ⟨other, -, hother, hsame⟩ := hheld.mem_rules.mp hin
      have hequal : other.verdict = attempt.verdict := congrArg Rule.action hsame
      rw [hrestated] at hverdict
      exact hother (hequal.trans (Except.ok.inj hverdict).symm)

/-- The filter has the rules the library is told and no others. -/
theorem taken_iff (doc : Documented lib) (h : build lib spec = .ok built) {syscall : Nat}
    {argv : Arguments} {v : ScmpAction} :
    Taken doc built.filter syscall argv v ↔ Told spec lib syscall argv v := by
  obtain ⟨default, hdefault, hheld⟩ := build_held doc h
  constructor
  · rintro ⟨r, hr, ⟨hsyscall, hholds⟩, hv⟩
    obtain ⟨attempt, hmem, hother, rfl⟩ := hheld.mem_rules.mp hr
    obtain ⟨hname, hfrom⟩ := hheld.name attempt hmem
    refine ⟨attempt.rule, hheld.rule attempt hmem, ⟨attempt.name, hname, hsyscall ▸ hfrom⟩,
      (comparators_test doc (hheld.comparators attempt hmem)).mp hholds,
      hv ▸ hheld.verdict attempt hmem, ?_⟩
    rw [hdefault]
    intro hsame
    exact hother (hv.trans (Except.ok.inj hsame).symm)
  · rintro ⟨rule, hrule, ⟨name, hname, hfrom⟩, hmatch, hv, hother⟩
    obtain ⟨attempt, hmem, rfl, -, rfl⟩ := (build_ok h).2 rule hrule name hname syscall hfrom
    have hverdict : attempt.verdict = v :=
      Except.ok.inj ((hheld.verdict attempt hmem).symm.trans hv)
    refine ⟨attempt.toRule, hheld.mem_rules.mpr ⟨attempt, hmem, ?_, rfl⟩,
      ⟨rfl, (comparators_test doc (hheld.comparators attempt hmem)).mpr hmatch⟩, hverdict⟩
    intro hsame
    exact hother (hdefault.trans (congrArg _ (hsame.symm.trans hverdict)))

variable {kernel : String → Option Nat} {syscall : Nat} {argv : Arguments}

/-- Every verdict the filter may give for a call is prescribed exactly where the
call is covered. -/
theorem prescribed_iff (doc : Documented lib) (h : build lib spec = .ok built) :
    (∀ v, Outcome (Taken doc built.filter syscall argv) (doc.default built.filter) v →
        Prescribed kernel spec lib syscall argv v) ↔ Covered kernel spec lib syscall argv := by
  obtain ⟨default, hdefault, hheld⟩ := build_held doc h
  have htaken : Taken doc built.filter syscall argv = Told spec lib syscall argv :=
    funext fun v => propext (taken_iff doc h)
  have hprescribed : ∀ v, Prescribed kernel spec lib syscall argv v ↔
      Outcome (Meant kernel spec lib syscall argv) default v := by
    intro v
    constructor
    · rintro ⟨default', hsame, houtcome⟩
      obtain rfl : default = default' := Except.ok.inj (hdefault.symm.trans hsame)
      exact houtcome
    · exact fun houtcome => ⟨default, hdefault, houtcome⟩
  have hnever : ¬Told spec lib syscall argv default := by
    rintro ⟨rule, -, -, -, -, hother⟩
    exact hother hdefault
  simp only [htaken, hheld.default, hprescribed]
  rw [outcome_mono_iff hnever]
  constructor
  · rintro ⟨htold, hsilent⟩
    exact ⟨htold, fun hnone hsome => ⟨default, hdefault, hsilent hnone hsome⟩⟩
  · rintro ⟨htold, hsilent⟩
    refine ⟨htold, fun hnone hsome => ?_⟩
    obtain ⟨default', hsame, hmeant⟩ := hsilent hnone hsome
    obtain rfl : default = default' := Except.ok.inj (hdefault.symm.trans hsame)
    exact hmeant

/-- Every call is covered where the two values of each masked condition are one and
the rules under unknown names restate the default action. -/
theorem covered_of_restated (hdefault : action spec.defaultAction spec.defaultErrnoRet = .ok default)
    (hmasks : ∀ rule ∈ spec.syscalls.getD [], ∀ arg ∈ rule.args.getD [],
      arg.op = .maskedEq → arg.value = arg.valueTwo.getD 0)
    (hunknown : ∀ rule ∈ spec.syscalls.getD [], ∀ name ∈ rule.names, lib.fromName name = none →
      action rule.action rule.errnoRet = .ok default) : Covered kernel spec lib syscall argv := by
  have htold : ∀ rule ∈ spec.syscalls.getD [],
      (∀ arg ∈ rule.args.getD [], arg.told argv = true) ↔ Matches argv (rule.args.getD []) :=
    fun rule hrule => forall₂_congr fun arg harg => by rw [told_eq (hmasks rule hrule arg harg)]
  constructor
  · rintro v ⟨rule, hrule, ⟨name, hname, hfrom⟩, hmatch, hv, -⟩
    have hnumber : number kernel lib name = some syscall := by rw [number, hfrom, Option.some_or]
    exact ⟨rule, hrule, ⟨name, hname, hnumber⟩, (htold rule hrule).mp hmatch, hv⟩
  · rintro hnone ⟨v, rule, hrule, ⟨name, hname, hnumber⟩, hmatch, hv⟩
    refine ⟨default, hdefault, rule, hrule, ⟨name, hname, hnumber⟩, hmatch, ?_⟩
    cases hfrom : lib.fromName name with
    | none => exact hunknown rule hrule name hname hfrom
    | some known =>
        by_contra hother
        rw [number, hfrom, Option.some_or] at hnumber
        refine hnone ⟨v, rule, hrule, ⟨name, hname, hfrom.trans hnumber⟩,
          (htold rule hrule).mpr hmatch, hv, ?_⟩
        intro hsame
        exact hother (hv.trans (hsame.symm.trans hdefault))

end building

/-! ## Exactly when nothing is lost -/

/-- In every filter that the library's documentation allows for, skipped rules
weaken nothing exactly where each call of a system call with a skipped rule is
covered. -/
theorem neverWeakened_iff {Filter : Type} {lib : Libseccomp Filter} (doc : Documented lib)
    (kernel : String → Option Nat) {spec : LinuxSeccomp} {built : Build Filter}
    (h : build lib spec = .ok built) :
    (∀ verdict, Answers doc verdict → NeverWeakened doc kernel spec verdict built) ↔
      ∀ rule ∈ spec.syscalls.getD [], ∀ name ∈ rule.names,
        (lib.fromName name = none ∨
          action rule.action rule.errnoRet = action spec.defaultAction spec.defaultErrnoRet) →
        ∀ syscall, number kernel lib name = some syscall →
          ∀ argv, Covered kernel spec lib syscall argv := by
  constructor
  · intro hnever rule hrule name hname hreason syscall hnumber argv
    apply (prescribed_iff doc h).mp
    intro v hv
    obtain ⟨verdict, hverdict, rfl⟩ := exists_answers
      (fun q : Filter × Nat × Arguments => Taken doc q.1 q.2.1 q.2.2) (fun q => doc.default q.1)
      (i := (built.filter, syscall, argv)) hv
    exact hnever (fun f n argv => verdict (f, n, argv)) (fun f n argv => hverdict (f, n, argv))
      rule hrule name hname ((skipped_iff doc h hrule hname).mpr hreason) syscall hnumber argv
  · intro hcovered verdict hverdict rule hrule name hname hskipped syscall hnumber argv
    have hreason := (skipped_iff doc h hrule hname).mp hskipped
    exact (prescribed_iff doc h).mpr (hcovered rule hrule name hname hreason syscall hnumber argv)
      _ (hverdict built.filter syscall argv)

/-! ## A library with a table of names -/

/-- Rules are taken as they come, but for those that restate the default action. -/
def tableLib : Libseccomp (ScmpAction × List Rule) where
  new := fun a => .ok (a, [])
  addArch := fun f _ => .ok f
  setFilterAttr := fun f _ _ => .ok f
  fromName := fun name => [("read", 0), ("bpf", 321)].lookup name
  addRule := fun f a n =>
    if a = f.1 then .error { eacces := true, text := "EACCES" }
    else .ok (f.1, f.2 ++ [⟨a, n, []⟩])
  addRuleConditional := fun f a n cs =>
    if a = f.1 then .error { eacces := true, text := "EACCES" }
    else .ok (f.1, f.2 ++ [⟨a, n, cs⟩])

theorem take_spec {f f' : ScmpAction × List Rule} {a : ScmpAction} {rule : Rule} {e : LibError}
    (h : (if a = f.1 then .error e else .ok (f.1, f.2 ++ [rule])) = Except.ok f') :
    f'.1 = f.1 ∧ f'.2 = f.2 ++ [rule] := by
  split at h
  next => cases h
  next =>
    cases h
    exact ⟨rfl, rfl⟩

theorem take_refused {f : ScmpAction × List Rule} {a : ScmpAction} {rule : Rule} {e : LibError}
    (he : e.eacces = true) :
    (∃ e', (if a = f.1 then .error e else .ok (f.1, f.2 ++ [rule])) = Except.error e' ∧
      e'.eacces = true) ↔ a = f.1 := by
  by_cases h : a = f.1 <;> simp [h, he]

def ScmpArgCompare.tests (argv : Arguments) (c : ScmpArgCompare) : Bool :=
  match c.op with
  | .maskedEqual mask => argument argv c.arg &&& mask == c.datum &&& mask
  | _ => c.holds argv

def tableDoc : Documented tableLib where
  default := Prod.fst
  rules := Prod.snd
  tests := fun argv c => c.tests argv
  tests_plain := by
    intro argv c hplain
    unfold ScmpArgCompare.tests
    split
    next mask hmask => exact absurd hmask (hplain mask)
    next => rfl
  tests_masked := fun _ _ _ _ => rfl
  new := by
    intro a f h
    cases h
    exact ⟨rfl, rfl⟩
  addArch := by
    intro f arch f' h
    cases h
    exact ⟨rfl, rfl⟩
  setFilterAttr := by
    intro f attr n f' h
    cases h
    exact ⟨rfl, rfl⟩
  addRule := fun h => take_spec h
  addRuleConditional := fun h => take_spec h
  refused := take_refused rfl
  refusedConditional := take_refused rfl

/-- The first rule that applies counts. -/
def firstVerdict (f : ScmpAction × List Rule) (syscall : Nat) (argv : Arguments) : ScmpAction :=
  ((f.2.find? fun rule => rule.syscall == syscall && rule.comparators.all (·.tests argv)).map
    Rule.action).getD f.1

theorem answers_firstVerdict : Answers tableDoc firstVerdict := by
  intro f syscall argv
  unfold firstVerdict
  cases hfind : f.2.find? fun rule =>
      rule.syscall == syscall && rule.comparators.all (·.tests argv) with
  | some rule =>
      have happlies := List.find?_some hfind
      simp only [Bool.and_eq_true, beq_iff_eq] at happlies
      exact Or.inl ⟨rule, List.mem_of_find?_eq_some hfind, happlies, rfl⟩
  | none =>
      refine Or.inr ⟨?_, rfl⟩
      rintro ⟨v, rule, hmem, ⟨hsyscall, hholds⟩, -⟩
      have hnot := List.find?_eq_none.mp hfind rule hmem
      have hall : rule.comparators.all (·.tests argv) = true := hholds
      simp [hsyscall, hall] at hnot

/-- A system call newer than the library's table. -/
def newerKernel (name : String) : Option Nat := [("uretprobe", 335)].lookup name

def profile (default : LinuxSeccompAction) (syscalls : List LinuxSyscall) : LinuxSeccomp where
  defaultAction := default
  defaultErrnoRet := none
  architectures := some [.native]
  flags := none
  syscalls := some syscalls

def plainRule (names : List String) (action : LinuxSeccompAction) : LinuxSyscall where
  names := names
  action := action
  errnoRet := none
  args := none

/-- Where everything is allowed by default, the rule that denies one call is lost. -/
theorem denied_is_allowed :
    ∃ built, build tableLib (profile .allow [plainRule ["uretprobe"] .errno]) = .ok built ∧
      Answers tableDoc firstVerdict ∧ (∀ argv, firstVerdict built.filter 335 argv = .allow) ∧
      ¬NeverWeakened tableDoc newerKernel (profile .allow [plainRule ["uretprobe"] .errno])
        firstVerdict built := by
  refine ⟨⟨(.allow, []), 0, []⟩, rfl, answers_firstVerdict, fun _ => rfl, fun hnever => ?_⟩
  have hdenied : Meant newerKernel (profile .allow [plainRule ["uretprobe"] .errno]) tableLib 335
      (fun _ => 0) (.errno 1) :=
    ⟨_, List.mem_cons_self, ⟨"uretprobe", List.mem_cons_self, rfl⟩, by nofun, rfl⟩
  obtain ⟨default, hdefault, houtcome⟩ := hnever _ List.mem_cons_self "uretprobe"
    List.mem_cons_self (by nofun) 335 rfl fun _ => 0
  rcases houtcome with ⟨rule, hrule, -, -, haction⟩ | ⟨hnone, -⟩
  · obtain rfl := List.mem_singleton.mp hrule
    cases haction
  · exact hnone ⟨_, hdenied⟩

/-- Rules that restate the default action may go, under known names and unknown ones. -/
theorem restated_never_weakened :
    ∃ built, build tableLib (profile .errno
        [plainRule ["read"] .allow, plainRule ["bpf", "uretprobe"] .errno]) = .ok built ∧
      built.rules = 1 ∧ ∀ verdict, Answers tableDoc verdict →
        NeverWeakened tableDoc newerKernel (profile .errno
          [plainRule ["read"] .allow, plainRule ["bpf", "uretprobe"] .errno]) verdict built := by
  refine ⟨⟨(.errno 1, [⟨.allow, 0, []⟩]), 1,
    [⟨plainRule ["read"] .allow, "read", 0, .allow, []⟩,
      ⟨plainRule ["bpf", "uretprobe"] .errno, "bpf", 321, .errno 1, []⟩]⟩, rfl, rfl, ?_⟩
  refine (neverWeakened_iff tableDoc newerKernel rfl).mpr ?_
  intro rule _ name _ _ syscall _ argv
  have hrules : ∀ rule ∈ [plainRule ["read"] .allow, plainRule ["bpf", "uretprobe"] .errno],
      rule = plainRule ["read"] .allow ∨ rule = plainRule ["bpf", "uretprobe"] .errno := by
    simp
  have hdefault : action .errno none = .ok (.errno 1) := rfl
  apply covered_of_restated hdefault
  · intro rule hrule arg harg
    rcases hrules rule hrule with rfl | rfl <;> cases harg
  · intro rule hrule name hname hunknown
    rcases hrules rule hrule with rfl | rfl
    · obtain rfl := List.mem_singleton.mp hname
      cases hunknown
    · rfl

end Mars.Seccomp
