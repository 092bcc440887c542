import Mathlib.Data.List.Basic

/-! # Histories of attempted operations

Each attempt is recorded with its operation and whether it succeeded, oldest
first. A party that works through a program and stops at its first failure
attempts an operation only after it has succeeded at all the ones before it.
-/

namespace History

structure Entry (Op : Type) where
  op : Op
  ok : Bool
  deriving DecidableEq

section precedes
variable {E : Type} {log : List E} {a b : E} {P Q : E → Prop}

/-- Nothing that satisfies `P` is recorded before `a` is. -/
def Precedes (log : List E) (a : E) (P : E → Prop) : Prop :=
  ∀ front e back, log = front ++ e :: back → P e → a ∈ front

theorem precedes_nil : Precedes [] a P := by
  intro front e back hsplit
  simp at hsplit

theorem Precedes.snoc (h : Precedes log a P) {e : E} (he : P e → a ∈ log) :
    Precedes (log ++ [e]) a P := by
  intro front e' back hsplit hP
  rcases List.eq_nil_or_concat back with hnil | ⟨init, last, hlast⟩
  · subst hnil
    obtain ⟨hfront, heq⟩ := List.append_inj' hsplit rfl
    obtain rfl : e = e' := by simpa using heq
    exact hfront ▸ he hP
  · subst hlast
    have hsplit' : log ++ [e] = (front ++ e' :: init) ++ [last] := by simpa using hsplit
    exact h front e' init (List.append_inj' hsplit' rfl).1 hP

theorem Precedes.mem (h : Precedes log a P) {e : E} (he : e ∈ log) (hP : P e) : a ∈ log := by
  obtain ⟨front, back, hsplit⟩ := List.append_of_mem he
  rw [hsplit]
  exact List.mem_append_left _ (h front e back hsplit hP)

theorem Precedes.mono (h : Precedes log a P) (hQ : ∀ e, Q e → P e) : Precedes log a Q :=
  fun front e back hsplit he => h front e back hsplit (hQ e he)

theorem Precedes.trans (hab : Precedes log a (· = b)) (hb : Precedes log b P) :
    Precedes log a P := by
  intro front e back hsplit hP
  obtain ⟨before, after, hfront⟩ := List.append_of_mem (hb front e back hsplit hP)
  have hsplit' : log = before ++ b :: (after ++ e :: back) := by simp [hsplit, hfront]
  rw [hfront]
  exact List.mem_append_left _ (hab before b _ hsplit' rfl)

end precedes

/-! ## Programs -/

section program
variable {Op : Type} {log : List (Entry Op)} {program rest : List Op} {x : Op}

/-- `ops` is what is left of the program, and the part before it has succeeded. -/
def Progress (log : List (Entry Op)) (program ops : List Op) : Prop :=
  ∃ done, program = done ++ ops ∧ ∀ y ∈ done, ⟨y, true⟩ ∈ log

theorem progress_start (log : List (Entry Op)) (program : List Op) :
    Progress log program program := ⟨[], rfl, by simp⟩

theorem Progress.mem (h : Progress log program (x :: rest)) : x ∈ program := by
  obtain ⟨done, hsplit, -⟩ := h
  simp [hsplit]

theorem Progress.snoc {ops : List Op} (h : Progress log program ops) (e : Entry Op) :
    Progress (log ++ [e]) program ops := by
  obtain ⟨done, hsplit, hdone⟩ := h
  exact ⟨done, hsplit, fun y hy => List.mem_append_left _ (hdone y hy)⟩

theorem Progress.next (h : Progress log program (x :: rest)) :
    Progress (log ++ [⟨x, true⟩]) program rest := by
  obtain ⟨done, hsplit, hdone⟩ := h
  refine ⟨done ++ [x], by simp [hsplit], ?_⟩
  intro y hy
  rcases List.mem_append.mp hy with hy | hy
  · exact List.mem_append_left _ (hdone y hy)
  · rw [List.mem_singleton.mp hy]
    simp

/-- What stands in front of the next operation has succeeded. -/
theorem Progress.before {front : List Op} (h : Progress log program (x :: rest))
    (hfront : front <+: program) (hx : x ∉ front) : ∀ y ∈ front, ⟨y, true⟩ ∈ log := by
  obtain ⟨done, hsplit, hlog⟩ := h
  obtain ⟨back, rfl⟩ := hfront
  intro y hy
  apply hlog
  rcases List.append_eq_append_iff.mp hsplit with ⟨middle, hdone, -⟩ | ⟨middle, hdone, hrest⟩
  · rw [hdone]
    exact List.mem_append_left _ hy
  · cases middle with
    | nil => simpa [hdone] using hy
    | cons z others =>
        simp only [List.cons_append, List.cons.injEq] at hrest
        exact absurd (by simp [hdone, hrest.1]) hx

/-- What is behind the next operation is still to come. -/
theorem Progress.suffix {back : List Op} (h : Progress log program (x :: rest))
    (hback : back <:+ program) (hx : x ∉ back) : back <:+ rest := by
  obtain ⟨done, hsplit, -⟩ := h
  obtain ⟨front, rfl⟩ := hback
  rcases List.append_eq_append_iff.mp hsplit with ⟨middle, -, hback⟩ | ⟨middle, -, hrest⟩
  · exact absurd (by simp [hback]) hx
  · cases middle with
    | nil =>
        have hsame : x :: rest = back := hrest
        exact absurd (hsame ▸ List.mem_cons_self) hx
    | cons y others =>
        simp only [List.cons_append, List.cons.injEq] at hrest
        exact ⟨others, hrest.2.symm⟩

/-- Every attempt comes after the successes of all that stands in front of it. -/
def Ordered (log : List (Entry Op)) (program : List Op) : Prop :=
  ∀ front x back, program = front ++ x :: back → x ∉ front →
    ∀ y ∈ front, Precedes log ⟨y, true⟩ fun e => e.op = x

theorem ordered_nil (program : List Op) : Ordered [] program :=
  fun _ _ _ _ _ _ _ => precedes_nil

theorem Ordered.snoc_other (h : Ordered log program) {e : Entry Op} (he : e.op ∉ program) :
    Ordered (log ++ [e]) program := by
  intro front x back hsplit hfirst y hy
  apply (h front x back hsplit hfirst y hy).snoc
  intro heq
  exact absurd (by simp [hsplit, heq]) he

theorem Ordered.snoc (h : Ordered log program) {ok : Bool}
    (hprogress : Progress log program (x :: rest)) : Ordered (log ++ [⟨x, ok⟩]) program := by
  intro front z back hsplit hfirst y hy
  apply (h front z back hsplit hfirst y hy).snoc
  intro heq
  obtain rfl : x = z := heq
  exact hprogress.before ⟨_, hsplit.symm⟩ hfirst y hy

/-- An operation of the later part is attempted after the earlier part's successes. -/
theorem Ordered.across {front : List Op} {y : Op} (h : Ordered log program)
    (hfront : front <+: program) (hmem : ∀ e ∈ log, e.op = x → x ∈ program) (hx : x ∉ front)
    (hy : y ∈ front) : Precedes log ⟨y, true⟩ fun e => e.op = x := by
  obtain ⟨back, rfl⟩ := hfront
  intro before e after hsplit heq
  have hlogged : e ∈ log := by simp [hsplit]
  have hback : x ∈ back := (List.mem_append.mp (hmem e hlogged heq)).resolve_left hx
  obtain ⟨middle, rest, hsplit', hfirst⟩ := List.eq_append_cons_of_mem hback
  apply h (front ++ middle) x rest (by simp [hsplit']) _ y (List.mem_append_left _ hy)
    before e after hsplit heq
  simp [hx, hfirst]

end program

/-! ## Attempt by attempt -/

section attempts
variable {Op : Type} {program rest : List Op} {entries : List (Entry Op)} {x y : Op}

/-- Exactly what stands in front of `ops` has been attempted, with success. -/
def Reached (entries : List (Entry Op)) (program ops : List Op) : Prop :=
  ∃ done, program = done ++ ops ∧ entries = done.map fun x => ⟨x, true⟩

/-- The attempts follow the program, and the first failure is the last of them. -/
inductive Attempts (program : List Op) : List (Entry Op) → Prop
  | reached {entries : List (Entry Op)} {ops : List Op} (h : Reached entries program ops) :
      Attempts program entries
  | failed {entries : List (Entry Op)} {x : Op} {rest : List Op}
      (h : Reached entries program (x :: rest)) : Attempts program (entries ++ [⟨x, false⟩])

theorem reached_start (program : List Op) : Reached [] program program := ⟨[], rfl, rfl⟩

theorem attempts_nil (program : List Op) : Attempts program [] := .reached (reached_start program)

theorem Reached.next (h : Reached entries program (x :: rest)) :
    Reached (entries ++ [⟨x, true⟩]) program rest := by
  obtain ⟨done, hsplit, hdone⟩ := h
  exact ⟨done ++ [x], by simp [hsplit], by simp [hdone]⟩

theorem Reached.succeeded {ops : List Op} (h : Reached entries program ops) {e : Entry Op}
    (he : e ∈ entries) : e.ok = true := by
  obtain ⟨done, -, rfl⟩ := h
  obtain ⟨y, -, rfl⟩ := List.mem_map.mp he
  rfl

theorem Reached.isPrefix {ops : List Op} (h : Reached entries program ops) :
    entries.map (·.op) ++ ops = program := by
  obtain ⟨done, hsplit, rfl⟩ := h
  simp [hsplit, Function.comp_def]

/-- A program is attempted from its beginning, one step after the other. -/
theorem Attempts.isPrefix (h : Attempts program entries) :
    entries.map (·.op) <+: program := by
  cases h with
  | @reached _ ops h => exact ⟨ops, h.isPrefix⟩
  | @failed entries x rest h => exact ⟨rest, by simpa using h.isPrefix⟩

/-- What has succeeded stands in front of what has failed. -/
theorem Attempts.failure_last (h : Attempts program entries) (hx : ⟨x, false⟩ ∈ entries)
    (hy : ⟨y, true⟩ ∈ entries) : ∃ front back, program = front ++ x :: back ∧ y ∈ front := by
  cases h with
  | reached h => cases h.succeeded hx
  | @failed entries z rest h =>
      obtain ⟨done, hsplit, rfl⟩ := h
      obtain rfl : x = z := by simpa using hx
      exact ⟨done, rest, hsplit, by simpa using hy⟩

/-- Where an operation has succeeded, so has all that stands in front of it, once. -/
theorem Attempts.through {front back : List Op} (h : Attempts (front ++ x :: back) entries)
    (hx : x ∉ front) (hmem : ⟨x, true⟩ ∈ entries) :
    ∃ behind, entries = (front ++ [x]).map (fun y => ⟨y, true⟩) ++ behind ∧
      behind.map (·.op) <+: back := by
  have hdone : ∀ {done ops : List Op}, front ++ x :: back = done ++ ops → x ∈ done →
      ∃ more, done = front ++ x :: more ∧ back = more ++ ops := by
    intro done ops hsplit hmem
    rcases List.append_eq_append_iff.mp hsplit with ⟨middle, rfl, hback⟩ | ⟨middle, rfl, hops⟩
    · cases middle with
      | nil => exact absurd (by simpa using hmem) hx
      | cons z more =>
          obtain ⟨rfl, rfl⟩ := List.cons.inj hback
          exact ⟨more, rfl, rfl⟩
    · exact absurd (List.mem_append_left _ hmem) hx
  have hreached : ∀ {entries ops}, Reached entries (front ++ x :: back) ops →
      ⟨x, true⟩ ∈ entries → ∃ more, entries = (front ++ x :: more).map (fun y => ⟨y, true⟩) ∧
        back = more ++ ops := by
    rintro entries ops ⟨done, hsplit, rfl⟩ hmem
    obtain ⟨more, rfl, hback⟩ := hdone hsplit (by simpa using hmem)
    exact ⟨more, rfl, hback⟩
  cases h with
  | @reached _ ops h =>
      obtain ⟨more, rfl, rfl⟩ := hreached h hmem
      exact ⟨more.map fun y => ⟨y, true⟩, by simp, by simp [Function.comp_def]⟩
  | @failed entries z rest h =>
      have hearlier : ⟨x, true⟩ ∈ entries := by simpa using hmem
      obtain ⟨more, rfl, rfl⟩ := hreached h hearlier
      refine ⟨more.map (fun y => ⟨y, true⟩) ++ [⟨z, false⟩], by simp, ?_⟩
      exact ⟨rest, by simp [Function.comp_def]⟩

/-- What is only done up to there has been done as the program has it. -/
theorem Attempts.filterMap_through {β : Type} {f : Op → Option β} {front back : List Op}
    (h : Attempts (front ++ x :: back) entries) (hx : x ∉ front) (hmem : ⟨x, true⟩ ∈ entries)
    (hback : ∀ y ∈ back, f y = none) :
    entries.filterMap (fun e => f e.op) = (front ++ x :: back).filterMap f ∧
      ∀ e ∈ entries, (f e.op).isSome → e.ok = true := by
  obtain ⟨behind, rfl, hbehind⟩ := h.through hx hmem
  have hnone : ∀ e ∈ behind, f e.op = none := fun e he =>
    hback e.op (hbehind.subset (List.mem_map_of_mem he))
  constructor
  · have hrest : behind.filterMap (fun e => f e.op) = [] := List.filterMap_eq_nil_iff.mpr hnone
    have hlast : back.filterMap f = [] := List.filterMap_eq_nil_iff.mpr hback
    rw [List.append_cons front x back, List.filterMap_append, hrest, List.filterMap_map,
      @List.filterMap_append _ _ (front ++ [x]) back, hlast]
    rfl
  · intro e he hsome
    rcases List.mem_append.mp he with he | he
    · obtain ⟨y, -, rfl⟩ := List.mem_map.mp he
      rfl
    · simp [hnone e he] at hsome

end attempts

/-! ## Several programs -/

section programs
variable {Op Stage Who : Type} {program : Stage → List Op} {owner : Stage → Who}
  {idle : Op → Prop} {log : List (Entry Op)} {who : Who} {x : Op} {rest ops : List Op}
  {stage : Stage}

/-- A party works through a program of its own or is left with idle operations. -/
def Working (program : Stage → List Op) (owner : Stage → Who) (idle : Op → Prop)
    (log : List (Entry Op)) (who : Who) (ops : List Op) : Prop :=
  (∃ stage, owner stage = who ∧ Progress log (program stage) ops) ∨ ∀ x ∈ ops, idle x

/-- No operation is in two programs, or in one and idle. -/
structure Apart (program : Stage → List Op) (idle : Op → Prop) : Prop where
  programs : ∀ x stage stage', x ∈ program stage → x ∈ program stage' → stage = stage'
  idle : ∀ x stage, x ∈ program stage → ¬idle x

theorem working_start (log : List (Entry Op)) (stage : Stage) :
    Working program owner idle log (owner stage) (program stage) :=
  Or.inl ⟨stage, rfl, progress_start _ _⟩

theorem working_nil (log : List (Entry Op)) (who : Who) :
    Working program owner idle log who [] :=
  Or.inr (by simp)

theorem Working.snoc (h : Working program owner idle log who ops) (e : Entry Op) :
    Working program owner idle (log ++ [e]) who ops := by
  rcases h with ⟨stage, howner, hprogress⟩ | hidle
  · exact Or.inl ⟨stage, howner, hprogress.snoc e⟩
  · exact Or.inr hidle

theorem Working.next (h : Working program owner idle log who (x :: rest)) :
    Working program owner idle (log ++ [⟨x, true⟩]) who rest := by
  rcases h with ⟨stage, howner, hprogress⟩ | hidle
  · exact Or.inl ⟨stage, howner, hprogress.next⟩
  · exact Or.inr fun y hy => hidle y (List.mem_cons_of_mem _ hy)

/-- What a party attempts is of a program of its own, unless it is idle. -/
theorem Working.progress (h : Working program owner idle log who (x :: rest)) (hx : ¬idle x) :
    ∃ stage, owner stage = who ∧ Progress log (program stage) (x :: rest) := by
  rcases h with hprogress | hidle
  · exact hprogress
  · exact absurd (hidle x List.mem_cons_self) hx

/-- Whatever a party attempts next, every program stays in order. -/
theorem Working.ordered {ok : Bool} (h : Working program owner idle log who (x :: rest))
    (hapart : Apart program idle) (hordered : Ordered log (program stage)) :
    Ordered (log ++ [⟨x, ok⟩]) (program stage) := by
  by_cases hmem : x ∈ program stage
  · obtain ⟨stage', -, hprogress⟩ := h.progress (hapart.idle x stage hmem)
    obtain rfl := hapart.programs x stage stage' hmem hprogress.mem
    exact hordered.snoc hprogress
  · exact hordered.snoc_other hmem

end programs

end History
