import Mathlib.Data.List.Forall2

/-! # The descriptors of a process

A new descriptor gets the lowest free number. When another program is executed, the
marked ones are closed. A process keeps the numbers of those it has opened itself
and closes them by their numbers.
-/

namespace Descriptors

structure Opened (α : Type) where
  object : α
  cloexec : Bool
  deriving DecidableEq

structure Table (α : Type) where
  slots : List (Option (Opened α))
  deriving DecidableEq

variable {α : Type}

def Table.get (t : Table α) (n : Nat) : Option (Opened α) := t.slots[n]?.join

def Table.put (t : Table α) (n : Nat) (slot : Option (Opened α)) : Table α :=
  ⟨(t.slots ++ List.replicate (n + 1 - t.slots.length) none).set n slot⟩

def Table.lowest (t : Table α) : Nat := t.slots.findIdx Option.isNone

/-- The number of the new descriptor, and the table with it. -/
def Table.add (t : Table α) (opened : Opened α) : Nat × Table α :=
  (t.lowest, t.put t.lowest (some opened))

def Table.close (t : Table α) (n : Nat) : Table α := t.put n none

/-- The copy stays open when another program is started. -/
def Table.dup2 (t : Table α) (old new : Nat) : Option (Table α) :=
  (t.get old).map fun opened =>
    if old = new then t else t.put new (some { opened with cloexec := false })

def Table.map {β : Type} (f : α → β) (t : Table α) : Table β :=
  ⟨t.slots.map (·.map fun opened => ⟨f opened.object, opened.cloexec⟩)⟩

def Table.exec (t : Table α) : Table α := ⟨t.slots.map (·.filter (!·.cloexec))⟩

/-- A number is opened where it is not. -/
def Table.fill (t : Table α) (object : α) (n : Nat) : Table α :=
  if (t.get n).isSome then t else t.put n (some ⟨object, false⟩)

/-- The three standard descriptors are opened where they are not. -/
def Table.withStandard (t : Table α) (object : α) : Table α :=
  ((t.fill object 0).fill object 1).fill object 2

/-- The caller's end of a pipe, where there is one, and what the child gets. -/
def Table.pipes : List (Option α × α) → Table α → List Nat × Table α
  | [], t => ([], t)
  | (ours, theirs) :: rest, t =>
      let kept := match ours with
        | some object => (t.add ⟨object, true⟩).2
        | none => t
      let (n, given) := kept.add ⟨theirs, true⟩
      let (numbers, final) := Table.pipes rest given
      (n :: numbers, final)

/-- The descriptors are copied to the numbers from `new` on. -/
def Table.redirect : List Nat → Nat → Table α → Table α
  | [], _, t => t
  | old :: rest, new, t => Table.redirect rest (new + 1) ((t.dup2 old new).getD t)

/-- What a program started as a child finds open. -/
def Table.spawn (t : Table α) (stdio : List (Option α × α)) : Table α :=
  let (numbers, given) := Table.pipes stdio t
  (Table.redirect numbers 0 given).exec

/-! ## Numbers -/

@[simp] theorem get_put (t : Table α) (n m : Nat) (slot : Option (Opened α)) :
    (t.put n slot).get m = if m = n then slot else t.get m := by
  unfold Table.get Table.put
  simp only [List.getElem?_set, List.length_append, List.length_replicate]
  by_cases hm : m = n
  · subst hm
    rw [if_pos rfl, if_pos rfl, if_pos (by omega)]
    rfl
  · rw [if_neg (Ne.symm hm), if_neg hm]
    by_cases hlt : m < t.slots.length
    · rw [List.getElem?_append_left hlt]
    · rw [List.getElem?_append_right (by omega), List.getElem?_eq_none (l := t.slots) (by omega),
        List.getElem?_replicate]
      split <;> rfl

@[simp] theorem get_close (t : Table α) (n m : Nat) :
    (t.close n).get m = if m = n then none else t.get m := get_put t n m none

theorem get_lowest (t : Table α) : t.get t.lowest = none := by
  unfold Table.get Table.lowest
  by_cases hlt : t.slots.findIdx Option.isNone < t.slots.length
  · have hnone := List.findIdx_getElem (w := hlt)
    rw [List.getElem?_eq_getElem hlt, Option.isNone_iff_eq_none.mp hnone]
    rfl
  · rw [List.getElem?_eq_none (by omega)]
    rfl

@[simp] theorem get_exec (t : Table α) (n : Nat) :
    t.exec.get n = (t.get n).filter (!·.cloexec) := by
  unfold Table.get Table.exec
  rw [List.getElem?_map]
  cases t.slots[n]? with
  | none => rfl
  | some slot => rfl

@[simp] theorem get_map {β : Type} (f : α → β) (t : Table α) (n : Nat) :
    (t.map f).get n = (t.get n).map fun opened => ⟨f opened.object, opened.cloexec⟩ := by
  unfold Table.get Table.map
  rw [List.getElem?_map]
  cases t.slots[n]? with
  | none => rfl
  | some slot => rfl

theorem get_fill (t : Table α) (object : α) (k n : Nat) :
    (t.fill object k).get n =
      if n = k then some ((t.get n).getD ⟨object, false⟩) else t.get n := by
  unfold Table.fill
  cases hslot : t.get k with
  | none =>
      rw [Option.isSome_none, if_neg Bool.false_ne_true, get_put]
      split
      · next heq => rw [heq, hslot]; rfl
      · rfl
  | some opened =>
      rw [Option.isSome_some, if_pos rfl]
      split
      · next heq => rw [heq, hslot]; rfl
      · rfl

theorem get_withStandard (t : Table α) (object : α) (n : Nat) :
    (t.withStandard object).get n =
      if n ≤ 2 then some ((t.get n).getD ⟨object, false⟩) else t.get n := by
  rw [Table.withStandard, get_fill, get_fill, get_fill]
  rcases n with _ | _ | _ | n <;> simp

@[simp] theorem get_add (t : Table α) (opened : Opened α) (n : Nat) :
    (t.add opened).2.get n = if n = t.lowest then some opened else t.get n := get_put _ _ _ _

/-! ## Children -/

/-- Only marked descriptors have been added. -/
def Adds (t t' : Table α) : Prop :=
  ∀ n, t'.get n = t.get n ∨ t.get n = none ∧ ∃ object, t'.get n = some ⟨object, true⟩

theorem Adds.refl (t : Table α) : Adds t t := fun _ => Or.inl rfl

theorem adds_add (t : Table α) (object : α) : Adds t (t.add ⟨object, true⟩).2 := by
  intro n
  rw [get_add]
  split
  · next heq => exact Or.inr ⟨heq ▸ get_lowest t, object, rfl⟩
  · exact Or.inl rfl

theorem Adds.trans {t t' t'' : Table α} (h : Adds t t') (h' : Adds t' t'') : Adds t t'' := by
  intro n
  rcases h' n with hsame | ⟨hnone, hmarked⟩
  · rw [hsame]
    exact h n
  · rcases h n with hsame | ⟨hfree, -⟩
    · exact Or.inr ⟨hsame ▸ hnone, hmarked⟩
    · exact Or.inr ⟨hfree, hmarked⟩

theorem Adds.of_some {t t' : Table α} (h : Adds t t') {n : Nat} {opened : Opened α}
    (hn : t.get n = some opened) : t'.get n = some opened := by
  rcases h n with hsame | ⟨hnone, -⟩
  · rw [hsame, hn]
  · rw [hnone] at hn
    cases hn

theorem Adds.exec {t t' : Table α} (h : Adds t t') (n : Nat) : t'.exec.get n = t.exec.get n := by
  rw [get_exec, get_exec]
  rcases h n with hsame | ⟨hnone, object, hmarked⟩
  · rw [hsame]
  · rw [hnone, hmarked]
    rfl

theorem pipes_spec (stdio : List (Option α × α)) (t : Table α) :
    Adds t (t.pipes stdio).2 ∧ List.Forall₂
      (fun ends n => t.get n = none ∧ (t.pipes stdio).2.get n = some ⟨ends.2, true⟩)
      stdio (t.pipes stdio).1 := by
  induction stdio generalizing t with
  | nil => exact ⟨Adds.refl t, .nil⟩
  | cons ends rest ih =>
      obtain ⟨ours, theirs⟩ := ends
      obtain ⟨kept, hkept, hpipes⟩ : ∃ kept, Adds t kept ∧ Table.pipes ((ours, theirs) :: rest) t =
          (kept.lowest :: (Table.pipes rest (kept.add ⟨theirs, true⟩).2).1,
            (Table.pipes rest (kept.add ⟨theirs, true⟩).2).2) := by
        cases ours with
        | none => exact ⟨t, Adds.refl t, rfl⟩
        | some object => exact ⟨_, adds_add t object, rfl⟩
      have hgiven := hkept.trans (adds_add kept theirs)
      obtain ⟨hrest, hnumbers⟩ := ih (kept.add ⟨theirs, true⟩).2
      rw [hpipes]
      refine ⟨hgiven.trans hrest, .cons ⟨?_, ?_⟩ (hnumbers.imp ?_)⟩
      · rcases hkept kept.lowest with hsame | ⟨hnone, -⟩
        · exact hsame ▸ get_lowest kept
        · exact hnone
      · exact hrest.of_some (by rw [get_add, if_pos rfl])
      · rintro other n ⟨hfree, hgot⟩
        refine ⟨?_, hgot⟩
        rcases hgiven n with hsame | ⟨hnone, -⟩
        · exact hsame ▸ hfree
        · exact hnone

/-- Copies to numbers below all those copied from. -/
theorem get_redirect {stdio : List (Option α × α)} {numbers : List Nat} {bound new : Nat}
    {t : Table α}
    (h : List.Forall₂ (fun ends n => bound ≤ n ∧ t.get n = some ⟨ends.2, true⟩) stdio numbers)
    (hbound : new + stdio.length ≤ bound) (n : Nat) :
    (Table.redirect numbers new t).get n =
      if new ≤ n then (stdio[n - new]?.map fun ends => ⟨ends.2, false⟩).or (t.get n)
      else t.get n := by
  induction stdio generalizing numbers new t with
  | nil =>
      cases h
      simp [Table.redirect]
  | cons ends rest ih =>
      obtain ⟨old, others, ⟨hlow, hold⟩, hothers, rfl⟩ := List.forall₂_cons_left_iff.mp h
      rw [List.length_cons] at hbound
      have hdup : t.dup2 old new = some (t.put new (some ⟨ends.2, false⟩)) := by
        rw [Table.dup2, hold, Option.map_some, if_neg (by omega)]
      have hkept := hothers.imp (S := fun other n => bound ≤ n ∧
          (t.put new (some ⟨ends.2, false⟩)).get n = some ⟨other.2, true⟩) fun other n hn =>
        ⟨hn.1, by rw [get_put, if_neg (by omega), hn.2]⟩
      rw [Table.redirect, hdup, Option.getD_some, ih hkept (by omega)]
      by_cases hbehind : new + 1 ≤ n
      · obtain ⟨k, rfl⟩ := Nat.exists_eq_add_of_le hbehind
        rw [if_pos hbehind, if_pos (by omega), get_put, if_neg (by omega),
          show new + 1 + k - new = k + 1 by omega, Nat.add_sub_cancel_left, List.getElem?_cons_succ]
      · rw [if_neg hbehind, get_put]
        by_cases heq : n = new
        · subst heq
          rw [if_pos rfl, if_pos (Nat.le_refl n), Nat.sub_self]
          rfl
        · rw [if_neg heq, if_neg (by omega)]

/-- A child has its standard descriptors, and of the others those that are not marked. -/
theorem get_spawn {t : Table α} {stdio : List (Option α × α)}
    (h : ∀ n < stdio.length, t.get n ≠ none) (n : Nat) :
    (t.spawn stdio).get n =
      (stdio[n]?.map fun ends => ⟨ends.2, false⟩).or ((t.get n).filter (!·.cloexec)) := by
  obtain ⟨hadds, hnumbers⟩ := pipes_spec stdio t
  have hgiven := hnumbers.imp (S := fun ends n => stdio.length ≤ n ∧
      (t.pipes stdio).2.get n = some ⟨ends.2, true⟩) fun ends n hn =>
    ⟨Nat.le_of_not_lt fun hlt => h n hlt hn.1, hn.2⟩
  have hexec := hadds.exec n
  rw [get_exec, get_exec] at hexec
  change ((Table.redirect (t.pipes stdio).1 0 (t.pipes stdio).2).exec).get n = _
  rw [get_exec, get_redirect hgiven (by omega), if_pos (Nat.zero_le n), Nat.sub_zero]
  cases stdio[n]? with
  | none => exact hexec
  | some ends => rfl

/-! ## Processes -/

/-- What a process has open: what it was given and what it has opened itself, under
the numbers its variables hold. -/
structure Process (κ ρ : Type) where
  table : Table (κ ⊕ ρ)
  owned : List (ρ × Nat)

section process
variable {κ ρ : Type}

def Process.names (p : Process κ ρ) : List ρ := p.owned.map Prod.fst

def Process.take (p : Process κ ρ) (r : ρ) (cloexec : Bool) : Process κ ρ :=
  let (n, table) := p.table.add ⟨.inr r, cloexec⟩
  ⟨table, (r, n) :: p.owned⟩

@[simp] theorem names_take (p : Process κ ρ) (r : ρ) (cloexec : Bool) :
    (p.take r cloexec).names = r :: p.names := rfl

variable [DecidableEq ρ]

/-- The variable goes without closing anything. -/
def Process.forget (p : Process κ ρ) (r : ρ) : Process κ ρ :=
  { p with owned := p.owned.eraseP (·.1 == r) }

def Process.drop (p : Process κ ρ) (r : ρ) : Process κ ρ :=
  match p.owned.lookup r with
  | some n => { p.forget r with table := p.table.close n }
  | none => p

def Process.dup2 (p : Process κ ρ) (r : ρ) (new : Nat) : Process κ ρ :=
  match p.owned.lookup r with
  | some n => { p with table := (p.table.dup2 n new).getD p.table }
  | none => p

/-- The variables hold what was opened, each at its own number, and at the other
numbers there is what the process was given. -/
structure Holds (given : Nat → Option (Opened (κ ⊕ ρ))) (marked : ρ → Bool)
    (p : Process κ ρ) : Prop where
  nodup : (p.owned.map Prod.snd).Nodup
  owned : ∀ r n, (r, n) ∈ p.owned → given n = none ∧ p.table.get n = some ⟨.inr r, marked r⟩
  others : ∀ n, n ∉ p.owned.map Prod.snd → p.table.get n = given n

theorem exists_number {p : Process κ ρ} {r : ρ} (h : r ∈ p.names) :
    ∃ n, p.owned.lookup r = some n := by
  rw [← Option.isSome_iff_exists, List.lookup_isSome_iff]
  obtain ⟨entry, hentry, rfl⟩ := List.mem_map.mp h
  exact ⟨entry, hentry, beq_self_eq_true _⟩

@[simp] theorem names_forget (p : Process κ ρ) (r : ρ) :
    (p.forget r).names = p.names.erase r := by
  rw [Process.names, Process.forget, Process.names, List.erase_eq_eraseP', List.eraseP_map]
  rfl

@[simp] theorem names_drop (p : Process κ ρ) (r : ρ) : (p.drop r).names = p.names.erase r := by
  unfold Process.drop
  split
  · exact names_forget p r
  · next hnone =>
      refine (List.erase_of_not_mem fun hmem => ?_).symm
      obtain ⟨n, hsome⟩ := exists_number hmem
      cases hnone.symm.trans hsome

@[simp] theorem names_dup2 (p : Process κ ρ) (r : ρ) (new : Nat) :
    (p.dup2 r new).names = p.names := by
  unfold Process.dup2
  split <;> rfl

end process

section holds
variable {κ ρ : Type} {given : Nat → Option (Opened (κ ⊕ ρ))} {marked : ρ → Bool}
  {p : Process κ ρ}

theorem holds_start (t : Table (κ ⊕ ρ)) : Holds t.get marked ⟨t, []⟩ where
  nodup := List.nodup_nil
  owned := nofun
  others := fun _ _ => rfl

theorem Holds.free (h : Holds given marked p) :
    given p.table.lowest = none ∧ p.table.lowest ∉ p.owned.map Prod.snd := by
  have hnone := get_lowest p.table
  have hfree : p.table.lowest ∉ p.owned.map Prod.snd := by
    intro hmem
    obtain ⟨⟨r, n⟩, hentry, heq⟩ := List.mem_map.mp hmem
    rw [← heq, (h.owned r n hentry).2] at hnone
    cases hnone
  exact ⟨h.others _ hfree ▸ hnone, hfree⟩

theorem Holds.take (h : Holds given marked p) (r : ρ) :
    Holds given marked (p.take r (marked r)) := by
  obtain ⟨hgiven, hfree⟩ := h.free
  refine ⟨List.nodup_cons.mpr ⟨hfree, h.nodup⟩, ?_, ?_⟩
  · intro r' n hmem
    change _ ∧ (p.table.add ⟨.inr r, marked r⟩).2.get n = _
    rw [get_add]
    rcases List.mem_cons.mp hmem with heq | hold
    · obtain ⟨rfl, rfl⟩ := Prod.mk.inj heq
      exact ⟨hgiven, if_pos rfl⟩
    · have hne : n ≠ p.table.lowest := fun heq => hfree (heq ▸ List.mem_map_of_mem hold)
      rw [if_neg hne]
      exact h.owned r' n hold
  · intro n hn
    obtain ⟨hne, hold⟩ := not_or.mp (List.mem_cons.not.mp hn)
    change (p.table.add ⟨.inr r, marked r⟩).2.get n = _
    rw [get_add, if_neg hne]
    exact h.others n hold

/-- What is given keeps its numbers from everything that is opened. -/
theorem Holds.not_owned (h : Holds given marked p) {n : Nat} (hn : given n ≠ none) :
    n ∉ p.owned.map Prod.snd := by
  intro hmem
  obtain ⟨⟨r, m⟩, hentry, rfl⟩ := List.mem_map.mp hmem
  exact hn (h.owned r m hentry).1

/-- Another program is left what was given, where nothing unmarked has been kept. -/
theorem Holds.exec (h : Holds given marked p) (hmarked : ∀ r ∈ p.names, marked r = true)
    (n : Nat) : p.table.exec.get n = (given n).filter (!·.cloexec) := by
  rw [get_exec]
  by_cases hn : n ∈ p.owned.map Prod.snd
  · obtain ⟨⟨r, m⟩, hentry, rfl⟩ := List.mem_map.mp hn
    obtain ⟨hgiven, hopened⟩ := h.owned r m hentry
    rw [hgiven, hopened, Option.filter_some, hmarked r (List.mem_map_of_mem hentry)]
    rfl
  · rw [h.others n hn]

/-- A child finds its standard descriptors and what was given to the process itself. -/
theorem Holds.spawn (h : Holds given marked p) (hmarked : ∀ r ∈ p.names, marked r = true)
    {stdio : List (Option (κ ⊕ ρ) × (κ ⊕ ρ))} (hgiven : ∀ n < stdio.length, given n ≠ none)
    (n : Nat) : (p.table.spawn stdio).get n =
      (stdio[n]?.map fun ends => ⟨ends.2, false⟩).or ((given n).filter (!·.cloexec)) := by
  have hopen : ∀ n < stdio.length, p.table.get n ≠ none := by
    intro n hn
    rw [h.others n (h.not_owned (hgiven n hn))]
    exact hgiven n hn
  rw [get_spawn hopen, ← get_exec, h.exec hmarked]

variable [DecidableEq ρ]

/-- The variable that goes is one entry, and the others stay. -/
theorem lookup_forget {r : ρ} {n : Nat} (h : p.owned.lookup r = some n) :
    (r, n) ∈ p.owned ∧ p.owned.Perm ((r, n) :: (p.forget r).owned) := by
  obtain ⟨front, back, hsplit, hfront⟩ := List.lookup_eq_some_iff.mp h
  have hother : ∀ entry ∈ front, ¬(entry.1 == r) = true := by
    intro entry hentry heq
    have hne := hfront entry hentry
    rw [beq_iff_eq] at heq
    simp [heq] at hne
  have herase : (p.forget r).owned = front ++ back := by
    rw [Process.forget, hsplit, List.eraseP_append_right _ hother,
      List.eraseP_cons_of_pos (by simp)]
  rw [herase, hsplit]
  exact ⟨by simp, List.perm_middle⟩

theorem Holds.drop (h : Holds given marked p) (r : ρ) : Holds given marked (p.drop r) := by
  unfold Process.drop
  split
  · next n hlookup =>
      obtain ⟨hmem, hperm⟩ := lookup_forget hlookup
      have hnodup := (hperm.map Prod.snd).nodup_iff.mp h.nodup
      rw [List.map_cons, List.nodup_cons] at hnodup
      refine ⟨hnodup.2, ?_, ?_⟩
      · intro r' m hentry
        have hkept : (r', m) ∈ (p.forget r).owned := hentry
        have hne : m ≠ n := by
          rintro rfl
          exact hnodup.1 (List.mem_map.mpr ⟨_, hkept, rfl⟩)
        change _ ∧ (p.table.close n).get m = _
        rw [get_close, if_neg hne]
        exact h.owned r' m (hperm.symm.subset (List.mem_cons_of_mem _ hkept))
      · intro m hm
        change (p.table.close n).get m = _
        rw [get_close]
        split
        · next heq => rw [heq, (h.owned r n hmem).1]
        · next hne =>
            refine h.others m fun hold => ?_
            rcases List.mem_cons.mp ((hperm.map Prod.snd).subset hold) with heq | hrest
            · exact hne heq
            · exact hm hrest
  · exact h

/-- A copy onto a number that was given takes its place. -/
theorem Holds.dup2 (h : Holds given marked p) {r : ρ} {new : Nat} (hnew : given new ≠ none)
    (hr : r ∈ p.names) :
    Holds (Function.update given new (some ⟨.inr r, false⟩)) marked (p.dup2 r new) := by
  have hfree := h.not_owned hnew
  unfold Process.dup2
  split
  · next n hlookup =>
      obtain ⟨hmem, -⟩ := lookup_forget hlookup
      have hne : n ≠ new := fun heq => hfree (heq ▸ List.mem_map_of_mem hmem)
      have hdup : p.table.dup2 n new = some (p.table.put new (some ⟨.inr r, false⟩)) := by
        rw [Table.dup2, (h.owned r n hmem).2, Option.map_some, if_neg hne]
      rw [hdup, Option.getD_some]
      refine ⟨h.nodup, ?_, ?_⟩
      · intro r' m hentry
        have hother : m ≠ new := fun heq => hfree (heq ▸ List.mem_map_of_mem hentry)
        rw [Function.update_of_ne hother, get_put, if_neg hother]
        exact h.owned r' m hentry
      · intro m hm
        rw [get_put]
        split
        · next heq => rw [heq, Function.update_self]
        · next hother => rw [Function.update_of_ne hother, h.others m hm]
  · next hnone =>
      obtain ⟨n, hsome⟩ := exists_number hr
      cases hnone.symm.trans hsome

end holds

end Descriptors
