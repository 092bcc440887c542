import Mathlib.Data.List.Basic

/-! # Texts that say where they end

`Reads text key` says that from the front of any text that begins with one of
the texts, `key` and the rest can be told. Such texts can be put one after the
other; a text that does not say where it ends can be given a symbol that stops it.
-/

namespace PrefixCode

variable {σ α β κ μ : Type} {text other : α → List σ} {key : α → κ} {stop : σ}

def Reads (text : α → List σ) (key : α → κ) : Prop :=
  ∀ ⦃a b : α⦄ ⦃s t : List σ⦄, text a ++ s = text b ++ t → key a = key b ∧ s = t

theorem reads_const (front : List σ) : Reads (fun _ : α => front) fun _ => () :=
  fun _ _ _ _ h => ⟨rfl, List.append_cancel_left h⟩

theorem Reads.comp (h : Reads text key) (f : β → α) :
    Reads (fun b => text (f b)) fun b => key (f b) :=
  fun _ _ _ _ heq => h heq

theorem Reads.append {more : α → μ} (h : Reads text key) (hother : Reads other more) :
    Reads (fun a => text a ++ other a) fun a => (key a, more a) := by
  intro a b s t heq
  rw [List.append_assoc, List.append_assoc] at heq
  obtain ⟨hkey, hrest⟩ := h heq
  obtain ⟨hmore, hlast⟩ := hother hrest
  exact ⟨Prod.ext hkey hmore, hlast⟩

/-- What is told may determine more. -/
theorem Reads.of_key {more : α → μ} (h : Reads text key)
    (hmore : ∀ a b, key a = key b → more a = more b) : Reads text more := by
  intro a b s t heq
  obtain ⟨hkey, hrest⟩ := h heq
  exact ⟨hmore a b hkey, hrest⟩

/-- No text is the beginning of another one. -/
theorem reads_of_prefix (h : ∀ a b, text a <+: text b → a = b) : Reads text id := by
  intro a b s t heq
  have hsame : a = b := by
    rcases List.append_eq_append_iff.mp heq with ⟨tail, hb, -⟩ | ⟨tail, ha, -⟩
    · exact h a b ⟨tail, hb.symm⟩
    · exact (h b a ⟨tail, ha.symm⟩).symm
  subst hsame
  exact ⟨rfl, List.append_cancel_left heq⟩

theorem Reads.eq_of_front (h : Reads text id) {a b : α} (hfront : text a <+: text b) : a = b := by
  obtain ⟨tail, htail⟩ := hfront
  have heq : text a ++ tail = text b ++ [] := by rw [htail, List.append_nil]
  exact (h heq).1

/-- A first part that tells of which kind the rest is. -/
theorem Reads.tagged {kind : Type} {head : kind → List σ} {tag : α → kind} {body : α → List σ}
    (h : Reads head id)
    (hbody : ∀ ⦃a b s t⦄, tag a = tag b → body a ++ s = body b ++ t → key a = key b ∧ s = t) :
    Reads (fun a => head (tag a) ++ body a) key := by
  intro a b s t heq
  rw [List.append_assoc, List.append_assoc] at heq
  obtain ⟨htag, hrest⟩ := h heq
  exact hbody htag hrest

/-- The first stop ends the text. -/
theorem eq_of_stopped {front front' tail tail' : List σ} (hfront : stop ∉ front)
    (hfront' : stop ∉ front') (heq : front ++ stop :: tail = front' ++ stop :: tail') :
    front = front' ∧ tail = tail' := by
  induction front generalizing front' with
  | nil =>
      cases front' with
      | nil => exact ⟨rfl, (List.cons.inj heq).2⟩
      | cons x rest =>
          obtain rfl : stop = x := (List.cons.inj heq).1
          exact absurd List.mem_cons_self hfront'
  | cons x rest ih =>
      cases front' with
      | nil =>
          obtain rfl : x = stop := (List.cons.inj heq).1
          exact absurd List.mem_cons_self hfront
      | cons y rest' =>
          obtain ⟨hxy, hrest⟩ := List.cons.inj heq
          rw [List.mem_cons, not_or] at hfront hfront'
          obtain ⟨hsame, htail⟩ := ih hfront.2 hfront'.2 hrest
          exact ⟨by rw [hxy, hsame], htail⟩

theorem reads_stopped (hkey : ∀ a b, text a = text b → key a = key b)
    (hstop : ∀ a, stop ∉ text a) : Reads (fun a => text a ++ [stop]) key := by
  intro a b s t heq
  simp only [List.append_assoc, List.singleton_append] at heq
  obtain ⟨hsame, hrest⟩ := eq_of_stopped (hstop a) (hstop b) heq
  exact ⟨hkey a b hsame, hrest⟩

/-- One after the other, up to a symbol that none of them begins with. -/
theorem Reads.flatMap (h : Reads text id)
    (hstop : ∀ a, ∃ first rest, text a = first :: rest ∧ first ≠ stop) :
    Reads (fun items : List α => items.flatMap text ++ [stop]) id := by
  intro items others s t heq
  induction items generalizing others with
  | nil =>
      cases others with
      | nil => exact ⟨rfl, by simpa using heq⟩
      | cons b rest =>
          obtain ⟨first, tail, hb, hne⟩ := hstop b
          simp only [List.flatMap_nil, List.flatMap_cons, hb, List.nil_append, List.cons_append,
            List.cons.injEq] at heq
          exact absurd heq.1.symm hne
  | cons a rest ih =>
      cases others with
      | nil =>
          obtain ⟨first, tail, ha, hne⟩ := hstop a
          simp only [List.flatMap_nil, List.flatMap_cons, ha, List.nil_append, List.cons_append,
            List.cons.injEq] at heq
          exact absurd heq.1 hne
      | cons b later =>
          simp only [List.flatMap_cons, List.append_assoc] at heq
          obtain ⟨hsame, hrest⟩ := h heq
          rw [← List.append_assoc, ← List.append_assoc] at hrest
          obtain ⟨hlater, hlast⟩ := ih hrest
          exact ⟨by rw [show a = b from hsame, show rest = later from hlater], hlast⟩

end PrefixCode
