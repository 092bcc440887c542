import Mathlib.Logic.Function.Basic

/-! # The namespaces of a process

A process has one namespace of each kind, and hands its children one. For some
kinds that is another one than its own, until it has children.
-/

namespace Namespaces

variable {Kind : Type} [DecidableEq Kind]

structure Spaces (Kind : Type) where
  own : Kind → Nat
  children : Kind → Nat

namespace Spaces

/-- A namespace of a delayed kind is entered by the children alone. -/
def enter (delayed : Kind → Bool) (s : Spaces Kind) (kind : Kind) (id : Nat) : Spaces Kind where
  own := if delayed kind then s.own else Function.update s.own kind id
  children := Function.update s.children kind id

def fork (s : Spaces Kind) : Spaces Kind := { s with own := s.children }

/-- Several namespaces entered one after another. -/
def enterAll (delayed : Kind → Bool) (s : Spaces Kind) (entries : List (Kind × Nat)) : Spaces Kind :=
  entries.foldl (fun s entry => s.enter delayed entry.1 entry.2) s

variable {delayed : Kind → Bool} {s : Spaces Kind} {kind other : Kind} {id : Nat}

@[simp] theorem children_enter_self : (s.enter delayed kind id).children kind = id := by
  simp [enter]

theorem children_enter_other (h : other ≠ kind) :
    (s.enter delayed kind id).children other = s.children other := by
  simp [enter, h]

/-- What the children get of a kind that is entered, and of one that is not. -/
theorem children_enterAll_not_mem {entries : List (Kind × Nat)} (h : kind ∉ entries.map Prod.fst) :
    (s.enterAll delayed entries).children kind = s.children kind := by
  induction entries generalizing s with
  | nil => rfl
  | cons entry rest ih =>
      rw [List.map_cons, List.mem_cons, not_or] at h
      show (enterAll delayed (s.enter delayed entry.1 entry.2) rest).children kind = _
      rw [ih h.2, children_enter_other h.1]

theorem children_enterAll {entries : List (Kind × Nat)} (hmem : kind ∈ entries.map Prod.fst)
    (hsame : ∀ entry ∈ entries, entry.1 = kind → entry.2 = id) :
    (s.enterAll delayed entries).children kind = id := by
  induction entries generalizing s with
  | nil => cases hmem
  | cons entry rest ih =>
      show (enterAll delayed (s.enter delayed entry.1 entry.2) rest).children kind = _
      by_cases hrest : kind ∈ rest.map Prod.fst
      · exact ih hrest fun e he => hsame e (List.mem_cons_of_mem entry he)
      · rw [children_enterAll_not_mem hrest]
        have hentry : kind = entry.1 := by
          rcases List.mem_cons.mp hmem with heq | hmem
          · exact heq
          · exact absurd hmem hrest
        rw [hentry, children_enter_self]
        exact hsame entry List.mem_cons_self hentry.symm

end Spaces

end Namespaces
