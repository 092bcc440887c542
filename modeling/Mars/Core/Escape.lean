import Mathlib.Data.List.Basic

/-! # Lists of texts in one text

The items of a list stand in one text with a separator between them. `escape`
puts a mark before every mark and every separator of an item, and `scan` reads
the items back, keeping what follows a mark as it is.
-/

namespace Escape

variable {α : Type} [DecidableEq α]

/-- Every occurrence of `c` becomes `text`. -/
def replace (c : α) (text : List α) (within : List α) : List α :=
  within.flatMap fun d => if d = c then text else [d]

/-- The marks first, so that the marks put before separators stay single. -/
def escape (mark sep : α) (item : List α) : List α :=
  replace sep [mark, sep] (replace mark [mark, mark] item)

/-- A mark at the very end stands for nothing. -/
def scan (mark sep : α) (current : List α) : List α → List (List α)
  | [] => [current]
  | c :: rest =>
      if c = mark then
        match rest with
        | [] => [current]
        | escaped :: rest => scan mark sep (current ++ [escaped]) rest
      else if c = sep then current :: scan mark sep [] rest
      else scan mark sep (current ++ [c]) rest

variable {mark sep : α}

/-! ## One pass -/

theorem replace_append (c : α) (text front back : List α) :
    replace c text (front ++ back) = replace c text front ++ replace c text back :=
  List.flatMap_append

/-! ## Both passes -/

@[simp] theorem escape_nil : escape mark sep ([] : List α) = [] := rfl

theorem escape_append (front back : List α) :
    escape mark sep (front ++ back) = escape mark sep front ++ escape mark sep back := by
  simp only [escape, replace_append]

/-- The second pass leaves alone what the first one put in. -/
theorem escape_cons (h : mark ≠ sep) (c : α) (rest : List α) :
    escape mark sep (c :: rest) =
      (if c = mark ∨ c = sep then [mark, c] else [c]) ++ escape mark sep rest := by
  have hsingle : escape mark sep [c] = if c = mark ∨ c = sep then [mark, c] else [c] := by
    by_cases hmark : c = mark
    · simp [escape, replace, hmark, h]
    · by_cases hsep : c = sep
      · simp [escape, replace, hsep, h.symm]
      · simp [escape, replace, hmark, hsep]
  rw [← hsingle, ← escape_append, List.singleton_append]

theorem mem_escape (h : mark ≠ sep) {d : α} (hd : d ≠ mark) {item : List α} :
    d ∈ escape mark sep item ↔ d ∈ item := by
  induction item with
  | nil => simp
  | cons c rest ih =>
      rw [escape_cons h, List.mem_append, List.mem_cons, ih]
      split <;> simp [hd]

/-! ## Reading back -/

theorem scan_mark (current : List α) (c : α) (rest : List α) :
    scan mark sep current (mark :: c :: rest) = scan mark sep (current ++ [c]) rest := by
  simp [scan]

theorem scan_sep (h : mark ≠ sep) (current rest : List α) :
    scan mark sep current (sep :: rest) = current :: scan mark sep [] rest := by
  cases rest <;> simp [scan, h.symm]

theorem scan_plain {c : α} (hmark : c ≠ mark) (hsep : c ≠ sep) (current rest : List α) :
    scan mark sep current (c :: rest) = scan mark sep (current ++ [c]) rest := by
  cases rest <;> simp [scan, hmark, hsep]

/-- Whatever an item holds, the scanner takes it in whole and waits for no
symbol behind it. -/
theorem scan_escape (h : mark ≠ sep) (current item rest : List α) :
    scan mark sep current (escape mark sep item ++ rest) =
      scan mark sep (current ++ item) rest := by
  induction item generalizing current with
  | nil => simp
  | cons c tail ih =>
      have hnext : scan mark sep current (escape mark sep (c :: tail) ++ rest) =
          scan mark sep (current ++ [c]) (escape mark sep tail ++ rest) := by
        rw [escape_cons h, List.append_assoc]
        split
        next => exact scan_mark current c _
        next hplain =>
          push Not at hplain
          exact scan_plain hplain.1 hplain.2 current _
      rw [hnext, ih, List.append_assoc, List.singleton_append]

/-- The items come back, however many there are. -/
theorem scan_intercalate (h : mark ≠ sep) {items : List (List α)} (hitems : items ≠ []) :
    scan mark sep [] ([sep].intercalate (items.map (escape mark sep))) = items := by
  induction items with
  | nil => exact absurd rfl hitems
  | cons item rest ih =>
      cases rest with
      | nil =>
          have hlast := scan_escape h [] item []
          simpa [scan] using hlast
      | cons second others =>
          have hrest := ih (List.cons_ne_nil second others)
          rw [List.map_cons, List.intercalate_cons_of_ne_nil (by simp), List.append_assoc,
            scan_escape h, List.nil_append, List.singleton_append, scan_sep h, hrest]

end Escape
