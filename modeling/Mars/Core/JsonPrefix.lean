import Mars.Core.JsonPretty

/-! # What stands behind a JSON text

Text behind a value changes nothing about how the value is read, unless the value
is a number or a name that goes on in it. So a whole object or array with anything
but blanks behind it is no JSON text, and neither is the front part of one.
-/

namespace JsonRead

variable {fuel fuel' : Nat} {text rest more : List Char}

theorem skip_append (h : skip text ≠ []) : skip (text ++ more) = skip text ++ more := by
  unfold skip at h ⊢
  rw [List.dropWhile_append, if_neg]
  simpa using h

theorem hexUnit_append {unit : Nat} (h : hexUnit text = some (unit, rest)) :
    hexUnit (text ++ more) = some (unit, rest ++ more) := by
  match text, h with
  | a :: b :: c :: d :: tail, h =>
      simp only [hexUnit, Option.bind_eq_bind, Option.bind_eq_some_iff, List.cons_append,
        Option.some.injEq, Prod.mk.injEq] at h ⊢
      obtain ⟨a', ha, b', hb, c', hc, d', hd, hunit, rfl⟩ := h
      exact ⟨a', ha, b', hb, c', hc, d', hd, hunit, rfl⟩

theorem readUnicode_append {c : Char} (h : readUnicode text = some (c, rest)) :
    readUnicode (text ++ more) = some (c, rest ++ more) := by
  obtain ⟨⟨unit, tail⟩, hunit, hc⟩ := Option.bind_eq_some_iff.mp h
  rw [readUnicode, hexUnit_append hunit, Option.bind_eq_bind, Option.bind_some]
  dsimp only at hc ⊢
  split at hc
  next hplain =>
    cases hc
    exact if_pos hplain
  next hpair =>
    rw [if_neg hpair]
    split at hc
    next => cases hc
    next hhigh =>
      rw [if_neg hhigh]
      split at hc
      next low =>
        obtain ⟨⟨unit', tail'⟩, hlow, hlast⟩ := Option.bind_eq_some_iff.mp hc
        simp only [List.cons_append, hexUnit_append hlow, Option.bind_some]
        dsimp only at hlast
        split at hlast
        next hin =>
          obtain ⟨hc', rfl⟩ := Prod.mk.inj (Option.some.inj hlast)
          rw [if_pos hin, hc']
        next => cases hlast
      next => cases hc

theorem readChar_append {c : Char} (h : readChar text = some (c, rest)) :
    readChar (text ++ more) = some (c, rest ++ more) := by
  cases text with
  | nil => cases h
  | cons first tail =>
      rw [List.cons_append, readChar.eq_def]
      rw [readChar.eq_def] at h
      dsimp only at h ⊢
      split at h
      next hslash =>
        rw [if_pos hslash]
        cases tail with
        | nil => cases h
        | cons kind tail =>
            simp only [List.cons_append] at h ⊢
            split at h
            next hu =>
              rw [if_pos hu]
              exact readUnicode_append h
            next hu =>
              rw [if_neg hu]
              obtain ⟨c', hc', heq⟩ := Option.map_eq_some_iff.mp h
              cases heq
              rw [hc']
              rfl
      next hslash =>
        rw [if_neg hslash]
        split at h
        next => cases h
        next hplain =>
          cases h
          exact if_neg hplain

theorem readChars_append {chars : List Char} (hfuel : fuel ≤ fuel')
    (h : readChars fuel text = some (chars, rest)) :
    readChars fuel' (text ++ more) = some (chars, rest ++ more) := by
  induction fuel generalizing fuel' text chars with
  | zero => cases h
  | succ n ih =>
      obtain ⟨m, rfl⟩ : ∃ m, fuel' = m + 1 := ⟨fuel' - 1, by omega⟩
      rw [readChars.eq_def] at h ⊢
      dsimp only at h ⊢
      split at h
      next tail =>
        cases h
        rfl
      next hquote =>
        obtain ⟨⟨c, tail⟩, hc, hrest⟩ := Option.bind_eq_some_iff.mp h
        obtain ⟨⟨chars', tail'⟩, hchars, hlast⟩ := Option.bind_eq_some_iff.mp hrest
        cases hlast
        have hopen : ∀ other, text ++ more ≠ '"' :: other := by
          intro other heq
          cases text with
          | nil => cases hc
          | cons first others =>
              obtain ⟨rfl, -⟩ := List.cons.inj heq
              exact hquote others rfl
        split
        next other heq => exact absurd heq (hopen other)
        next =>
          rw [readChar_append hc, Option.bind_eq_bind, Option.bind_some]
          dsimp only
          rw [ih (Nat.le_of_succ_le_succ hfuel) hchars]
          rfl

theorem readString_append {found : String} (h : readString text = some (found, rest)) :
    readString (text ++ more) = some (found, rest ++ more) := by
  obtain ⟨⟨chars, tail⟩, hchars, heq⟩ := Option.map_eq_some_iff.mp h
  cases heq
  have hfuel : text.length ≤ (text ++ more).length := by
    rw [List.length_append]
    omega
  rw [readString, readChars_append hfuel hchars]
  rfl

/-- Where something stands behind a number or a name, it ends there. -/
theorem readScalar_append {value : Value} (hrest : rest ≠ [])
    (h : readScalar text = some (value, rest)) :
    readScalar (text ++ more) = some (value, rest ++ more) := by
  have hdrop : text.dropWhile isWord = rest := by
    unfold readScalar at h
    dsimp only at h
    split at h
    next =>
      cases h
      rfl
    next =>
      split at h
      next =>
        cases h
        rfl
      next => cases h
  have htext : text = text.takeWhile isWord ++ rest := by
    rw [← hdrop, List.takeWhile_append_dropWhile]
  have hstop : Stops (rest ++ more) := by
    cases rest with
    | nil => exact absurd rfl hrest
    | cons c tail =>
        rintro _ ⟨⟩
        have hhead := List.head_dropWhile_not isWord (l := text) (by simp [hdrop])
        simpa [hdrop] using hhead
  have hword := @takeWhile_word (text.takeWhile isWord) (rest ++ more)
    (fun _ => List.mem_takeWhile_imp) hstop
  rw [← List.append_assoc, ← htext] at hword
  unfold readScalar at h ⊢
  dsimp only at h ⊢
  simp only [hword.1, hword.2]
  split at h
  next found hnamed =>
    cases h
    rfl
  next hnamed =>
    split at h
    next hnumeral =>
      cases h
      exact dif_pos hnumeral
    next => cases h

/-! ## Values -/

/-- Such a value has an end of its own. -/
def Value.Closed : Value → Prop
  | .string _ | .array _ | .object _ => True
  | _ => False

theorem skip_cons_ne_nil {c : Char} (h : skip text = c :: rest) : skip text ≠ [] :=
  h ▸ List.cons_ne_nil c rest

theorem skip_cons_append {c : Char} (h : skip text = c :: rest) (more : List Char) :
    skip (text ++ more) = skip (c :: (rest ++ more)) := by
  have hc : isSpace c = false := by
    have hhead := List.head_dropWhile_not isSpace (l := text) (skip_cons_ne_nil h)
    simp only [← skip.eq_def, h, List.head_cons] at hhead
    simpa using hhead
  rw [skip_append (skip_cons_ne_nil h), h, List.cons_append, skip_cons hc]

/-- How the four readers take a text with something behind it, with this much fuel. -/
structure Stable (fuel : Nat) : Prop where
  value : ∀ {fuel' text value rest more}, fuel ≤ fuel' → (rest ≠ [] ∨ Value.Closed value) →
    readValue fuel text = some (value, rest) →
    readValue fuel' (text ++ more) = some (value, rest ++ more)
  items : ∀ {fuel' text items rest more}, fuel ≤ fuel' → readItems fuel text = some (items, rest) →
    readItems fuel' (text ++ more) = some (items, rest ++ more)
  member : ∀ {fuel' text member rest more}, fuel ≤ fuel' → rest ≠ [] →
    readMember fuel text = some (member, rest) →
    readMember fuel' (text ++ more) = some (member, rest ++ more)
  members : ∀ {fuel' text members rest more}, fuel ≤ fuel' →
    readMembers fuel text = some (members, rest) →
    readMembers fuel' (text ++ more) = some (members, rest ++ more)

theorem readItems_nil (fuel : Nat) : readItems fuel [] = none := by
  cases fuel <;> rfl

theorem readMembers_nil (fuel : Nat) : readMembers fuel [] = none := by
  cases fuel <;> rfl

theorem readItems_append (h : Stable fuel) {items : List Value} (hfuel : fuel + 1 ≤ fuel')
    (hread : readItems (fuel + 1) text = some (items, rest)) :
    readItems fuel' (text ++ more) = some (items, rest ++ more) := by
  obtain ⟨m, rfl⟩ : ∃ m, fuel' = m + 1 := ⟨fuel' - 1, by omega⟩
  have hle : fuel ≤ m := by omega
  rw [readItems] at hread
  split at hread
  next tail hskip =>
    cases hread
    rw [readItems_skip (skip_cons_append hskip more)]
    rfl
  next tail hskip =>
    obtain ⟨⟨item, behind⟩, hitem, hlater⟩ := Option.bind_eq_some_iff.mp hread
    obtain ⟨⟨others, last⟩, hothers, heq⟩ := Option.bind_eq_some_iff.mp hlater
    cases heq
    have hbehind : behind ≠ [] := by
      rintro rfl
      rw [readItems_nil] at hothers
      cases hothers
    rw [readItems_skip (skip_cons_append hskip more), readItems_next,
      h.value hle (.inl hbehind) hitem, Option.bind_eq_bind, Option.bind_some]
    dsimp only
    rw [h.items hle hothers]
    rfl
  next => cases hread

theorem readMember_append (h : Stable fuel) {member : String × Value} (hfuel : fuel + 1 ≤ fuel')
    (hrest : rest ≠ []) (hread : readMember (fuel + 1) text = some (member, rest)) :
    readMember fuel' (text ++ more) = some (member, rest ++ more) := by
  obtain ⟨m, rfl⟩ : ∃ m, fuel' = m + 1 := ⟨fuel' - 1, by omega⟩
  have hle : fuel ≤ m := by omega
  rw [readMember] at hread
  split at hread
  next tail hskip =>
    obtain ⟨⟨key, behind⟩, hkey, hlater⟩ := Option.bind_eq_some_iff.mp hread
    dsimp only at hlater
    split at hlater
    next last hcolon =>
      obtain ⟨⟨value, behind'⟩, hvalue, heq⟩ := Option.bind_eq_some_iff.mp hlater
      cases heq
      have hname : skip (behind ++ more) = ':' :: (last ++ more) :=
        (skip_cons_append hcolon more).trans (skip_cons rfl _)
      rw [readMember_skip (skip_cons_append hskip more)]
      change (readString (tail ++ more)).bind _ = _
      rw [readString_append hkey, Option.bind_some]
      dsimp only
      rw [hname]
      change (readValue m (last ++ more)).bind _ = _
      rw [h.value hle (.inl hrest) hvalue]
      rfl
    next => cases hlater
  next => cases hread

theorem readMembers_append (h : Stable fuel) {members : List (String × Value)}
    (hfuel : fuel + 1 ≤ fuel') (hread : readMembers (fuel + 1) text = some (members, rest)) :
    readMembers fuel' (text ++ more) = some (members, rest ++ more) := by
  obtain ⟨m, rfl⟩ : ∃ m, fuel' = m + 1 := ⟨fuel' - 1, by omega⟩
  have hle : fuel ≤ m := by omega
  rw [readMembers] at hread
  split at hread
  next tail hskip =>
    cases hread
    rw [readMembers_skip (skip_cons_append hskip more)]
    rfl
  next tail hskip =>
    obtain ⟨⟨first, behind⟩, hfirst, hlater⟩ := Option.bind_eq_some_iff.mp hread
    obtain ⟨⟨others, last⟩, hothers, heq⟩ := Option.bind_eq_some_iff.mp hlater
    cases heq
    have hbehind : behind ≠ [] := by
      rintro rfl
      rw [readMembers_nil] at hothers
      cases hothers
    rw [readMembers_skip (skip_cons_append hskip more), readMembers_next,
      h.member hle hbehind hfirst, Option.bind_eq_bind, Option.bind_some]
    dsimp only
    rw [h.members hle hothers]
    rfl
  next => cases hread

theorem readValue_items (h : ∀ tail, skip text ≠ ']' :: tail) :
    readValue (fuel + 1) ('[' :: text) = (do
      let (item, rest) ← readValue fuel (skip text)
      let (items, rest) ← readItems fuel rest
      some (.array (item :: items), rest)) := by
  have hbracket : skip ('[' :: text) = '[' :: text := skip_cons rfl _
  rw [readValue, hbracket]
  split
  next heq => simp at heq
  next heq =>
    obtain ⟨-, rfl⟩ := List.cons.inj heq
    split
    next tail hclose => exact absurd hclose (h tail)
    next => rfl
  next heq => simp at heq
  next harray _ => exact absurd rfl (harray text)

theorem readValue_members (h : ∀ tail, skip text ≠ '\x7d' :: tail) :
    readValue (fuel + 1) ('\x7b' :: text) = (do
      let (first, rest) ← readMember fuel (skip text)
      let (members, rest) ← readMembers fuel rest
      some (.object (first :: members), rest)) := by
  have hbrace : skip ('\x7b' :: text) = '\x7b' :: text := skip_cons rfl _
  rw [readValue, hbrace]
  split
  next heq => simp at heq
  next heq => simp at heq
  next heq =>
    obtain ⟨-, rfl⟩ := List.cons.inj heq
    split
    next tail hclose => exact absurd hclose (h tail)
    next => rfl
  next hother => exact absurd rfl (hother text)

/-- What the front of a text does not begin with, the whole does not begin with. -/
theorem not_head_append {c : Char} (hne : skip text ≠ []) (h : ∀ tail, skip text ≠ c :: tail)
    (tail : List Char) : skip (text ++ more) ≠ c :: tail := by
  rw [skip_append hne]
  intro heq
  cases hskip : skip text with
  | nil => exact hne hskip
  | cons d others =>
      rw [hskip] at heq
      obtain ⟨rfl, -⟩ := List.cons.inj heq
      exact h others hskip

theorem readValue_nil (fuel : Nat) : readValue fuel [] = none := by
  cases fuel <;> rfl

theorem readMember_nil (fuel : Nat) : readMember fuel [] = none := by
  cases fuel <;> rfl

theorem readScalar_open {value : Value} (h : readScalar text = some (value, rest)) :
    ¬value.Closed := by
  unfold readScalar at h
  dsimp only at h
  split at h
  next found hnamed =>
    cases h
    unfold named at hnamed
    split at hnamed
    next =>
      cases hnamed
      exact id
    next =>
      split at hnamed
      next =>
        cases hnamed
        exact id
      next =>
        split at hnamed
        next =>
          cases hnamed
          exact id
        next => cases hnamed
  next =>
    split at h
    next =>
      cases h
      exact id
    next => cases h

theorem readValue_append (h : Stable fuel) {value : Value} (hfuel : fuel + 1 ≤ fuel')
    (hend : rest ≠ [] ∨ value.Closed) (hread : readValue (fuel + 1) text = some (value, rest)) :
    readValue fuel' (text ++ more) = some (value, rest ++ more) := by
  obtain ⟨m, rfl⟩ : ∃ m, fuel' = m + 1 := ⟨fuel' - 1, by omega⟩
  have hle : fuel ≤ m := by omega
  rw [readValue] at hread
  split at hread
  next tail hskip =>
    obtain ⟨⟨found, last⟩, hfound, heq⟩ := Option.map_eq_some_iff.mp hread
    cases heq
    rw [readValue_skip (skip_cons_append hskip more)]
    change (readString (tail ++ more)).map _ = _
    rw [readString_append hfound]
    rfl
  next tail hskip =>
    rw [readValue_skip (skip_cons_append hskip more)]
    split at hread
    next last hclose =>
      cases hread
      rw [readValue_array_skip (skip_cons_append hclose more)]
      rfl
    next hopen =>
      obtain ⟨⟨item, behind⟩, hitem, hlater⟩ := Option.bind_eq_some_iff.mp hread
      obtain ⟨⟨others, last⟩, hothers, heq⟩ := Option.bind_eq_some_iff.mp hlater
      cases heq
      have hsome : skip tail ≠ [] := by
        intro hnil
        rw [hnil, readValue_nil] at hitem
        cases hitem
      have hbehind : behind ≠ [] := by
        rintro rfl
        rw [readItems_nil] at hothers
        cases hothers
      rw [readValue_items (not_head_append hsome hopen), skip_append hsome,
        h.value hle (.inl hbehind) hitem, Option.bind_eq_bind, Option.bind_some]
      dsimp only
      rw [h.items hle hothers]
      rfl
  next tail hskip =>
    rw [readValue_skip (skip_cons_append hskip more)]
    split at hread
    next last hclose =>
      cases hread
      rw [readValue_object_skip (skip_cons_append hclose more)]
      rfl
    next hopen =>
      obtain ⟨⟨first, behind⟩, hfirst, hlater⟩ := Option.bind_eq_some_iff.mp hread
      obtain ⟨⟨others, last⟩, hothers, heq⟩ := Option.bind_eq_some_iff.mp hlater
      cases heq
      have hsome : skip tail ≠ [] := by
        intro hnil
        rw [hnil, readMember_nil] at hfirst
        cases hfirst
      have hbehind : behind ≠ [] := by
        rintro rfl
        rw [readMembers_nil] at hothers
        cases hothers
      rw [readValue_members (not_head_append hsome hopen), skip_append hsome,
        h.member hle hbehind hfirst, Option.bind_eq_bind, Option.bind_some]
      dsimp only
      rw [h.members hle hothers]
      rfl
  next hquote hbracket hbrace =>
    have hrest : rest ≠ [] := hend.resolve_right (readScalar_open hread)
    have hsome : skip text ≠ [] := by
      intro hnil
      rw [hnil] at hread
      cases hread
    rw [readValue]
    split
    next tail heq => exact absurd heq (not_head_append hsome hquote tail)
    next tail heq => exact absurd heq (not_head_append hsome hbracket tail)
    next tail heq => exact absurd heq (not_head_append hsome hbrace tail)
    next =>
      rw [skip_append hsome]
      exact readScalar_append hrest hread

theorem stable (fuel : Nat) : Stable fuel := by
  induction fuel with
  | zero =>
      refine ⟨?_, ?_, ?_, ?_⟩
      · intro _ _ _ _ _ _ _ h
        cases h
      · intro _ _ _ _ _ _ h
        cases h
      · intro _ _ _ _ _ _ _ h
        cases h
      · intro _ _ _ _ _ _ h
        cases h
  | succ n ih =>
      exact ⟨readValue_append ih, readItems_append ih, readMember_append ih, readMembers_append ih⟩

/-! ## Whole texts -/

/-- Behind an object or an array there is nothing but blanks. -/
theorem parse_append {value : Value} (h : parse text = some value) (hclosed : value.Closed)
    (hmore : skip more ≠ []) : parse (text ++ more) = none := by
  obtain ⟨⟨found, rest⟩, hread, hlast⟩ := Option.bind_eq_some_iff.mp h
  dsimp only at hlast
  split at hlast
  next hblank =>
    cases hlast
    have hfuel : text.length ≤ (text ++ more).length := by
      rw [List.length_append]
      omega
    have hbehind : skip (rest ++ more) ≠ [] := by
      unfold skip at hmore hblank ⊢
      rw [List.dropWhile_append, hblank]
      exact hmore
    rw [parse, (stable text.length).value hfuel (.inr hclosed) hread, Option.bind_eq_bind,
      Option.bind_some]
    exact if_neg hbehind
  next => cases hlast

end JsonRead
