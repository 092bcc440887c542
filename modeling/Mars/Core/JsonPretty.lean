import Mars.Core.JsonRead

/-! # Pretty-printed JSON

Every item and every member on a line of its own, indented by its depth; a blank
behind each colon; an array or object with nothing in it on one line. The reader
gives such a text back as it gives back the compact one.
-/

namespace JsonRead

/-- A line break and the indentation of the next line. -/
def newline (depth : Nat) : List Char := '\n' :: List.replicate (2 * depth) ' '

mutual

def pretty (form : Char → List Char) (depth : Nat) : Value → List Char
  | .array (item :: items) =>
      '[' :: (newline (depth + 1) ++ (pretty form (depth + 1) item ++
        prettyItems form depth items))
  | .object ((key, value) :: members) =>
      '\x7b' :: (newline (depth + 1) ++ (literal form key ++ ':' :: ' ' ::
        (pretty form (depth + 1) value ++ prettyMembers form depth members)))
  | .null => print form .null
  | .bool b => print form (.bool b)
  | .number n => print form (.number n)
  | .string text => print form (.string text)
  | .array [] => print form (.array [])
  | .object [] => print form (.object [])

def prettyItems (form : Char → List Char) (depth : Nat) : List Value → List Char
  | [] => newline depth ++ [']']
  | item :: items =>
      ',' :: (newline (depth + 1) ++ (pretty form (depth + 1) item ++
        prettyItems form depth items))

def prettyMembers (form : Char → List Char) (depth : Nat) : List (String × Value) → List Char
  | [] => newline depth ++ ['\x7d']
  | (key, value) :: members =>
      ',' :: (newline (depth + 1) ++ (literal form key ++ ':' :: ' ' ::
        (pretty form (depth + 1) value ++ prettyMembers form depth members)))

end

section last
variable {form : Char → List Char}

theorem prettyMembers_getLast? (depth : Nat) (members : List (String × Value)) :
    (prettyMembers form depth members).getLast? = some '\x7d' := by
  induction members with
  | nil => simp [prettyMembers]
  | cons member rest ih =>
      obtain ⟨key, value⟩ := member
      have hlast := @List.getLast?_append _ (',' :: (newline (depth + 1) ++
        (literal form key ++ ':' :: ' ' :: pretty form (depth + 1) value)))
        (prettyMembers form depth rest)
      rw [ih] at hlast
      rw [prettyMembers]
      simpa using hlast

theorem pretty_object_getLast? (depth : Nat) (members : List (String × Value)) :
    (pretty form depth (.object members)).getLast? = some '\x7d' := by
  cases members with
  | nil => rfl
  | cons member rest =>
      obtain ⟨key, value⟩ := member
      have hlast := @List.getLast?_append _ ('\x7b' :: (newline (depth + 1) ++
        (literal form key ++ ':' :: ' ' :: pretty form (depth + 1) value)))
        (prettyMembers form depth rest)
      rw [prettyMembers_getLast?] at hlast
      rw [pretty]
      simpa using hlast

end last

/-! ## Blanks -/

theorem skip_newline (depth : Nat) (text : List Char) : skip (newline depth ++ text) = skip text := by
  have hblanks : ∀ n, skip (List.replicate n ' ' ++ text) = skip text := by
    intro n
    induction n with
    | zero => rfl
    | succ n ih => exact ih
  exact hblanks (2 * depth)

section blanks
variable {text text' : List Char} {fuel : Nat}

theorem readValue_skip (h : skip text = skip text') :
    readValue fuel text = readValue fuel text' := by
  cases fuel with
  | zero => rfl
  | succ n => rw [readValue, readValue, h]

theorem readItems_skip (h : skip text = skip text') :
    readItems fuel text = readItems fuel text' := by
  cases fuel with
  | zero => rfl
  | succ n => rw [readItems, readItems, h]

theorem readMember_skip (h : skip text = skip text') :
    readMember fuel text = readMember fuel text' := by
  cases fuel with
  | zero => rfl
  | succ n => rw [readMember, readMember, h]

theorem readMembers_skip (h : skip text = skip text') :
    readMembers fuel text = readMembers fuel text' := by
  cases fuel with
  | zero => rfl
  | succ n => rw [readMembers, readMembers, h]

theorem readValue_array_skip (h : skip text = skip text') :
    readValue (fuel + 1) ('[' :: text) = readValue (fuel + 1) ('[' :: text') := by
  rw [readValue, readValue, skip_cons rfl, skip_cons rfl]
  simp only [h]

theorem readValue_object_skip (h : skip text = skip text') :
    readValue (fuel + 1) ('\x7b' :: text) = readValue (fuel + 1) ('\x7b' :: text') := by
  rw [readValue, readValue, skip_cons rfl, skip_cons rfl]
  simp only [h]

end blanks

/-! ## Reading what was written -/

section Written

variable {form : Char → List Char} {ok : Char → Bool}

theorem opens_pretty (depth : Nat) (v : Value) : Opens (pretty form depth v) := by
  cases v with
  | array items =>
      cases items with
      | nil => exact opens_print (.array [])
      | cons item items => exact ⟨_, _, by rw [pretty], rfl, by decide, by decide⟩
  | object members =>
      cases members with
      | nil => exact opens_print (.object [])
      | cons m members => exact ⟨_, _, by rw [pretty], rfl, by decide, by decide⟩
  | _ =>
      rw [pretty]
      exact opens_print _

theorem stops_newline (depth : Nat) (rest : List Char) : Stops (newline depth ++ rest) := by
  rintro c ⟨⟩
  rfl

theorem stops_prettyItems (depth : Nat) (items : List Value) (rest : List Char) :
    Stops (prettyItems form depth items ++ rest) := by
  cases items with
  | nil =>
      rw [prettyItems, List.append_assoc]
      exact stops_newline depth _
  | cons item items =>
      rw [prettyItems]
      rintro c ⟨⟩
      rfl

theorem stops_prettyMembers (depth : Nat) (members : List (String × Value)) (rest : List Char) :
    Stops (prettyMembers form depth members ++ rest) := by
  cases members with
  | nil =>
      rw [prettyMembers, List.append_assoc]
      exact stops_newline depth _
  | cons m members =>
      rw [prettyMembers]
      rintro c ⟨⟩
      rfl

theorem readMember_pretty (h : Readable form ok) (key : String) {value : Value} {depth fuel : Nat}
    {rest : List Char} (hvalue : readValue fuel (pretty form depth value ++ rest) =
      answer (value.all ok) value rest) :
    readMember (fuel + 1) (literal form key ++ ':' :: ' ' :: (pretty form depth value ++ rest)) =
      answer (key.toList.all ok && value.all ok) (key, value) rest := by
  have hblank : readValue fuel (' ' :: (pretty form depth value ++ rest)) =
      readValue fuel (pretty form depth value ++ rest) := readValue_skip rfl
  rw [readMember_key, readString_literal h]
  apply answer_bind
  simp only [skip_cons (c := ':') rfl, hblank, hvalue]
  exact answer_some _

mutual

theorem readValue_pretty (h : Readable form ok) (depth : Nat) (v : Value) (fuel : Nat)
    (rest : List Char) (hfuel : (pretty form depth v).length ≤ fuel) (hstop : Stops rest) :
    readValue fuel (pretty form depth v ++ rest) = answer (v.all ok) v rest := by
  obtain ⟨first, others, hprint, -⟩ : Opens (pretty form depth v) := opens_pretty depth v
  obtain ⟨n, rfl⟩ : ∃ n, fuel = n + 1 := by
    rw [hprint, List.length_cons] at hfuel
    exact ⟨fuel - 1, by omega⟩
  match v with
  | .array (item :: items) =>
      simp only [pretty, List.length_cons, List.length_append] at hfuel
      have hitem := readValue_pretty h (depth + 1) item n (prettyItems form depth items ++ rest)
        (by omega) (stops_prettyItems depth items rest)
      have hitems := readItems_pretty h depth items n rest (by omega)
      have hopens : Opens (pretty form (depth + 1) item ++ (prettyItems form depth items ++ rest)) :=
        opens_append (opens_pretty _ item) _
      rw [pretty, List.cons_append, List.append_assoc, List.append_assoc,
        readValue_array_skip (skip_newline _ _), readValue_array n hopens, hitem, Value.all, allItems]
      apply answer_bind
      dsimp only
      rw [hitems]
      exact answer_some fun items => Value.array (item :: items)
  | .object ((key, value) :: members) =>
      simp only [pretty, List.length_cons, List.length_append] at hfuel
      obtain ⟨m, rfl⟩ : ∃ m, n = m + 1 := ⟨n - 1, by omega⟩
      have hmember := readMember_pretty h key <|
        readValue_pretty h (depth + 1) value m (prettyMembers form depth members ++ rest) (by omega)
          (stops_prettyMembers depth members rest)
      have hmembers := readMembers_pretty h depth members (m + 1) rest (by omega)
      have hopens : Opens (literal form key ++ ':' :: ' ' ::
          (pretty form (depth + 1) value ++ (prettyMembers form depth members ++ rest))) :=
        opens_append ⟨_, _, rfl, rfl, by decide, by decide⟩ _
      rw [pretty, List.cons_append, List.append_assoc, List.append_assoc, List.cons_append,
        List.cons_append, List.append_assoc, readValue_object_skip (skip_newline _ _),
        readValue_object (m + 1) hopens, hmember, Value.all, allMembers, ← Bool.and_assoc]
      apply answer_bind
      dsimp only
      rw [hmembers]
      exact answer_some fun members => Value.object ((key, value) :: members)
  | .null =>
      rw [pretty] at hfuel ⊢
      exact readValue_print h _ _ rest hfuel hstop
  | .bool b =>
      rw [pretty] at hfuel ⊢
      exact readValue_print h _ _ rest hfuel hstop
  | .number t =>
      rw [pretty] at hfuel ⊢
      exact readValue_print h _ _ rest hfuel hstop
  | .string text =>
      rw [pretty] at hfuel ⊢
      exact readValue_print h _ _ rest hfuel hstop
  | .array [] =>
      rw [pretty] at hfuel ⊢
      exact readValue_print h _ _ rest hfuel hstop
  | .object [] =>
      rw [pretty] at hfuel ⊢
      exact readValue_print h _ _ rest hfuel hstop

theorem readItems_pretty (h : Readable form ok) (depth : Nat) (items : List Value) (fuel : Nat)
    (rest : List Char) (hfuel : (prettyItems form depth items).length ≤ fuel) :
    readItems fuel (prettyItems form depth items ++ rest) =
      answer (allItems ok items) items rest := by
  obtain ⟨n, rfl⟩ : ∃ n, fuel = n + 1 := by
    cases items <;> rw [prettyItems] at hfuel <;>
      simp only [newline, List.cons_append, List.length_cons] at hfuel <;>
        exact ⟨fuel - 1, by omega⟩
  match items with
  | [] =>
      rw [prettyItems, List.append_assoc, readItems_skip (skip_newline _ _)]
      rfl
  | item :: items =>
      simp only [prettyItems, List.length_cons, List.length_append] at hfuel
      have hitem := readValue_pretty h (depth + 1) item n (prettyItems form depth items ++ rest)
        (by omega) (stops_prettyItems depth items rest)
      have hitems := readItems_pretty h depth items n rest (by omega)
      rw [prettyItems, List.cons_append, List.append_assoc, List.append_assoc, readItems_next,
        readValue_skip (skip_newline _ _), hitem, allItems]
      apply answer_bind
      dsimp only
      rw [hitems]
      exact answer_some _

theorem readMembers_pretty (h : Readable form ok) (depth : Nat) (members : List (String × Value))
    (fuel : Nat) (rest : List Char) (hfuel : (prettyMembers form depth members).length ≤ fuel) :
    readMembers fuel (prettyMembers form depth members ++ rest) =
      answer (allMembers ok members) members rest := by
  match members with
  | [] =>
      obtain ⟨n, rfl⟩ : ∃ n, fuel = n + 1 := by
        simp only [prettyMembers, newline, List.cons_append, List.length_cons] at hfuel
        exact ⟨fuel - 1, by omega⟩
      rw [prettyMembers, List.append_assoc, readMembers_skip (skip_newline _ _)]
      rfl
  | (key, value) :: members =>
      simp only [prettyMembers, List.length_cons, List.length_append] at hfuel
      obtain ⟨n, rfl⟩ : ∃ n, fuel = n + 1 := ⟨fuel - 1, by omega⟩
      obtain ⟨m, rfl⟩ : ∃ m, n = m + 1 := ⟨n - 1, by omega⟩
      have hmember := readMember_pretty h key <|
        readValue_pretty h (depth + 1) value m (prettyMembers form depth members ++ rest) (by omega)
          (stops_prettyMembers depth members rest)
      have hmembers := readMembers_pretty h depth members (m + 1) rest (by omega)
      rw [prettyMembers, List.cons_append, List.append_assoc, List.append_assoc, List.cons_append,
        List.cons_append, List.append_assoc, readMembers_next, readMember_skip (skip_newline _ _),
        hmember, allMembers, ← Bool.and_assoc]
      apply answer_bind
      dsimp only
      rw [hmembers]
      exact answer_some _

end

theorem parse_pretty (h : Readable form ok) (v : Value) :
    parse (pretty form 0 v) = if v.all ok then some v else none := by
  have hread := readValue_pretty h 0 v (pretty form 0 v).length [] (Nat.le_refl _)
    (by rintro c ⟨⟩)
  rw [List.append_nil] at hread
  rw [parse, hread, answer]
  split <;> rfl

end Written

end JsonRead
