import Mars.Core.Escape
import Mars.Core.JsonRead
import Mars.Core.Text
import Mars.Sync

/-! # The trace document

`export` puts the text of the document together by hand. Behind it stands a JSON
value, and the text is that value printed with the three replacements of `escape`
as the only escaped forms.
-/

namespace Mars.Telemetry
open Escape (replace)
open JsonRead Sync

def SERVICE : String := "mars"

/-- `CARGO_PKG_VERSION`. -/
def VERSION : String := "0.1.0"

/-! ## The text -/

def escape (value : String) : List Char :=
  replace '\n' ['\\', 'n'] (replace '"' ['\\', '"'] (replace '\\' ['\\', '\\'] value.toList))

/-- `attribute`, a word of its own here. -/
def attributeText (key value : String) : List Char :=
  "\x7b\"key\":\"".toList ++ key.toList ++ "\",\"value\":\x7b\"stringValue\":\"".toList ++
    escape value ++ "\"\x7d\x7d".toList

/-- What `write_span` appends to its text. -/
def writeSpan (traceId spanId : String) (parent : Option String) (name : String)
    (originNanos startUs endUs : Nat) (containerId : String) : List Char :=
  let start := originNanos + startUs * 1000
  let stop := originNanos + endUs * 1000
  let parent := match parent with
    | some id => "\"parentSpanId\":\"".toList ++ id.toList ++ "\",".toList
    | none => []
  "\x7b\"traceId\":\"".toList ++ traceId.toList ++ "\",\"spanId\":\"".toList ++ spanId.toList ++
    "\",".toList ++ parent ++ "\"name\":\"".toList ++ escape name ++
    "\",\"kind\":1,\"startTimeUnixNano\":\"".toList ++ Text.decimal start ++
    "\",\"endTimeUnixNano\":\"".toList ++ Text.decimal stop ++ "\",\"attributes\":[".toList ++
    attributeText "container.id" containerId ++ "]\x7d".toList

/-- `host` is the name of the host as text, empty when it cannot be told. -/
def resourceAttributes (host : String) : List Char :=
  attributeText "service.name" SERVICE ++ [','] ++
    attributeText "service.version" VERSION ++ [','] ++ attributeText "host.name" host

def hexByte (byte : UInt8) : List Char :=
  [Nat.digitChar (byte.toNat / 16), Nat.digitChar (byte.toNat % 16)]

/-- The bytes are those of one opening of `/dev/urandom`, when it can be read. -/
def randomHex (bytes : Nat) (urandom : Option (Nat → UInt8)) : Option String :=
  urandom.map fun byte => String.ofList ((List.range bytes).flatMap fun i => hexByte (byte i))

/-- The loop over the phases, `draw` counting the openings of `/dev/urandom`. -/
def phaseSpans (urandom : Nat → Option (Nat → UInt8)) (traceId rootSpan : String) (origin : Nat)
    (containerId : String) : Nat → List Phase → Option (List Char)
  | _, [] => some []
  | draw, phase :: phases => do
      let id ← randomHex 8 (urandom draw)
      let spans ← phaseSpans urandom traceId rootSpan origin containerId (draw + 1) phases
      some (',' :: (writeSpan traceId id (some rootSpan) phase.name origin phase.startUs
        phase.endUs containerId ++ spans))

def total (phases : List Phase) : Nat := (phases.map Phase.endUs).max?.getD 0

/-- The body `export` posts, given the phases it takes: nothing when random bytes
cannot be read, and no body when there are no phases. -/
def exportBody (urandom : Nat → Option (Nat → UInt8)) (host root containerId : String)
    (origin : Nat) (phases : List Phase) : Option (Option (List Char)) :=
  if phases = [] then some none
  else do
    let traceId ← randomHex 16 (urandom 0)
    let rootSpan ← randomHex 8 (urandom 1)
    let rest ← phaseSpans urandom traceId rootSpan origin containerId 2 phases
    let spans := writeSpan traceId rootSpan none root origin 0 (total phases) containerId ++ rest
    some (some ("\x7b\"resourceSpans\":[\x7b\"resource\":\x7b\"attributes\":[".toList ++
      resourceAttributes host ++ "]\x7d,\"scopeSpans\":[\x7b\"scope\":\x7b\"name\":\"".toList ++
      SERVICE.toList ++ "\",\"version\":\"".toList ++ VERSION.toList ++
      "\"\x7d,\"spans\":[".toList ++ spans ++ "]\x7d]\x7d]\x7d".toList))

/-! ## The value -/

def attributeValue (key value : String) : Value :=
  .object [("key", .string key), ("value", .object [("stringValue", .string value)])]

def one : Numeral where
  token := ['1']
  word := List.all_eq_true.mp rfl
  valid := rfl

def spanValue (traceId spanId : String) (parent : Option String) (name : String)
    (originNanos startUs endUs : Nat) (containerId : String) : Value :=
  .object ([("traceId", .string traceId), ("spanId", .string spanId)] ++
    (parent.map fun id => ("parentSpanId", .string id)).toList ++
    [("name", .string name), ("kind", .number one),
      ("startTimeUnixNano", .string (String.ofList (Text.decimal (originNanos + startUs * 1000)))),
      ("endTimeUnixNano", .string (String.ofList (Text.decimal (originNanos + endUs * 1000)))),
      ("attributes", .array [attributeValue "container.id" containerId])])

def documentValue (host : String) (spans : List Value) : Value :=
  .object [("resourceSpans", .array [.object [
    ("resource", .object [("attributes", .array [attributeValue "service.name" SERVICE,
      attributeValue "service.version" VERSION, attributeValue "host.name" host])]),
    ("scopeSpans", .array [.object [
      ("scope", .object [("name", .string SERVICE), ("version", .string VERSION)]),
      ("spans", .array spans)]])]])]

/-! ## The text is the value printed -/

/-- The form `escape` gives a character. -/
def form (c : Char) : List Char :=
  if c = '\\' then ['\\', '\\'] else if c = '"' then ['\\', '"'] else if c = '\n' then ['\\', 'n']
  else [c]

/-- The characters that may stand in a string of the document. -/
def covered (c : Char) : Bool := 32 ≤ c.toNat ∨ c = '\n'

theorem escape_eq (value : String) : escape value = value.toList.flatMap form := by
  have hform : ∀ c, replace '\n' ['\\', 'n']
      (replace '"' ['\\', '"'] (replace '\\' ['\\', '\\'] [c])) = form c := by
    intro c
    unfold form
    split
    next h => subst h; rfl
    next hmark =>
      split
      next h => subst h; rfl
      next hquote =>
        split
        next h => subst h; rfl
        next hline => simp [replace, hmark, hquote, hline]
  unfold escape
  induction value.toList with
  | nil => rfl
  | cons c rest ih =>
      rw [List.flatMap_cons, ← hform c, ← ih, ← Escape.replace_append, ← Escape.replace_append,
        ← Escape.replace_append, List.singleton_append]

theorem readable : Readable form covered := by
  refine ⟨fun c rest => ?_, fun c => ?_⟩
  · unfold form
    split
    next h => subst h; rfl
    next hmark =>
      split
      next h => subst h; rfl
      next hquote =>
        split
        next h => subst h; rfl
        next hline =>
          simp only [List.singleton_append, readChar, if_neg hmark, hquote, false_or, covered,
            hline, or_false, decide_eq_true_eq]
          split <;> split <;> first | rfl | omega
  · unfold form
    split
    next => exact ⟨_, _, rfl, by decide⟩
    next =>
      split
      next => exact ⟨_, _, rfl, by decide⟩
      next hquote =>
        split
        next => exact ⟨_, _, rfl, by decide⟩
        next => exact ⟨_, _, rfl, hquote⟩

/-- Texts that need no escaping. -/
def Plain (text : List Char) : Prop := ∀ c ∈ text, c ≠ '\\' ∧ c ≠ '"' ∧ c ≠ '\n'

theorem flatMap_plain {text : List Char} (h : Plain text) : text.flatMap form = text := by
  induction text with
  | nil => rfl
  | cons c rest ih =>
      obtain ⟨hmark, hquote, hline⟩ := h c List.mem_cons_self
      rw [List.flatMap_cons, ih fun d hd => h d (List.mem_cons_of_mem c hd), form, if_neg hmark,
        if_neg hquote, if_neg hline, List.singleton_append]

theorem attribute_print {key : String} (h : Plain key.toList) (value : String) :
    attributeText key value = print form (attributeValue key value) := by
  unfold attributeText attributeValue
  simp only [print, printMembers, literal, escape_eq, flatMap_plain h, List.append_assoc,
    List.cons_append, List.nil_append]
  rfl

theorem plain_decimal (n : Nat) : Plain (Text.decimal n) := by
  intro c hc
  have hdigit : c.isDigit = true := Text.isDigit_of_mem_decimal hc
  refine ⟨?_, ?_, ?_⟩ <;> rintro rfl <;> cases hdigit

theorem plain_hexByte (byte : UInt8) : Plain (hexByte byte) := by
  have hdigit : ∀ n < 16, Nat.digitChar n ≠ '\\' ∧ Nat.digitChar n ≠ '"' ∧
      Nat.digitChar n ≠ '\n' := by
    decide
  have hbyte : byte.toNat < 256 := byte.toNat_lt
  intro c hc
  simp only [hexByte, List.mem_cons, List.not_mem_nil, or_false] at hc
  rcases hc with rfl | rfl
  · exact hdigit _ (by omega)
  · exact hdigit _ (by omega)

theorem plain_randomHex {bytes : Nat} {urandom : Option (Nat → UInt8)} {id : String}
    (h : randomHex bytes urandom = some id) : Plain id.toList := by
  obtain ⟨byte, -, rfl⟩ := Option.map_eq_some_iff.mp h
  rw [String.toList_ofList]
  intro c hc
  obtain ⟨i, -, hmem⟩ := List.mem_flatMap.mp hc
  exact plain_hexByte (byte i) c hmem

theorem plain_of_all {text : List Char}
    (h : text.all (fun c => c != '\\' && c != '"' && c != '\n') = true) : Plain text := by
  intro c hc
  have hchar := List.all_eq_true.mp h c hc
  simpa [and_assoc] using hchar

theorem span_print {traceId spanId : String} (parent : Option String)
    (htrace : Plain traceId.toList) (hspan : Plain spanId.toList)
    (hparent : ∀ id ∈ parent, Plain id.toList) (name : String)
    (originNanos startUs endUs : Nat) (containerId : String) :
    writeSpan traceId spanId parent name originNanos startUs endUs containerId =
      print form (spanValue traceId spanId parent name originNanos startUs endUs containerId) := by
  have hdecimal : ∀ n, (Text.decimal n).flatMap form = Text.decimal n :=
    fun n => flatMap_plain (plain_decimal n)
  have hkey : Plain "container.id".toList := plain_of_all rfl
  unfold writeSpan spanValue
  cases parent with
  | none =>
      simp only [print, printMembers, printItems, literal, one,
        escape_eq, flatMap_plain htrace, flatMap_plain hspan, hdecimal, attribute_print hkey,
        List.append_assoc, List.cons_append, List.nil_append, Option.map_none, Option.toList_none,
        String.toList_ofList]
      rfl
  | some id =>
      simp only [print, printMembers, printItems, literal, one,
        escape_eq, flatMap_plain htrace, flatMap_plain hspan, hdecimal, attribute_print hkey,
        List.append_assoc, List.cons_append, List.nil_append, Option.map_some, Option.toList_some,
        String.toList_ofList, flatMap_plain (hparent id rfl)]
      rfl

/-- The values of the spans that the loop over the phases writes. -/
def phaseValues (urandom : Nat → Option (Nat → UInt8)) (traceId rootSpan : String) (origin : Nat)
    (containerId : String) : Nat → List Phase → Option (List Value)
  | _, [] => some []
  | draw, phase :: phases => do
      let id ← randomHex 8 (urandom draw)
      let spans ← phaseValues urandom traceId rootSpan origin containerId (draw + 1) phases
      some (spanValue traceId id (some rootSpan) phase.name origin phase.startUs phase.endUs
        containerId :: spans)

/-- What was recorded, as one value. -/
def document (urandom : Nat → Option (Nat → UInt8)) (host root containerId : String)
    (origin : Nat) (phases : List Phase) : Option Value := do
  let traceId ← randomHex 16 (urandom 0)
  let rootSpan ← randomHex 8 (urandom 1)
  let rest ← phaseValues urandom traceId rootSpan origin containerId 2 phases
  some (documentValue host
    (spanValue traceId rootSpan none root origin 0 (total phases) containerId :: rest))

theorem document_print (host : String) (v : Value) (spans : List Value) :
    "\x7b\"resourceSpans\":[\x7b\"resource\":\x7b\"attributes\":[".toList ++
      resourceAttributes host ++ "]\x7d,\"scopeSpans\":[\x7b\"scope\":\x7b\"name\":\"".toList ++
      SERVICE.toList ++ "\",\"version\":\"".toList ++ VERSION.toList ++
      "\"\x7d,\"spans\":[".toList ++
      (print form v ++ spans.flatMap fun v => ',' :: print form v) ++ "]\x7d]\x7d]\x7d".toList =
    print form (documentValue host (v :: spans)) := by
  have hitems : ∀ spans, printItems form spans =
      spans.flatMap (fun v => ',' :: print form v) ++ [']'] := by
    intro spans
    induction spans with
    | nil => rfl
    | cons v spans ih => rw [printItems, ih, List.flatMap_cons, List.append_assoc, List.cons_append]
  unfold documentValue resourceAttributes
  rw [attribute_print (plain_of_all rfl), attribute_print (plain_of_all rfl),
    attribute_print (plain_of_all rfl)]
  simp only [print, printMembers, printItems, literal, hitems, List.append_assoc,
    List.cons_append, List.nil_append]
  rfl

theorem phaseSpans_eq (urandom : Nat → Option (Nat → UInt8)) {traceId rootSpan : String}
    (htrace : Plain traceId.toList) (hroot : Plain rootSpan.toList) (origin : Nat)
    (containerId : String) (draw : Nat) (phases : List Phase) :
    phaseSpans urandom traceId rootSpan origin containerId draw phases =
      (phaseValues urandom traceId rootSpan origin containerId draw phases).map
        fun spans => spans.flatMap fun v => ',' :: print form v := by
  induction phases generalizing draw with
  | nil => rfl
  | cons phase phases ih =>
      rw [phaseSpans, phaseValues]
      cases hid : randomHex 8 (urandom draw) with
      | none => rfl
      | some id =>
          have hspan := span_print (some rootSpan) htrace (plain_randomHex hid)
            (fun id h => Option.some.inj h ▸ hroot) phase.name origin phase.startUs phase.endUs
            containerId
          rw [ih]
          cases phaseValues urandom traceId rootSpan origin containerId (draw + 1) phases with
          | none => rfl
          | some spans => simp [hspan]

theorem exportBody_eq {urandom : Nat → Option (Nat → UInt8)} {host root containerId : String}
    {origin : Nat} {phases : List Phase} (h : phases ≠ []) :
    exportBody urandom host root containerId origin phases =
      (document urandom host root containerId origin phases).map fun v => some (print form v) := by
  rw [exportBody, document, if_neg h]
  cases htrace : randomHex 16 (urandom 0) with
  | none => rfl
  | some traceId =>
      cases hroot : randomHex 8 (urandom 1) with
      | none => rfl
      | some rootSpan =>
          have hloop := phaseSpans_eq urandom (plain_randomHex htrace) (plain_randomHex hroot)
            origin containerId 2 phases
          have hspan := span_print none (plain_randomHex htrace) (plain_randomHex hroot)
            (fun id hid => absurd hid (Option.not_mem_none id)) root origin 0 (total phases)
            containerId
          simp only [Option.bind_eq_bind, Option.bind_some, hloop, hspan]
          cases phaseValues urandom traceId rootSpan origin containerId 2 phases with
          | none => rfl
          | some spans =>
              simp only [Option.map_some, Option.bind_some]
              rw [document_print]

/-! ## Every string of the value is one that was recorded -/

def coveredText (text : String) : Bool := text.toList.all covered

theorem covered_decimal (n : Nat) : coveredText (String.ofList (Text.decimal n)) = true := by
  rw [coveredText, String.toList_ofList, List.all_eq_true]
  intro c hc
  have hdigit : c.isDigit = true := Text.isDigit_of_mem_decimal hc
  have hlow : (48 : UInt32) ≤ c.val := by
    simp only [Char.isDigit, Bool.and_eq_true, decide_eq_true_eq] at hdigit
    exact hdigit.1
  have hnat : 48 ≤ c.toNat := UInt32.le_iff_toNat_le.mp hlow
  simp only [covered, decide_eq_true_eq]
  omega

theorem covered_randomHex {bytes : Nat} {urandom : Option (Nat → UInt8)} {id : String}
    (h : randomHex bytes urandom = some id) : coveredText id = true := by
  have hdigit : ∀ n < 16, covered (Nat.digitChar n) = true := by decide
  obtain ⟨byte, -, rfl⟩ := Option.map_eq_some_iff.mp h
  rw [coveredText, String.toList_ofList, List.all_eq_true]
  intro c hc
  obtain ⟨i, -, hmem⟩ := List.mem_flatMap.mp hc
  have hbyte : (byte i).toNat < 256 := (byte i).toNat_lt
  simp only [hexByte, List.mem_cons, List.not_mem_nil, or_false] at hmem
  rcases hmem with rfl | rfl
  · exact hdigit _ (by omega)
  · exact hdigit _ (by omega)

theorem attribute_all (key value : String) :
    (attributeValue key value).all covered = (coveredText key && coveredText value) := by
  simp only [attributeValue, Value.all, allMembers]
  simp [covered, coveredText]

theorem document_all (host : String) (spans : List Value) :
    (documentValue host spans).all covered = (coveredText host && allItems covered spans) := by
  simp only [documentValue, Value.all, allMembers, allItems, attribute_all]
  simp [covered, coveredText, SERVICE, VERSION]

theorem span_all {traceId spanId : String} (parent : Option String)
    (htrace : coveredText traceId = true) (hspan : coveredText spanId = true)
    (hparent : ∀ id ∈ parent, coveredText id = true) (name : String)
    (originNanos startUs endUs : Nat) (containerId : String) :
    (spanValue traceId spanId parent name originNanos startUs endUs containerId).all covered =
      (coveredText name && coveredText containerId) := by
  have hstart := covered_decimal (originNanos + startUs * 1000)
  have hend := covered_decimal (originNanos + endUs * 1000)
  have hkind : (Value.number one).all covered = true := rfl
  unfold spanValue
  unfold coveredText at *
  cases parent with
  | none =>
      simp only [Option.map_none, Option.toList_none, List.append_nil, List.cons_append,
        List.nil_append, Value.all, allMembers, allItems, attribute_all, htrace, hspan, hstart,
        hend]
      simp [covered, coveredText]
  | some id =>
      have hid := hparent id rfl
      simp only [Option.map_some, Option.toList_some, List.cons_append, List.nil_append, Value.all,
        allMembers, allItems, attribute_all, htrace, hspan, hid, hstart, hend]
      simp [covered, coveredText]

theorem phaseValues_all {urandom : Nat → Option (Nat → UInt8)} {traceId rootSpan : String}
    (htrace : coveredText traceId = true) (hroot : coveredText rootSpan = true) {origin : Nat}
    {containerId : String} (hcontainer : coveredText containerId = true)
    {draw : Nat} {phases : List Phase} {spans : List Value}
    (h : phaseValues urandom traceId rootSpan origin containerId draw phases = some spans) :
    allItems covered spans = phases.all fun phase => coveredText phase.name := by
  induction phases generalizing draw spans with
  | nil =>
      cases h
      rfl
  | cons phase phases ih =>
      obtain ⟨id, hid, hrest⟩ := Option.bind_eq_some_iff.mp h
      obtain ⟨others, hothers, hspans⟩ := Option.bind_eq_some_iff.mp hrest
      obtain rfl := Option.some.inj hspans
      rw [allItems, ih hothers, span_all (some rootSpan) htrace (covered_randomHex hid)
        (fun id h => Option.some.inj h ▸ hroot), hcontainer, Bool.and_true, List.all_cons]

/-! ## Reading the document -/

/-- Every string that goes into a trace. -/
def texts (host root containerId : String) (phases : List Phase) : List String :=
  host :: root :: containerId :: phases.map Phase.name

theorem parse_literal (text : String) :
    parse ('"' :: (escape text ++ ['"'])) =
      if coveredText text then some (.string text) else none := by
  have hparse := parse_print readable (.string text)
  rw [print, literal, ← escape_eq, Value.all] at hparse
  exact hparse

theorem coveredText_iff (text : String) :
    coveredText text = true ↔ ∀ c ∈ text.toList, c.toNat < 32 → c = '\n' := by
  simp only [coveredText, List.all_eq_true, covered, decide_eq_true_eq, ← Nat.not_lt]
  exact forall₂_congr fun c _ => by tauto

theorem texts_covered {recorded : List String} (h : recorded.all coveredText = true) :
    ∀ text ∈ recorded, ∀ c ∈ text.toList, c.toNat < 32 → c = '\n' :=
  fun text htext => (coveredText_iff text).mp (List.all_eq_true.mp h text htext)

theorem document_covered {urandom : Nat → Option (Nat → UInt8)} {host root containerId : String}
    {origin : Nat} {phases : List Phase} {v : Value}
    (h : document urandom host root containerId origin phases = some v) :
    v.all covered = (texts host root containerId phases).all coveredText := by
  obtain ⟨traceId, htrace, h⟩ := Option.bind_eq_some_iff.mp h
  obtain ⟨rootSpan, hroot, h⟩ := Option.bind_eq_some_iff.mp h
  obtain ⟨spans, hspans, h⟩ := Option.bind_eq_some_iff.mp h
  obtain rfl := Option.some.inj h
  have hrootSpan := span_all none (covered_randomHex htrace) (covered_randomHex hroot)
    (fun id hid => absurd hid (Option.not_mem_none id)) root origin 0 (total phases) containerId
  rw [document_all, allItems, hrootSpan, texts, List.all_cons, List.all_cons, List.all_cons,
    List.all_map]
  cases hcontainer : coveredText containerId with
  | false => simp
  | true =>
      rw [phaseValues_all (covered_randomHex htrace) (covered_randomHex hroot) hcontainer hspans]
      simp [Function.comp_def]

/-- A posted body is read as the value behind it, or not at all. -/
theorem exportBody_parse {urandom : Nat → Option (Nat → UInt8)} {host root containerId : String}
    {origin : Nat} {phases : List Phase} {body : List Char}
    (h : exportBody urandom host root containerId origin phases = some (some body)) :
    ∃ v, document urandom host root containerId origin phases = some v ∧
      parse body =
        if (texts host root containerId phases).all coveredText then some v else none := by
  have hphases : phases ≠ [] := by
    rintro rfl
    cases h
  rw [exportBody_eq hphases] at h
  obtain ⟨v, hv, hbody⟩ := Option.map_eq_some_iff.mp h
  refine ⟨v, hv, ?_⟩
  rw [← Option.some.inj hbody, parse_print readable, document_covered hv]

/-- The document and each of its strings decode to what was recorded exactly when
no recorded string has a control character other than a line feed. -/
theorem trace_decodes {urandom : Nat → Option (Nat → UInt8)} {host root containerId : String}
    {origin : Nat} {phases : List Phase} {body : List Char}
    (h : exportBody urandom host root containerId origin phases = some (some body)) :
    ((∀ text ∈ texts host root containerId phases,
        parse ('"' :: (escape text ++ ['"'])) = some (.string text)) ∧
      ∃ v, document urandom host root containerId origin phases = some v ∧ parse body = some v) ↔
      ∀ text ∈ texts host root containerId phases, ∀ c ∈ text.toList, c.toNat < 32 → c = '\n' := by
  obtain ⟨v, hv, hparse⟩ := exportBody_parse h
  constructor
  · rintro ⟨htexts, -⟩ text htext
    have hread := htexts text htext
    rw [parse_literal] at hread
    by_contra hbad
    rw [if_neg fun hgood => hbad ((coveredText_iff text).mp hgood)] at hread
    cases hread
  · intro hall
    have hgood : (texts host root containerId phases).all coveredText = true :=
      List.all_eq_true.mpr fun text htext => (coveredText_iff text).mpr (hall text htext)
    refine ⟨fun text htext => ?_, v, hv, ?_⟩
    · rw [parse_literal, if_pos ((coveredText_iff text).mpr (hall text htext))]
    · rw [hparse, if_pos hgood]

def zeros (_ : Nat) : Option (Nat → UInt8) := some fun _ => 0

theorem trace_decodes_quotes :
    ∃ body, exportBody zeros "a\"b\\c\n" "container.create" "web" 7 [⟨"bundle", 0, 5⟩] =
        some (some body) ∧
      ∃ v, document zeros "a\"b\\c\n" "container.create" "web" 7 [⟨"bundle", 0, 5⟩] = some v ∧
        parse body = some v := by
  obtain ⟨body, hbody⟩ : ∃ body, exportBody zeros "a\"b\\c\n" "container.create" "web" 7
      [⟨"bundle", 0, 5⟩] = some (some body) := by
    rw [exportBody_eq (List.cons_ne_nil _ _)]
    exact ⟨_, rfl⟩
  exact ⟨body, hbody, ((trace_decodes hbody).mpr (texts_covered (by decide +kernel))).2⟩

theorem tab_unread :
    ∃ body, exportBody zeros "node\t1" "container.create" "web" 7 [⟨"bundle", 0, 5⟩] =
        some (some body) ∧
      parse ('"' :: (escape "node\t1" ++ ['"'])) = none ∧ parse body = none := by
  obtain ⟨body, hbody⟩ : ∃ body, exportBody zeros "node\t1" "container.create" "web" 7
      [⟨"bundle", 0, 5⟩] = some (some body) := by
    rw [exportBody_eq (List.cons_ne_nil _ _)]
    exact ⟨_, rfl⟩
  obtain ⟨v, -, hparse⟩ := exportBody_parse hbody
  have hbad : coveredText "node\t1" = false := by decide +kernel
  refine ⟨body, hbody, ?_, ?_⟩
  · rw [parse_literal, hbad]
    rfl
  · rw [hparse, texts, List.all_cons, hbad]
    rfl

end Mars.Telemetry
