import Mars.Core.HttpMessage
import Mars.Error
import Mars.Telemetry.Export
import Mathlib.Data.List.Infix

/-! # The way to the collector

`post` writes one request with the trace document as its body, and takes the first
line that comes back for the verdict.
-/

namespace Mars.Telemetry
open Http JsonRead
open Sync (Phase)

def ENDPOINT_ENV : String := "MARS_OTLP_ENDPOINT"

/-- The flag goes before the environment, and blanks name nothing. -/
def endpoint (explicit env : Option String) : Option String :=
  (explicit <|> env).filter fun value => Text.trim value.toList ≠ []

/-! ## Where to post -/

/-- A mark is taken away as often as it stands in front. -/
def trimMark (mark : List Char) : Nat → List Char → List Char
  | 0, text => text
  | fuel + 1, text =>
      if mark.isPrefixOf text then trimMark mark fuel (text.drop mark.length) else text

def trimStartMatches (mark text : List Char) : List Char := trimMark mark text.length text

/-- What stands up to the first slash, and the rest; a path of its own where there is none. -/
def splitPath (text : List Char) : List Char × List Char :=
  match text.dropWhile (· ≠ '/') with
  | [] => (text, "/v1/traces".toList)
  | slash :: path => (text.takeWhile (· ≠ '/'), slash :: path)

def splitEndpoint (endpoint : List Char) : Except Error (List Char × List Char) :=
  let trimmed := trimStartMatches "https://".toList
    (trimStartMatches "http://".toList (Text.trim endpoint))
  let (authority, path) := splitPath trimmed
  if authority = [] then
    .error (.invalid (Text.debugText (String.ofList endpoint) ++
      " has no host; expected something like localhost:4318"))
  else
    .ok (if authority.contains ':' then authority else authority ++ ":4318".toList, path)

/-! ## One request -/

def requestText (hostPort path body : List Char) : List Char :=
  "POST ".toList ++ path ++ " HTTP/1.1\r\nHost: ".toList ++ hostPort ++
    "\r\nContent-Type: application/json\r\nContent-Length: ".toList ++
    Text.decimal (utf8 body).length ++ "\r\nConnection: close\r\n\r\n".toList ++ body

/-- What becomes of a connection, and what is answered to bytes that all went out. -/
structure Network where
  connects : List Char → Bool
  answer : List UInt8 → Option (List Char)

def firstLine (text : List Char) : List Char :=
  let line := text.takeWhile (· ≠ '\n')
  if '\n' ∈ text ∧ line.getLast? = some '\r' then line.dropLast else line

def CODES : List (List Char) := [" 200".toList, " 202".toList, " 204".toList]

def post (net : Network) (endpoint body : List Char) : Except Error Unit := do
  let (hostPort, path) ← splitEndpoint endpoint
  if net.connects hostPort = false then
    throw (.io ("connect to the OTLP collector at " ++ String.ofList hostPort ++ "; set " ++
      ENDPOINT_ENV ++ " to host:port or a URL"))
  match net.answer (utf8 (requestText hostPort path body)) with
  | none => throw (.io "send the OTLP payload")
  | some response =>
      let status := firstLine response
      if CODES.any fun code => decide (code <:+: status) then pure ()
      else throw (.invalid ("the OTLP collector answered " ++
        Text.debugText (String.ofList status)))

/-- `host` is the name of the machine. -/
def exportTrace (net : Network) (urandom : Nat → Option (Nat → UInt8)) (endpoint : List Char)
    (host root containerId : String) (origin : Nat) (phases : List Phase) : Except Error Unit :=
  match exportBody urandom host root containerId origin phases with
  | none => .error (.io "read /dev/urandom for a trace id")
  | some none => .ok ()
  | some (some body) => post net endpoint body

/-! ## At the other end -/

/-- The message on a connection, and the document in it. -/
def collect (bytes : List UInt8) : Option (Message × Value) := do
  let (message, _) ← readMessage bytes
  let text ← decode message.body
  let document ← parse text
  some (message, document)

def requestMessage (hostPort path body : List Char) : Message where
  method := utf8 "POST".toList
  target := utf8 path
  version := utf8 "HTTP/1.1".toList
  fields := [
    (utf8 "Host".toList, utf8 hostPort),
    (utf8 "Content-Type".toList, utf8 "application/json".toList),
    (utf8 "Content-Length".toList, utf8 (Text.decimal (utf8 body).length)),
    (utf8 "Connection".toList, utf8 "close".toList)]
  body := utf8 body

/-- The request, with its breaks and separators apart. -/
theorem request_lines (hostPort path digits body : List Char) :
    "POST ".toList ++ path ++ " HTTP/1.1\r\nHost: ".toList ++ hostPort ++
        "\r\nContent-Type: application/json\r\nContent-Length: ".toList ++ digits ++
        "\r\nConnection: close\r\n\r\n".toList ++ body =
      "POST".toList ++ ' ' :: (path ++ ' ' :: ("HTTP/1.1".toList ++ '\r' :: '\n' ::
        ("Host".toList ++ ':' :: ' ' :: (hostPort ++ '\r' :: '\n' ::
        ("Content-Type".toList ++ ':' :: ' ' :: ("application/json".toList ++ '\r' :: '\n' ::
        ("Content-Length".toList ++ ':' :: ' ' :: (digits ++ '\r' :: '\n' ::
        ("Connection".toList ++ ':' :: ' ' :: ("close".toList ++
          '\r' :: '\n' :: '\r' :: '\n' :: body)))))))))) := by
  simp only [List.append_assoc]
  rfl

theorem requestText_write (hostPort path body : List Char) :
    utf8 (requestText hostPort path body) = (requestMessage hostPort path body).write := by
  have hblank : String.utf8EncodeChar ' ' = [SP] := rfl
  have hcolon : String.utf8EncodeChar ':' = [COLON] := rfl
  have hreturn : String.utf8EncodeChar '\r' = [CR] := rfl
  have hfeed : String.utf8EncodeChar '\n' = [LF] := rfl
  have hlines : requestText hostPort path body = _ := request_lines hostPort path _ body
  rw [hlines]
  simp only [Message.write, requestMessage, fieldLine, List.flatMap_cons, List.flatMap_nil,
    utf8_append, utf8_cons, hblank, hcolon, hreturn, hfeed, List.append_assoc,
    List.cons_append, List.nil_append]

/-! ## Text without blanks -/

def Solid (text : List Char) : Prop := ∀ c ∈ text, Text.isWhitespace c = false

instance decidableSolid (text : List Char) : Decidable (Solid text) :=
  decidable_of_iff (text.all fun c => !Text.isWhitespace c) (by simp [Solid])

theorem Solid.sublist {text part : List Char} (h : Solid text) (hpart : part.Sublist text) :
    Solid part := fun c hc => h c (hpart.subset hc)

theorem Solid.not_mem {text : List Char} (h : Solid text) {c : Char} {b : UInt8}
    (hc : Text.isWhitespace c = true) (hbyte : b.toNat = c.toNat) (hlow : b.toNat < 128) :
    b ∉ utf8 text := by
  refine not_mem_utf8 hlow fun d hd heq => ?_
  obtain rfl : d = c := Char.toNat_inj.mp (heq.trans hbyte)
  rw [h d hd] at hc
  cases hc

theorem Solid.line {text : List Char} (h : Solid text) : SP ∉ utf8 text ∧ CR ∉ utf8 text :=
  ⟨h.not_mem (c := ' ') (by decide) rfl (by decide),
    h.not_mem (c := '\r') (by decide) rfl (by decide)⟩

theorem Solid.trimmed {text : List Char} (h : Solid text) : trimBlanks (utf8 text) = utf8 text := by
  refine trimBlanks_of_none fun b hb => ?_
  have htab : HTAB ∉ utf8 text := h.not_mem (c := '\t') (by decide) rfl (by decide)
  rw [isBlank, decide_eq_false_iff_not]
  rintro (rfl | rfl)
  · exact h.line.1 hb
  · exact htab hb

theorem solid_decimal (n : Nat) : Solid (Text.decimal n) := fun _ hc =>
  Text.isWhitespace_of_isDigit (Text.isDigit_of_mem_decimal hc)

theorem requestMessage_writable {hostPort path : List Char} (hhost : Solid hostPort)
    (hpath : Solid path) (body : List Char) :
    (requestMessage hostPort path body).Writable where
  method := Solid.line (by decide)
  target := hpath.line
  version := Solid.line (by decide)
  fields := by
    have hnames : ∀ name ∈ ["Host", "Content-Type", "Content-Length", "Connection"],
        utf8 name.toList ≠ [] ∧ COLON ∉ utf8 name.toList ∧ CR ∉ utf8 name.toList := by decide
    have hfield : ∀ name ∈ ["Host", "Content-Type", "Content-Length", "Connection"],
        ∀ {value : List Char}, Solid value → WritableField (utf8 name.toList, utf8 value) := by
      intro name hname value hvalue
      obtain ⟨hsome, hplain⟩ := hnames name hname
      exact ⟨hsome, hplain, hvalue.line.2, hvalue.trimmed⟩
    have hjson : Solid "application/json".toList := by decide
    have hclose : Solid "close".toList := by decide
    simp only [requestMessage, List.forall_mem_cons]
    exact ⟨hfield "Host" (by decide) hhost, hfield "Content-Type" (by decide) hjson,
      hfield "Content-Length" (by decide) (solid_decimal _),
      hfield "Connection" (by decide) hclose, by simp⟩
  length := by
    have hfilter : (requestMessage hostPort path body).fields.filter (fieldNamed "content-length") =
        [(utf8 "Content-Length".toList, utf8 (Text.decimal (utf8 body).length))] := rfl
    rw [bodyLength, hfilter]
    exact readLength_decimal _

/-! ## Where it goes -/

theorem trimStartMatches_sublist (mark text : List Char) :
    (trimStartMatches mark text).Sublist text := by
  have hmark : ∀ fuel (rest : List Char), (trimMark mark fuel rest).Sublist rest := by
    intro fuel
    induction fuel with
    | zero => exact fun rest => List.Sublist.refl _
    | succ fuel ih =>
        intro rest
        rw [trimMark]
        split
        · exact (ih _).trans (List.drop_sublist _ _)
        · exact List.Sublist.refl _
  exact hmark _ _

/-- What a request needs to know of where it goes. -/
structure Address (hostPort path : List Char) : Prop where
  host : Solid hostPort
  named : hostPort ≠ []
  port : ':' ∈ hostPort
  rooted : path.head? = some '/'
  way : Solid path

theorem splitPath_solid {text : List Char} (h : Solid text) :
    Solid (splitPath text).1 ∧ Solid (splitPath text).2 ∧ (splitPath text).2.head? = some '/' := by
  unfold splitPath
  split
  next => exact ⟨h, (by decide : Solid "/v1/traces".toList), rfl⟩
  next slash path hpath =>
    have hslash : slash = '/' := by
      have hne : text.dropWhile (· ≠ '/') ≠ [] := by
        rw [hpath]
        exact List.cons_ne_nil _ _
      have hhead := List.head_dropWhile_not (· ≠ '/') hne
      simp only [hpath, List.head_cons] at hhead
      simpa using hhead
    refine ⟨h.sublist (List.takeWhile_sublist _), ?_, by rw [hslash]; rfl⟩
    exact hpath ▸ h.sublist (List.dropWhile_sublist _)

theorem splitEndpoint_ok {endpoint hostPort path : List Char} (hsolid : Solid (Text.trim endpoint))
    (h : splitEndpoint endpoint = .ok (hostPort, path)) : Address hostPort path := by
  have htrimmed := (trimStartMatches_sublist "https://".toList _).trans
    (trimStartMatches_sublist "http://".toList (Text.trim endpoint))
  obtain ⟨hauthority, hpath, hrooted⟩ := splitPath_solid (hsolid.sublist htrimmed)
  unfold splitEndpoint at h
  dsimp only at h
  split at h
  · cases h
  · next hne =>
      cases h
      refine ⟨?_, ?_, ?_, hrooted, hpath⟩
      · split
        · exact hauthority
        · intro c hc
          rcases List.mem_append.mp hc with hc | hc
          · exact hauthority c hc
          · exact (by decide : Solid ":4318".toList) c hc
      · split
        · exact hne
        · simp
      · split
        · next hcolon => simpa using hcolon
        · simp

theorem collect_request {hostPort path body : List Char} {v : Value} (h : Address hostPort path)
    (hparse : parse body = some v) (more : List UInt8) :
    collect (utf8 (requestText hostPort path body) ++ more) =
      some (requestMessage hostPort path body, v) := by
  have hread := readMessage_write (requestMessage_writable h.host h.way body) more
  have hbody : decode (requestMessage hostPort path body).body = some body := decode_utf8 body
  rw [requestText_write, collect, hread]
  simp only [Option.bind_eq_bind, Option.bind_some, hbody, hparse]

/-- The collector was reached, and answered what counts as taken. -/
structure Taken (net : Network) (hostPort : List Char) (bytes : List UInt8) : Prop where
  connected : net.connects hostPort = true
  answered : ∃ response, net.answer bytes = some response ∧
    ∃ code ∈ CODES, code <:+: firstLine response

theorem post_ok {net : Network} {endpoint body : List Char} :
    post net endpoint body = .ok () ↔ ∃ hostPort path,
      splitEndpoint endpoint = .ok (hostPort, path) ∧
      Taken net hostPort (utf8 (requestText hostPort path body)) := by
  simp only [post, bind_eq_ok, Prod.exists]
  refine exists₂_congr fun hostPort path => and_congr_right fun _ => ?_
  cases hconnects : net.connects hostPort with
  | false =>
      constructor
      · intro h
        cases h
      · intro h
        have := h.connected
        simp [hconnects] at this
  | true =>
      simp only [Bool.true_eq_false, if_false]
      constructor
      · intro h
        refine ⟨hconnects, ?_⟩
        split at h
        · cases h
        · next response hresponse =>
            split at h
            · next hcode => exact ⟨response, hresponse, by simpa using hcode⟩
            · cases h
      · intro h
        obtain ⟨response, hresponse, code, hmem, hcode⟩ := h.answered
        rw [hresponse]
        exact if_pos (List.any_eq_true.mpr ⟨code, hmem, decide_eq_true hcode⟩)

/-- An export of recorded phases, to an endpoint without white space and with no control character
but the line feed in the texts, goes well exactly if random bytes are there, the endpoint names a
host, and its collector takes the request. Then what the collector reads off the connection is
one message, to that host and path, with the document of the recorded phases in it. -/
theorem delivered {net : Network} {urandom : Nat → Option (Nat → UInt8)} {endpoint : List Char}
    {host root containerId : String} {origin : Nat} {phases : List Phase} (hphases : phases ≠ [])
    (hsolid : Solid (Text.trim endpoint))
    (htexts : ∀ text ∈ texts host root containerId phases, ∀ c ∈ text.toList,
      c.toNat < 32 → c = '\n') :
    exportTrace net urandom endpoint host root containerId origin phases = .ok () ↔
      ∃ hostPort path body v, exportBody urandom host root containerId origin phases =
          some (some body) ∧
        splitEndpoint endpoint = .ok (hostPort, path) ∧
        Taken net hostPort (utf8 (requestText hostPort path body)) ∧
        document urandom host root containerId origin phases = some v ∧
        ∀ more, collect (utf8 (requestText hostPort path body) ++ more) =
          some (requestMessage hostPort path body, v) := by
  unfold exportTrace
  cases hbody : exportBody urandom host root containerId origin phases with
  | none => simp
  | some posted =>
      cases posted with
      | none =>
          rw [exportBody_eq hphases] at hbody
          obtain ⟨v, -, hnone⟩ := Option.map_eq_some_iff.mp hbody
          cases hnone
      | some body =>
          obtain ⟨v, hv, hparse⟩ := exportBody_parse hbody
          have hcovered : (texts host root containerId phases).all coveredText = true :=
            List.all_eq_true.mpr fun text htext => (coveredText_iff text).mpr (htexts text htext)
          rw [if_pos hcovered] at hparse
          simp only [post_ok]
          constructor
          · rintro ⟨hostPort, path, hsplit, htaken⟩
            exact ⟨hostPort, path, body, v, rfl, hsplit, htaken, hv,
              collect_request (splitEndpoint_ok hsolid hsplit) hparse⟩
          · rintro ⟨hostPort, path, body', -, heq, hsplit, htaken, -⟩
            obtain rfl := Option.some.inj (Option.some.inj heq)
            exact ⟨hostPort, path, hsplit, htaken⟩

def obliging : Network where
  connects := fun _ => true
  answer := fun _ => some "HTTP/1.1 200 OK\r\nContent-Length: 0\r\n\r\n".toList

theorem delivered_tempo :
    exportTrace obliging zeros " http://tempo/v1/traces ".toList "node" "container.create" "web" 7
        [⟨"bundle", 0, 5⟩] = .ok () ∧
      ∃ body v, ∀ more, collect
          (utf8 (requestText "tempo:4318".toList "/v1/traces".toList body) ++ more) =
        some (requestMessage "tempo:4318".toList "/v1/traces".toList body, v) := by
  have hsplit : splitEndpoint " http://tempo/v1/traces ".toList =
      .ok ("tempo:4318".toList, "/v1/traces".toList) := by decide +kernel
  obtain ⟨body, hbody⟩ : ∃ body, exportBody zeros "node" "container.create" "web" 7
      [⟨"bundle", 0, 5⟩] = some (some body) := by
    rw [exportBody_eq (List.cons_ne_nil _ _)]
    exact ⟨_, rfl⟩
  have hexport : exportTrace obliging zeros " http://tempo/v1/traces ".toList "node"
      "container.create" "web" 7 [⟨"bundle", 0, 5⟩] = .ok () := by
    rw [exportTrace, hbody]
    refine post_ok.mpr ⟨_, _, hsplit, rfl, _, rfl, " 200".toList, by decide, by decide +kernel⟩
  have hsolid : Solid (Text.trim " http://tempo/v1/traces ".toList) := by decide +kernel
  obtain ⟨hostPort, path, body, v, -, hsplit', -, -, hcollect⟩ :=
    (delivered (List.cons_ne_nil _ _) hsolid (texts_covered (by decide +kernel))).mp hexport
  obtain ⟨rfl, rfl⟩ := Prod.mk.inj (Except.ok.inj (hsplit.symm.trans hsplit'))
  exact ⟨hexport, body, v, hcollect⟩

end Mars.Telemetry
