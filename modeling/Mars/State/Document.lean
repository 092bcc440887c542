import Mars.State.Format

/-! # What is told about a container

The state of a container is printed for whoever asks for it, alone or in a list with
the others, and goes to the standard input of every hook. A stopped container has no
process there, and without annotations there is no member for them.
-/

namespace Mars.State
open JsonRead

structure OciState where
  version : String
  id : String
  status : Status
  pid : Option Int
  bundle : String
  annotations : Option (List (String × String))
  deriving DecidableEq

def Container.ociState (container : Container) (host : Host) : OciState :=
  let status := container.status host
  { version := container.state.ociVersion
    id := container.state.id
    status := status
    pid := match status with
      | .stopped => none
      | _ => some container.state.pid
    bundle := container.state.bundle
    annotations :=
      if container.state.annotations.isEmpty then none else some container.state.annotations }

/-! ## Writing -/

/-- The members that the attributes of the fields ask for. -/
def OciState.members (state : OciState) : List (String × Value) :=
  [("ociVersion", .string state.version), ("id", .string state.id),
    ("status", .string state.status.toText)] ++
  (state.pid.toList.map fun pid => ("pid", .number (numeral pid))) ++
  [("bundle", .string state.bundle)] ++
  state.annotations.toList.map fun annotations => ("annotations", mapValue annotations)

def OciState.value (state : OciState) : Value := .object state.members

def listValue (states : List OciState) : Value := .array (states.map OciState.value)

/-- What a hook gets. -/
def payload (writer : Writer OciState) (container : Container) (host : Host) : Option String :=
  writer.toString (container.ociState host)

/-- What `state` prints. -/
def stateText (writer : Writer OciState) (container : Container) (host : Host) : Option String :=
  writer.toStringPretty (container.ociState host)

/-- What `list` prints, with the containers in their order. -/
def listText (writer : Writer (List OciState)) (containers : List Container)
    (host : Container → Host) : Option String :=
  writer.toStringPretty (containers.map fun container => container.ociState (host container))

/-! ## Reading -/

def Status.ofText (text : String) : Option Status :=
  [Status.creating, .created, .running, .stopped, .paused].find? fun status => status.toText = text

def optional {α : Type} (read : Value → Option α) (members : List (String × Value))
    (name : String) : Option (Option α) :=
  (member members name).bind fun found => match found with
    | none => some none
    | some value => (read value).map some

/-- As a reader takes it that knows the names and the types of the fields. -/
def OciState.ofMembers (members : List (String × Value)) : Option OciState := do
  let version ← required asString members "ociVersion"
  let id ← required asString members "id"
  let status ← required (fun value => asString value >>= Status.ofText) members "status"
  let pid ← optional (asInt (-2 ^ 31) (2 ^ 31)) members "pid"
  let bundle ← required asString members "bundle"
  let annotations ← optional asMap members "annotations"
  some { version, id, status, pid, bundle, annotations }

def OciState.read : Value → Option OciState
  | .object members => OciState.ofMembers members
  | _ => none

def readList : Value → Option (List OciState)
  | .array items => items.mapM OciState.read
  | _ => none

/-! ## Reading what was written -/

structure OciState.InRange (state : OciState) : Prop where
  pid : ∀ pid ∈ state.pid, -2 ^ 31 ≤ pid ∧ pid < 2 ^ 31
  annotations : ∀ annotations ∈ state.annotations, (annotations.map Prod.fst).Nodup

theorem Status.ofText_toText (status : Status) : Status.ofText status.toText = some status := by
  cases status <;> decide

theorem member_pid (state : OciState) :
    member state.members "pid" = some (state.pid.map fun pid => .number (numeral pid)) := by
  obtain ⟨version, id, status, pid, bundle, annotations⟩ := state
  cases pid <;> cases annotations <;> rfl

theorem member_annotations (state : OciState) :
    member state.members "annotations" = some (state.annotations.map mapValue) := by
  obtain ⟨version, id, status, pid, bundle, annotations⟩ := state
  cases pid <;> cases annotations <;> rfl

theorem member_bundle (state : OciState) :
    member state.members "bundle" = some (some (.string state.bundle)) := by
  obtain ⟨version, id, status, pid, bundle, annotations⟩ := state
  cases pid <;> cases annotations <;> rfl

theorem member_front (state : OciState) :
    member state.members "ociVersion" = some (some (.string state.version)) ∧
      member state.members "id" = some (some (.string state.id)) ∧
      member state.members "status" = some (some (.string state.status.toText)) := by
  obtain ⟨version, id, status, pid, bundle, annotations⟩ := state
  cases pid <;> cases annotations <;> exact ⟨rfl, rfl, rfl⟩

theorem optional_map {α : Type} {read : Value → Option α} {write : α → Value} {found : Option α}
    {members : List (String × Value)} {name : String}
    (hfound : member members name = some (found.map write))
    (hread : ∀ a ∈ found, read (write a) = some a) : optional read members name = some found := by
  rw [optional, hfound, Option.bind_some]
  cases found with
  | none => rfl
  | some a =>
      have ha := hread a rfl
      simp only [Option.map_some, ha]

theorem OciState.read_value {state : OciState} (h : state.InRange) :
    OciState.read state.value = some state := by
  obtain ⟨hversion, hid, hstatus⟩ := member_front state
  have hpid : optional (asInt (-2 ^ 31) (2 ^ 31)) state.members "pid" = some state.pid :=
    optional_map (member_pid state) fun pid hpid => asInt_numeral (h.pid pid hpid)
  have hannotations : optional asMap state.members "annotations" = some state.annotations :=
    optional_map (member_annotations state) fun annotations hmem =>
      asMap_mapValue (h.annotations annotations hmem)
  have hstatus' : required (fun value => asString value >>= Status.ofText) state.members "status" =
      some state.status := by
    rw [required, hstatus]
    exact Status.ofText_toText state.status
  rw [OciState.value, OciState.read, OciState.ofMembers, hpid, hannotations, hstatus', required,
    required, required, hversion, hid, member_bundle]
  rfl

theorem readList_values {states : List OciState} (h : ∀ state ∈ states, state.InRange) :
    readList (.array (states.map OciState.value)) = some states := by
  rw [readList]
  induction states with
  | nil => rfl
  | cons state rest ih =>
      obtain ⟨hfirst, hrest⟩ := List.forall_mem_cons.mp h
      rw [List.map_cons, List.mapM_cons, OciState.read_value hfirst, ih hrest]
      rfl

/-! ## Loaded containers -/

theorem ociState_inRange {container : Container} (h : Store.InRange container.state) (host : Host) :
    (container.ociState host).InRange := by
  obtain ⟨hpid, -, hannotations⟩ := h
  refine ⟨?_, ?_⟩
  · intro pid hmem
    unfold Container.ociState at hmem
    dsimp only at hmem
    split at hmem
    · cases hmem
    · exact Option.some.inj hmem ▸ hpid
  · intro annotations hmem
    unfold Container.ociState at hmem
    dsimp only at hmem
    split at hmem
    · cases hmem
    · exact Option.some.inj hmem ▸ hannotations

theorem ociState_pid (container : Container) (host : Host) :
    (container.ociState host).pid =
      if container.alive host then some container.state.pid else none := by
  have hstopped := container.status_stopped_iff host
  unfold Container.ociState
  dsimp only
  cases hstatus : container.status host with
  | stopped =>
      rw [hstopped.mp hstatus]
      rfl
  | _ =>
      have halive : container.alive host = true := by
        rw [← Bool.not_eq_false]
        intro hdead
        rw [hstopped.mpr hdead] at hstatus
        cases hstatus
      rw [halive]
      rfl

section loaded
variable {serde : Store.Serde} {files : Store.Files} {layout : Paths.Layout} {container : Container}

theorem load_inRange (htyped : serde.Typed) {id : String}
    (h : Store.load serde files layout id = .ok container) : Store.InRange container.state := by
  unfold Store.load at h
  dsimp only at h
  split at h
  next => cases h
  next =>
    split at h
    next => cases h
    next text _ =>
      split at h
      next => cases h
      next state hstate =>
        obtain rfl := Except.ok.inj h
        exact htyped _ _ hstate

theorem list_inRange (htyped : serde.Typed) {entries : Store.ReadDir} {containers : List Container}
    (h : Store.list serde files layout entries = .ok containers) (hmem : container ∈ containers) :
    Store.InRange container.state := by
  obtain ⟨-, rfl⟩ | ⟨-, all, -, -, rfl⟩ := Store.list_eq_ok.mp h
  · cases hmem
  · obtain ⟨id, -, hload⟩ := List.mem_filterMap.mp (List.mem_mergeSort.mp hmem)
    exact load_inRange htyped (Store.toOption_eq_some.mp hload)

end loaded

/-- What a document tells a reader about a container. -/
structure Told (container : Container) (host : Host) (state : OciState) : Prop where
  record : state.version = container.state.ociVersion ∧ state.id = container.state.id ∧
    state.bundle = container.state.bundle ∧
    state.annotations.getD [] = container.state.annotations
  status : state.status = container.status host
  /-- The process is the record's, and it is there only while it is alive. -/
  pid : state.pid = if container.alive host then some container.state.pid else none

theorem told_ociState (container : Container) (host : Host) :
    Told container host (container.ociState host) where
  record := by
    refine ⟨rfl, rfl, rfl, ?_⟩
    unfold Container.ociState
    dsimp only
    split
    next hempty => exact (List.isEmpty_iff.mp hempty).symm
    next => rfl
  status := rfl
  pid := ociState_pid container host

/-- Whatever the files and the host are: where the list of all containers, the text of one and the
payload of a hook are written, they are JSON, and read by names and types each tells of every
container what its record and the host say, in the order of the list. -/
theorem documents_read {serde : Store.Serde} (htyped : serde.Typed) {one : Writer OciState}
    (hone : one.Writes OciState.value) {all : Writer (List OciState)} (hall : all.Writes listValue)
    {files : Store.Files} {layout : Paths.Layout} {entries : Store.ReadDir}
    {containers : List Container} (hlist : Store.list serde files layout entries = .ok containers)
    (host : Container → Host) :
    (∀ text, listText all containers host = some text →
      ∃ states, (parse text.toList).bind readList = some states ∧
        List.Forall₂ (fun container => Told container (host container)) containers states) ∧
    ∀ container ∈ containers, ∀ text,
      stateText one container (host container) = some text ∨
        payload one container (host container) = some text →
      ∃ state, (parse text.toList).bind OciState.read = some state ∧
        Told container (host container) state := by
  have hrange : ∀ container ∈ containers, (container.ociState (host container)).InRange :=
    fun container hmem => ociState_inRange (list_inRange htyped hlist hmem) _
  refine ⟨?_, ?_⟩
  · intro text htext
    refine ⟨containers.map fun container => container.ociState (host container), ?_, ?_⟩
    · rw [hall.pretty _ text htext, Option.bind_some]
      refine readList_values ?_
      intro state hstate
      obtain ⟨container, hmem, rfl⟩ := List.mem_map.mp hstate
      exact hrange container hmem
    · rw [List.forall₂_map_right_iff, List.forall₂_same]
      exact fun container _ => told_ociState container _
  · intro container hmem text htext
    have hparse : parse text.toList = some (container.ociState (host container)).value := by
      rcases htext with htext | htext
      · exact hone.pretty _ text htext
      · exact hone.compact _ text htext
    refine ⟨_, ?_, told_ociState container _⟩
    rw [hparse, Option.bind_some]
    exact OciState.read_value (hrange container hmem)

/-- The container's process is alive. -/
def runningHost : Host where
  stat := fun pid =>
    if pid = 7 then
      some "7 (c) S 1 7 7 0 -1 4194304 1 2 3 4 5 6 7 8 20 0 1 0 555 1 2 3\n".toByteArray
    else none
  cgroupFile := fun _ => none
  pathExists := fun _ => false

theorem documents_read_running : ∃ containers text states,
    Store.list serde savedFiles Store.demoLayout (some [some "c1"]) = .ok containers ∧
      listText (printer listValue) containers (fun _ => runningHost) = some text ∧
      (parse text.toList).bind readList = some states ∧ states.map (·.pid) = [some 7] := by
  have hroot : FileStore.isDir savedFiles (UnixPath.components Store.demoLayout.root) = true := by
    decide +kernel
  have hfound : Store.found serde savedFiles Store.demoLayout ["c1"] =
      [⟨Store.demoLayout, Store.demoState "a"⟩] := by
    rw [Store.found_cons load_saved, Store.found, List.filterMap_nil]
  have hlist : Store.list serde savedFiles Store.demoLayout (some [some "c1"]) =
      .ok [⟨Store.demoLayout, Store.demoState "a"⟩] := by
    refine Store.list_eq_ok.mpr (.inr ⟨hroot, _, rfl, by decide, ?_⟩)
    show (Store.found serde savedFiles Store.demoLayout ["c1"]).mergeSort _ = _
    rw [hfound, List.mergeSort_singleton]
  obtain ⟨hall, -⟩ := documents_read serde_typed (printer_writes _) (printer_writes _) hlist
    fun _ => runningHost
  obtain ⟨states, hread, htold⟩ := hall _ rfl
  obtain ⟨state, rest, hone, hrest, rfl⟩ := List.forall₂_cons_left_iff.mp htold
  obtain rfl := List.forall₂_nil_left_iff.mp hrest
  have hpid := hone.pid
  have halive : Container.alive ⟨Store.demoLayout, Store.demoState "a"⟩ runningHost = true := by
    decide +kernel
  rw [halive] at hpid
  exact ⟨_, _, _, hlist, rfl, hread, congrArg (fun pid => [pid]) hpid⟩

end Mars.State
