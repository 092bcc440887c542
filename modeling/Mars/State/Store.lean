import Mathlib.Data.List.Infix
import Mathlib.Data.List.ReduceOption
import Mars.Core.FileStore
import Mars.Core.Transition
import Mars.State

/-! # The records on disk

Each container has a directory with its record in one file. A new record is
written next to the old one and then renamed into its place, so that a crash
leaves one or the other. Over this, the store is a map from ids to records.
-/

namespace Mars.Store
open UnixPath Paths State FileStore

abbrev Files := FileStore.Files Component Char

/-- The two directions of `serde_json` on a record. -/
structure Serde where
  toStringPretty : Persisted → Option String
  fromStr : String → Option Persisted

def Serde.RoundTrips (serde : Serde) : Prop :=
  ∀ state text, serde.toStringPretty state = some text → serde.fromStr text = some state

/-- The values that the types of a record's fields have. -/
def InRange (state : Persisted) : Prop :=
  (-2 ^ 31 ≤ state.pid ∧ state.pid < 2 ^ 31) ∧ state.startTime < 2 ^ 64 ∧
    (state.annotations.map Prod.fst).Nodup

instance decidableInRange (state : Persisted) : Decidable (InRange state) :=
  inferInstanceAs (Decidable (_ ∧ _ ∧ _))

/-- What is read has the types of the fields. -/
def Serde.Typed (serde : Serde) : Prop :=
  ∀ text state, serde.fromStr text = some state → InRange state

/-! ## Reading -/

def load (serde : Serde) (files : Files) (layout : Layout) (id : String) :
    Except Error Container :=
  let path := layout.stateFile id
  if !isFile files (components path) then .error (.notFound id)
  else
    match contents files (components path) with
    | none => .error (.io ("read " ++ path))
    | some text =>
        match serde.fromStr (String.ofList text) with
        | none => .error .json
        | some state => .ok ⟨layout, state⟩

/-- What `read_dir` finds in a directory, in some order. -/
def fileNames (files : Files) (dir : String) : List String :=
  (names files (components dir)).filterMap fun part =>
    match part with
    | .normal name => some name.text
    | _ => none

/-- What `read_dir` yields, in some order; it can be refused, and so can an entry. -/
abbrev ReadDir := Option (List (Option String))

/-- The containers that can be read. -/
def found (serde : Serde) (files : Files) (layout : Layout) (order : List String) :
    List Container :=
  order.filterMap fun id => (load serde files layout id).toOption

def list (serde : Serde) (files : Files) (layout : Layout) (entries : ReadDir) :
    Except Error (List Container) :=
  if !isDir files (components layout.root) then .ok []
  else
    match entries with
    | none => .error (.io ("read " ++ layout.root))
    | some entries =>
        if none ∈ entries then .error (.io ("read an entry of " ++ layout.root))
        else
          .ok ((found serde files layout entries.reduceOption).mergeSort
            fun a b => a.state.created ≤ b.state.created)

section listing
variable {serde : Serde} {files : Files} {layout : Layout} {entries : ReadDir}
  {containers : List Container}

theorem found_cons {id : String} {container : Container}
    (h : load serde files layout id = .ok container) (rest : List String) :
    found serde files layout (id :: rest) = container :: found serde files layout rest := by
  rw [found, List.filterMap_cons, h]
  rfl

theorem list_eq_ok : list serde files layout entries = .ok containers ↔
    isDir files (components layout.root) = false ∧ containers = [] ∨
      isDir files (components layout.root) = true ∧ ∃ all, entries = some all ∧ none ∉ all ∧
        (found serde files layout all.reduceOption).mergeSort
          (fun a b => a.state.created ≤ b.state.created) = containers := by
  unfold list
  cases isDir files (components layout.root) with
  | false => simp [eq_comm]
  | true =>
      cases entries with
      | none => simp
      | some all => by_cases hall : none ∈ all <;> simp [hall]

/-- Only `read_dir` makes a listing fail. -/
theorem list_error {error : Error} (h : list serde files layout entries = .error error) :
    ∀ all ∈ entries, none ∈ all := by
  rintro all rfl
  by_contra hall
  unfold list at h
  split at h
  · cases h
  · simp only [if_neg hall] at h
    cases h

theorem list_sorted (h : list serde files layout entries = .ok containers) :
    containers.Pairwise fun a b => a.state.created ≤ b.state.created := by
  obtain ⟨-, rfl⟩ | ⟨-, all, -, -, rfl⟩ := list_eq_ok.mp h
  · exact List.Pairwise.nil
  · have hsorted := @List.pairwise_mergeSort _
      (fun a b : Container => decide (a.state.created ≤ b.state.created))
      (fun a b c hab hbc => by
        simpa using String.le_trans (by simpa using hab) (by simpa using hbc))
      (fun a b => by simpa using String.le_total a.state.created b.state.created)
      (found serde files layout all.reduceOption)
    simpa using hsorted

end listing

/-! ## Writing -/

/-- What a save does to the files, step by step. -/
inductive Step where
  | makeDir (path : List Component)
  | serialize (text : Option String)
  | truncate (path : List Component)
  | append (path : List Component) (data : List Char)
  | rename (source target : List Component)

def Step.run (files : Files) : Step → Option Files
  | .makeDir path => FileStore.makeDir files path
  | .serialize text => text.map fun _ => files
  | .truncate path => FileStore.truncate files path
  | .append path data => FileStore.append files path data
  | .rename source target => FileStore.rename files source target

/-- One directory after the other, from the top. -/
def createDirAll (dir : String) : List Step :=
  (components dir).inits.tail.map .makeDir

/-- The writes that a text goes out in. -/
def pieces : List Nat → List Char → List (List Char)
  | [], text => [text]
  | n :: cuts, text => text.take n :: pieces cuts (text.drop n)

def write (path text : String) (cuts : List Nat) : List Step :=
  .truncate (components path) :: (pieces cuts text.toList).map (.append (components path))

def staged (layout : Layout) (id : String) : String :=
  join (layout.containerDir id) "state.json.new"

/-- Each step with the error it is reported as. -/
def withError (error : Error) (steps : List Step) : List (Step × Error) :=
  steps.map fun step => (step, error)

/-- Everything in front of the rename. -/
def stageSteps (serde : Serde) (layout : Layout) (state : Persisted) (cuts : List Nat) :
    List (Step × Error) :=
  let dir := layout.containerDir state.id
  let staged := staged layout state.id
  let text := serde.toStringPretty state
  withError (.io ("create " ++ dir)) (createDirAll dir) ++
    withError .json [.serialize text] ++
    withError (.io ("write " ++ staged)) (write staged (text.getD "") cuts)

def renameStep (layout : Layout) (id : String) : Step × Error :=
  (.rename (components (staged layout id)) (components (layout.stateFile id)),
    .io ("rename " ++ staged layout id ++ " into place"))

def saveSteps (serde : Serde) (layout : Layout) (state : Persisted) (cuts : List Nat) :
    List (Step × Error) :=
  stageSteps serde layout state cuts ++ [renameStep layout state.id]

def execute (files : Files) : List (Step × Error) → Files × Except Error Unit
  | [] => (files, .ok ())
  | (step, error) :: rest =>
      match step.run files with
      | none => (files, .error error)
      | some files => execute files rest

/-- A save runs to its end, is killed in front of its `n`th step, or has that step refused. -/
inductive Fate where
  | runs
  | diesAt (n : Nat)
  | refusedAt (n : Nat)
  deriving DecidableEq

/-- The files a save leaves, and what it returns unless it is killed. -/
def save (serde : Serde) (files : Files) (layout : Layout) (state : Persisted) (cuts : List Nat)
    (fate : Fate) : Files × Option (Except Error Unit) :=
  let steps := saveSteps serde layout state cuts
  match fate with
  | .runs => ((execute files steps).1, some (execute files steps).2)
  | .diesAt n => ((execute files (steps.take n)).1, none)
  | .refusedAt n =>
      match (execute files (steps.take n)).2, steps[n]? with
      | .ok (), some (_, error) => ((execute files (steps.take n)).1, some (.error error))
      | result, _ => ((execute files (steps.take n)).1, some result)

def remove (files : Files) (container : Container) : Files :=
  let dir := components (container.layout.containerDir container.state.id)
  if (files.lookup dir).isSome then removeAll files dir else files

/-! ## Runs -/

inductive Event where
  | save (state : Persisted) (cuts : List Nat) (fate : Fate)
  | load (id : String)
  | remove (state : Persisted)
  | list (entries : ReadDir)

inductive Result where
  | saved (answer : Option (Except Error Unit))
  | loaded (answer : Except Error Container)
  | removed
  | listed (answer : Except Error (List Container))

def Event.Valid : Event → Prop
  | .save state _ _ => validateId state.id = .ok ()
  | .load id => validateId id = .ok ()
  | .remove state => validateId state.id = .ok ()
  | .list _ => True

structure World where
  files : Files
  history : List (Event × Result)

/-- One operation after the other; a listing that is not refused reads the root in any order. -/
def step (serde : Serde) (layout : Layout) (w : World) (event : Event) : Option World :=
  match event with
  | .save state cuts fate =>
      let (files, answer) := save serde w.files layout state cuts fate
      some ⟨files, w.history ++ [(event, .saved answer)]⟩
  | .load id =>
      some ⟨w.files, w.history ++ [(event, .loaded (load serde w.files layout id))]⟩
  | .remove state =>
      some ⟨remove w.files ⟨layout, state⟩, w.history ++ [(event, .removed)]⟩
  | .list entries =>
      if ∀ all ∈ entries, none ∉ all → all.reduceOption.Perm (fileNames w.files layout.root) then
        some ⟨w.files, w.history ++ [(event, .listed (list serde w.files layout entries))]⟩
      else none

/-! ## The map behind it -/

/-- The record of each container that there is. -/
abbrev Records := String → Option Persisted

/-- What an operation may do to the records and return. -/
inductive Records.Allows (layout : Layout) (records : Records) : Event → Result → Records → Prop
  | saved {state : Persisted} {cuts : List Nat} {fate : Fate} :
      Allows layout records (.save state cuts fate) (.saved (some (.ok ())))
        (Function.update records state.id (some state))
  | refused {state : Persisted} {cuts : List Nat} {fate : Fate} {error : Error} :
      Allows layout records (.save state cuts fate) (.saved (some (.error error))) records
  | diedBefore {state : Persisted} {cuts : List Nat} {n : Nat} :
      Allows layout records (.save state cuts (.diesAt n)) (.saved none) records
  | diedBehind {state : Persisted} {cuts : List Nat} {n : Nat} :
      Allows layout records (.save state cuts (.diesAt n)) (.saved none)
        (Function.update records state.id (some state))
  | found {id : String} {state : Persisted} (h : records id = some state) :
      Allows layout records (.load id) (.loaded (.ok ⟨layout, state⟩)) records
  | absent {id : String} (h : records id = none) :
      Allows layout records (.load id) (.loaded (.error (.notFound id))) records
  | removed {state : Persisted} :
      Allows layout records (.remove state) .removed (Function.update records state.id none)
  | unlisted {entries : ReadDir} {error : Error} (hrefused : ∀ all ∈ entries, none ∈ all) :
      Allows layout records (.list entries) (.listed (.error error)) records
  | listed {entries : ReadDir} {containers : List Container}
      (hexact : ∀ container, container ∈ containers ↔ container.layout = layout ∧
        records container.state.id = some container.state)
      (honce : containers.Nodup)
      (hsorted : containers.Pairwise fun a b => a.state.created ≤ b.state.created) :
      Allows layout records (.list entries) (.listed (.ok containers)) records

/-- The operations and their results are a run of the map. -/
inductive Records.Explains (layout : Layout) :
    List (Event × Result) → Records → Prop
  | start : Explains layout [] fun _ => none
  | next {history : List (Event × Result)} {records records' : Records} {event : Event}
      {result : Result} (h : Explains layout history records)
      (hallows : Allows layout records event result records') :
      Explains layout (history ++ [(event, result)]) records'

/-! ## Where the files lie -/

def stateName : Name := ⟨STATE_FILE, by decide⟩

def stagedName : Name := ⟨"state.json.new", by decide⟩

section places
variable {layout : Layout} {id : String}

/-- An accepted id as one entry of the root. -/
def idName (h : validateId id = .ok ()) : Name := ⟨id, plain_of_validateId h⟩

theorem components_containerDir (h : validateId id = .ok ()) :
    components (layout.containerDir id) = components layout.root ++ [.normal (idName h)] :=
  components_join_name layout.root (idName h)

theorem components_stateFile (h : validateId id = .ok ()) :
    components (layout.stateFile id) =
      components layout.root ++ [.normal (idName h), .normal stateName] := by
  have hjoin := components_join_name (layout.containerDir id) stateName
  rw [components_containerDir h, List.append_assoc] at hjoin
  exact hjoin

theorem components_staged (h : validateId id = .ok ()) :
    components (staged layout id) =
      components layout.root ++ [.normal (idName h), .normal stagedName] := by
  have hjoin := components_join_name (layout.containerDir id) stagedName
  rw [components_containerDir h, List.append_assoc] at hjoin
  exact hjoin

theorem stateName_ne_stagedName : stateName ≠ stagedName := by decide

end places

/-! ## What the store looks like -/

/-- What may lie below the root: directories named by ids, in each at most a
staged text and a record of the container that the directory is named by. -/
inductive Entry (serde : Serde) : List Component → Node Char → Prop
  | dir {id : Name} (hid : validateId id.text = .ok ()) : Entry serde [.normal id] .dir
  | staged {id : Name} (hid : validateId id.text = .ok ()) {text : List Char} :
      Entry serde [.normal id, .normal stagedName] (.file text)
  | state {id : Name} (hid : validateId id.text = .ok ()) {text : List Char} {state : Persisted}
      (hparse : serde.fromStr (String.ofList text) = some state) (hsame : state.id = id.text) :
      Entry serde [.normal id, .normal stateName] (.file text)

structure Tidy (serde : Serde) (layout : Layout) (files : Files) : Prop where
  entry : ∀ p node, files.lookup (components layout.root ++ p) = some node → p ≠ [] →
    Entry serde p node
  root : ∀ part, files.lookup (components layout.root ++ [part]) ≠ none →
    files.lookup (components layout.root) = some .dir
  dir : ∀ part name, files.lookup (components layout.root ++ [part, name]) ≠ none →
    files.lookup (components layout.root ++ [part]) = some .dir

/-- The root is empty, or it is not there yet. -/
structure EmptyRoot (layout : Layout) (files : Files) : Prop where
  named : layout.root ≠ ""
  below : ∀ p, p ≠ [] → files.lookup (components layout.root ++ p) = none

theorem tidy_empty {serde : Serde} {layout : Layout} {files : Files}
    (h : EmptyRoot layout files) : Tidy serde layout files where
  entry := by
    intro p node hlookup hp
    rw [h.below p hp] at hlookup
    cases hlookup
  root := fun part hsome => absurd (h.below _ (by simp)) hsome
  dir := fun part name hsome => absurd (h.below _ (by simp)) hsome

/-- The records that can be loaded. -/
def recordsOf (serde : Serde) (layout : Layout) (files : Files) : Records := fun id =>
  match validateId id with
  | .ok () => (load serde files layout id).toOption.map (·.state)
  | .error _ => none

section tidy
variable {serde : Serde} {layout : Layout} {files files' : Files} {id : String}

/-- Loading is reading one file that is a record or is not there. -/
theorem Tidy.load (h : Tidy serde layout files) (hid : validateId id = .ok ()) :
    (files.lookup (components (layout.stateFile id)) = none ∧
      load serde files layout id = .error (.notFound id)) ∨
    ∃ text state, files.lookup (components (layout.stateFile id)) = some (.file text) ∧
      serde.fromStr (String.ofList text) = some state ∧ state.id = id ∧
      load serde files layout id = .ok ⟨layout, state⟩ := by
  cases hlookup : files.lookup (components (layout.stateFile id)) with
  | none =>
      left
      refine ⟨rfl, ?_⟩
      have hfile : isFile files (components (layout.stateFile id)) = false := by
        simp [isFile, contents, hlookup]
      simp [Store.load, hfile]
  | some node =>
      right
      have hentry := h.entry _ _ (components_stateFile hid ▸ hlookup) (by simp)
      generalize hp : [Component.normal (idName hid), .normal stateName] = p at hentry
      cases hentry with
      | dir => simp at hp
      | staged => simp [stateName_ne_stagedName] at hp
      | @state name _ text state hparse hsame =>
          have hname : idName hid = name := by simpa using hp
          have hcontents : contents files (components (layout.stateFile id)) = some text :=
            contents_eq_some.mpr hlookup
          refine ⟨text, state, rfl, hparse, by rw [hsame, ← hname]; rfl, ?_⟩
          simp [Store.load, isFile, hcontents, hparse]

theorem Tidy.recordsOf_eq_some (h : Tidy serde layout files) {state : Persisted} :
    recordsOf serde layout files id = some state ↔
      validateId id = .ok () ∧ Store.load serde files layout id = .ok ⟨layout, state⟩ := by
  unfold recordsOf
  split
  next hid =>
    rcases h.load hid with ⟨-, hnone⟩ | ⟨text, found, -, -, -, hload⟩
    · simp [hnone, hid, Except.toOption]
    · simp [hload, hid, Except.toOption]
  next hid => simp [hid]

theorem load_congr (h : files'.lookup (components (layout.stateFile id)) =
    files.lookup (components (layout.stateFile id))) :
    Store.load serde files' layout id = Store.load serde files layout id := by
  have hcontents : contents files' (components (layout.stateFile id)) =
      contents files (components (layout.stateFile id)) := by
    unfold contents
    rw [h]
  unfold Store.load isFile
  dsimp only
  rw [hcontents]

/-- Nothing but the record files decides what can be loaded. -/
theorem recordsOf_congr
    (h : ∀ id, validateId id = .ok () →
      files'.lookup (components (layout.stateFile id)) =
        files.lookup (components (layout.stateFile id))) :
    recordsOf serde layout files' = recordsOf serde layout files := by
  funext id
  unfold recordsOf
  split
  next hid =>
    rw [load_congr (h id hid)]
  next => rfl

theorem idName_inj {other : String} (hid : validateId id = .ok ())
    (hother : validateId other = .ok ())
    (h : components (layout.stateFile id) = components (layout.stateFile other)) : id = other := by
  rw [components_stateFile hid, components_stateFile hother] at h
  have hname : idName hid = idName hother := by
    simpa using (List.cons.inj (List.append_cancel_left h)).1
  exact congrArg Name.text hname

/-- One record file is replaced, and the others are left alone. -/
theorem recordsOf_update {state : Persisted} {text : List Char}
    (hid : validateId state.id = .ok ())
    (hcontents : contents files' (components (layout.stateFile state.id)) = some text)
    (hparse : serde.fromStr (String.ofList text) = some state)
    (hothers : ∀ id, validateId id = .ok () → id ≠ state.id →
      files'.lookup (components (layout.stateFile id)) =
        files.lookup (components (layout.stateFile id))) :
    recordsOf serde layout files' =
      Function.update (recordsOf serde layout files) state.id (some state) := by
  funext id
  by_cases hsame : id = state.id
  · subst hsame
    have hload : Store.load serde files' layout state.id = .ok ⟨layout, state⟩ := by
      simp [Store.load, isFile, hcontents, hparse]
    simp [recordsOf, hid, hload, Except.toOption]
  · rw [Function.update_of_ne hsame]
    unfold recordsOf
    split
    next hother => rw [load_congr (hothers id hother hsame)]
    next => rfl

/-- An entry is put in place: what it may be, and that what leads to it is there. -/
theorem Tidy.put (h : Tidy serde layout files) {path : List Component} {node : Node Char}
    (hlookup : ∀ q, files'.lookup q = if q = path then some node else files.lookup q)
    (hentry : ∀ p, path = components layout.root ++ p → p ≠ [] → Entry serde p node)
    (hroot : ∀ part, path = components layout.root ++ [part] →
      files.lookup (components layout.root) = some .dir)
    (hdir : ∀ part name, path = components layout.root ++ [part, name] →
      files.lookup (components layout.root ++ [part]) = some .dir)
    (hkeeps : files.lookup path = some .dir → node = .dir) : Tidy serde layout files' := by
  have hstays : ∀ q, files.lookup q = some .dir → files'.lookup q = some .dir := by
    intro q hq
    rw [hlookup]
    split
    next heq => rw [hkeeps (heq ▸ hq)]
    next => exact hq
  constructor
  case entry =>
    intro p found hfound hp
    rw [hlookup] at hfound
    split at hfound
    next heq =>
      cases hfound
      exact hentry p heq.symm hp
    next => exact h.entry p found hfound hp
  case root =>
    intro part hsome
    apply hstays
    rw [hlookup] at hsome
    split at hsome
    next heq => exact hroot part heq.symm
    next => exact h.root part hsome
  case dir =>
    intro part name hsome
    apply hstays
    rw [hlookup] at hsome
    split at hsome
    next heq => exact hdir part name heq.symm
    next => exact h.dir part name hsome

end tidy

/-! ## Steps that no reader sees -/

/-- The steps of a save in front of its rename. -/
inductive Quiet (layout : Layout) (id : String) : Step → Prop
  | makeDir {path : List Component} (hpath : path <+: components (layout.containerDir id)) :
      Quiet layout id (.makeDir path)
  | serialize {text : Option String} : Quiet layout id (.serialize text)
  | truncate : Quiet layout id (.truncate (components (staged layout id)))
  | append {data : List Char} : Quiet layout id (.append (components (staged layout id)) data)

section quiet
variable {serde : Serde} {layout : Layout} {files files' : Files} {id : String} {step : Step}

theorem stateFile_ne_staged {other : String} (hid : validateId id = .ok ())
    (hother : validateId other = .ok ()) :
    components (layout.stateFile other) ≠ components (staged layout id) := by
  rw [components_stateFile hother, components_staged hid]
  simp [stateName_ne_stagedName]

theorem Tidy.makeDir (h : Tidy serde layout files) (hnamed : layout.root ≠ "")
    (hid : validateId id = .ok ()) {path : List Component}
    (hpath : path <+: components (layout.containerDir id))
    (hrun : FileStore.makeDir files path = some files') :
    Tidy serde layout files' ∧ recordsOf serde layout files' = recordsOf serde layout files := by
  have hlookup := lookup_makeDir hrun
  rw [components_containerDir hid] at hpath
  have hlength := hpath.length_le
  simp only [List.length_append, List.length_singleton] at hlength
  have hbelow : ∀ p, path = components layout.root ++ p → p ≠ [] → p = [.normal (idName hid)] := by
    intro p heq hp
    subst heq
    have hone : p <+: [.normal (idName hid)] := (List.prefix_append_right_inj _).mp hpath
    rcases List.prefix_cons_iff.mp hone with hnil | ⟨rest, rfl, hrest⟩
    · exact absurd hnil hp
    · rw [List.prefix_nil.mp hrest]
  constructor
  · refine h.put hlookup ?_ ?_ ?_ fun _ => rfl
    · intro p heq hp
      rw [hbelow p heq hp]
      exact .dir hid
    · intro part heq
      unfold FileStore.makeDir at hrun
      subst heq
      split at hrun
      next =>
        split at hrun
        next hparent =>
          rw [List.dropLast_concat] at hparent
          rcases hparent with hnil | hisdir
          · exact absurd hnil (components_ne_nil hnamed)
          · exact isDir_iff.mp hisdir
        next => cases hrun
      next hfound => exact h.root part (by simp [hfound])
      next => cases hrun
    · intro part name heq
      have hshort := hbelow _ heq (by simp)
      simp at hshort
  · apply recordsOf_congr
    intro other hother
    rw [hlookup, if_neg]
    intro heq
    have hlong := congrArg List.length heq
    rw [components_stateFile hother, List.length_append] at hlong
    simp only [List.length_cons, List.length_nil] at hlong
    omega

/-- Where the staged text lies, and in which directory. -/
theorem Tidy.stage (h : Tidy serde layout files) (hid : validateId id = .ok ()) {text : List Char}
    (hlookup : ∀ q, files'.lookup q =
      if q = components (staged layout id) then some (.file text) else files.lookup q)
    (hdir : files.lookup (components (layout.containerDir id)) = some .dir)
    (hfile : files.lookup (components (staged layout id)) ≠ some .dir) :
    Tidy serde layout files' ∧ recordsOf serde layout files' = recordsOf serde layout files := by
  constructor
  · refine h.put hlookup ?_ ?_ ?_ fun hsome => absurd hsome hfile
    · intro p heq _
      rw [components_staged hid] at heq
      rw [← List.append_cancel_left heq]
      exact .staged hid
    · intro part heq
      rw [components_staged hid] at heq
      simp at heq
    · intro part name heq
      rw [components_staged hid] at heq
      have hpart : part = .normal (idName hid) := by
        simpa using (List.cons.inj (List.append_cancel_left heq)).1.symm
      rw [hpart, ← components_containerDir hid]
      exact hdir
  · apply recordsOf_congr
    intro other hother
    rw [hlookup, if_neg (stateFile_ne_staged hid hother)]

theorem staged_dropLast :
    (components (staged layout id)).dropLast = components (layout.containerDir id) := by
  have hjoin := components_join_name (layout.containerDir id) stagedName
  rw [show components (staged layout id) = _ from hjoin, List.dropLast_concat]

/-- A step in front of the rename changes no record. -/
theorem Tidy.quiet (h : Tidy serde layout files) (hnamed : layout.root ≠ "")
    (hid : validateId id = .ok ()) (hquiet : Quiet layout id step)
    (hrun : step.run files = some files') :
    Tidy serde layout files' ∧ recordsOf serde layout files' = recordsOf serde layout files := by
  cases hquiet with
  | makeDir hpath => exact h.makeDir hnamed hid hpath hrun
  | serialize =>
      obtain ⟨-, -, rfl⟩ := Option.map_eq_some_iff.mp hrun
      exact ⟨h, rfl⟩
  | truncate =>
      have htruncate : FileStore.truncate files (components (staged layout id)) = some files' :=
        hrun
      refine h.stage hid (lookup_truncate htruncate) ?_ ?_
      · unfold FileStore.truncate at htruncate
        split at htruncate
        next hboth =>
          rw [staged_dropLast] at hboth
          exact isDir_iff.mp hboth.1
        next => cases htruncate
      · unfold FileStore.truncate at htruncate
        split at htruncate
        next hboth =>
          intro hdir
          simp [isDir_iff.mpr hdir] at hboth
        next => cases htruncate
  | append =>
      obtain ⟨old, hold, hlookup⟩ := lookup_append hrun
      have hfile := contents_eq_some.mp hold
      refine h.stage hid hlookup ?_ (by simp [hfile])
      rw [components_containerDir hid]
      apply h.dir _ (.normal stagedName)
      rw [← components_staged hid, hfile]
      exact Option.some_ne_none _

theorem Tidy.execute_quiet {steps : List (Step × Error)} (h : Tidy serde layout files)
    (hnamed : layout.root ≠ "") (hid : validateId id = .ok ())
    (hquiet : ∀ entry ∈ steps, Quiet layout id entry.1) :
    Tidy serde layout (execute files steps).1 ∧
      recordsOf serde layout (execute files steps).1 = recordsOf serde layout files := by
  induction steps generalizing files with
  | nil => exact ⟨h, rfl⟩
  | cons entry rest ih =>
      unfold execute
      split
      next => exact ⟨h, rfl⟩
      next next hrun =>
        obtain ⟨hnext, hsame⟩ := h.quiet hnamed hid (hquiet entry List.mem_cons_self) hrun
        obtain ⟨hend, hrecords⟩ := ih hnext fun e he => hquiet e (List.mem_cons_of_mem _ he)
        exact ⟨hend, hrecords.trans hsame⟩

theorem createDirAll_quiet : ∀ step ∈ createDirAll (layout.containerDir id),
    Quiet layout id step := by
  intro step hstep
  obtain ⟨path, hpath, rfl⟩ := List.mem_map.mp hstep
  exact .makeDir ((List.mem_inits _ _).mp (List.mem_of_mem_tail hpath))

theorem write_quiet {text : String} {cuts : List Nat} :
    ∀ step ∈ write (staged layout id) text cuts, Quiet layout id step := by
  intro step hstep
  rcases List.mem_cons.mp hstep with rfl | hstep
  · exact .truncate
  · obtain ⟨data, -, rfl⟩ := List.mem_map.mp hstep
    exact .append

theorem stageSteps_quiet {state : Persisted} {cuts : List Nat} :
    ∀ entry ∈ stageSteps serde layout state cuts, Quiet layout state.id entry.1 := by
  intro entry hentry
  simp only [stageSteps, withError, List.mem_append, List.mem_map, List.mem_singleton] at hentry
  rcases hentry with (⟨step, hstep, rfl⟩ | ⟨step, rfl, rfl⟩) | ⟨step, hstep, rfl⟩
  · exact createDirAll_quiet step hstep
  · exact .serialize
  · exact write_quiet step hstep

/-! ## What the rename puts in place -/

theorem flatten_pieces (cuts : List Nat) (text : List Char) : (pieces cuts text).flatten = text := by
  induction cuts generalizing text with
  | nil => simp [pieces]
  | cons n rest ih => rw [pieces, List.flatten_cons, ih, List.take_append_drop]

theorem execute_append (front back : List (Step × Error)) (files : Files) :
    execute files (front ++ back) =
      match execute files front with
      | (files, .ok ()) => execute files back
      | (files, .error error) => (files, .error error) := by
  induction front generalizing files with
  | nil => rfl
  | cons entry rest ih =>
      simp only [List.cons_append, execute]
      cases entry.1.run files with
      | none => rfl
      | some next => exact ih next

/-- The appends put one piece behind the other. -/
theorem execute_appends {path : List Component} {error : Error} (data : List (List Char))
    {old : List Char} (hold : contents files path = some old)
    (hok : (execute files (withError error (data.map (.append path)))).2 = .ok ()) :
    contents (execute files (withError error (data.map (.append path)))).1 path =
      some (old ++ data.flatten) := by
  induction data generalizing files old with
  | nil => simpa [withError, execute] using hold
  | cons piece rest ih =>
      simp only [withError, List.map_cons, execute] at hok ⊢
      split
      next hrun => simp [hrun] at hok
      next next hrun =>
        rw [hrun] at hok
        obtain ⟨found, hfound, hlookup⟩ := lookup_append hrun
        obtain rfl : old = found := Option.some.inj (hold.symm.trans hfound)
        have hnext : contents next path = some (old ++ piece) := by
          rw [contents_eq_some, hlookup, if_pos rfl]
        have hend := ih hnext hok
        simpa [withError] using hend

/-- A write that comes to its end has written all of the text. -/
theorem execute_write {path text : String} {cuts : List Nat} {error : Error}
    (hok : (execute files (withError error (write path text cuts))).2 = .ok ()) :
    contents (execute files (withError error (write path text cuts))).1 (components path) =
      some text.toList := by
  simp only [write, withError, List.map_cons, execute] at hok ⊢
  split
  next hrun => simp [hrun] at hok
  next next hrun =>
    rw [hrun] at hok
    have hempty : contents next (components path) = some [] := by
      rw [contents_eq_some, lookup_truncate hrun, if_pos rfl]
    have hend := execute_appends (pieces cuts text.toList) hempty hok
    rw [flatten_pieces] at hend
    simpa [withError] using hend

theorem execute_stage {state : Persisted} {cuts : List Nat}
    (hok : (execute files (stageSteps serde layout state cuts)).2 = .ok ()) :
    ∃ text, serde.toStringPretty state = some text ∧
      contents (execute files (stageSteps serde layout state cuts)).1
        (components (staged layout state.id)) = some text.toList := by
  rw [stageSteps, execute_append, execute_append] at hok ⊢
  split at hok
  next middle hmiddle =>
    split at hmiddle
    next made hmade =>
      cases htext : serde.toStringPretty state with
      | none => simp [htext, withError, execute, Step.run] at hmiddle
      | some text =>
          refine ⟨text, rfl, ?_⟩
          rw [htext] at hok hmiddle
          exact execute_write hok
    next => cases hmiddle
  next => cases hok

/-- The one step that a reader sees. -/
theorem Tidy.rename (h : Tidy serde layout files) {state : Persisted} {text : String}
    (hid : validateId state.id = .ok ())
    (hstaged : contents files (components (staged layout state.id)) = some text.toList)
    (hparse : serde.fromStr text = some state)
    (hrun : (renameStep layout state.id).1.run files = some files') :
    Tidy serde layout files' ∧ recordsOf serde layout files' =
      Function.update (recordsOf serde layout files) state.id (some state) := by
  obtain ⟨data, hdata, hlookup⟩ := lookup_rename hrun
  obtain rfl : text.toList = data := Option.some.inj (hstaged.symm.trans hdata)
  have hfile := contents_eq_some.mp hstaged
  have hstays : ∀ q, files.lookup q = some .dir → files'.lookup q = some .dir := by
    intro q hq
    rw [hlookup]
    split
    next heq =>
      have hrename : FileStore.rename files (components (staged layout state.id))
          (components (layout.stateFile state.id)) = some files' := hrun
      unfold FileStore.rename at hrename
      split at hrename
      next hboth => simp [← heq, isDir_iff.mpr hq] at hboth
      next => cases hrename
    next =>
      split
      next heq => cases hfile.symm.trans (heq ▸ hq)
      next => exact hq
  have hold : ∀ q, files'.lookup q ≠ none →
      q = components (layout.stateFile state.id) ∨ files.lookup q ≠ none := by
    intro q hsome
    rw [hlookup] at hsome
    split at hsome
    next heq => exact Or.inl heq
    next =>
      split at hsome
      next => exact absurd rfl hsome
      next => exact Or.inr hsome
  constructor
  · constructor
    case entry =>
      intro p node hnode hp
      rw [hlookup] at hnode
      split at hnode
      next heq =>
        cases hnode
        rw [components_stateFile hid] at heq
        rw [List.append_cancel_left heq]
        exact @Entry.state serde (idName hid) hid _ _ (by rw [String.ofList_toList]; exact hparse) rfl
      next =>
        split at hnode
        next => cases hnode
        next => exact h.entry p node hnode hp
    case root =>
      intro part hsome
      apply hstays
      rcases hold _ hsome with heq | hsome
      · rw [components_stateFile hid] at heq
        simp at heq
      · exact h.root part hsome
    case dir =>
      intro part name hsome
      apply hstays
      rcases hold _ hsome with heq | hsome
      · rw [components_stateFile hid] at heq
        have hpart : part = .normal (idName hid) := by
          simpa using (List.cons.inj (List.append_cancel_left heq)).1
        apply h.dir part (.normal stagedName)
        rw [hpart, ← components_staged hid, hfile]
        exact Option.some_ne_none _
      · exact h.dir part name hsome
  · have hcontents : contents files' (components (layout.stateFile state.id)) =
        some text.toList := by
      rw [contents_eq_some, hlookup, if_pos rfl]
    apply recordsOf_update hid hcontents
    · rw [String.ofList_toList]
      exact hparse
    · intro id hother hne
      rw [hlookup, if_neg fun heq => hne (idName_inj hother hid heq),
        if_neg (stateFile_ne_staged hid hother)]

end quiet

/-! ## Whole operations -/

section operations
variable {serde : Serde} {layout : Layout} {files : Files} {state : Persisted} {cuts : List Nat}

theorem take_saveSteps {n : Nat} (hn : n < (saveSteps serde layout state cuts).length) :
    (saveSteps serde layout state cuts).take n = (stageSteps serde layout state cuts).take n := by
  rw [saveSteps] at hn ⊢
  rw [List.length_append, List.length_singleton] at hn
  exact List.take_append_of_le_length (by omega)

/-- In front of its last step a save has changed no record. -/
theorem Tidy.execute_front (h : Tidy serde layout files) (hnamed : layout.root ≠ "")
    (hid : validateId state.id = .ok ()) {n : Nat} {files' : Files} {result : Except Error Unit}
    (hn : n < (saveSteps serde layout state cuts).length)
    (hrun : execute files ((saveSteps serde layout state cuts).take n) = (files', result)) :
    Tidy serde layout files' ∧
      recordsOf serde layout files' = recordsOf serde layout files := by
  rw [take_saveSteps hn] at hrun
  have hquiet : ∀ entry ∈ (stageSteps serde layout state cuts).take n,
      Quiet layout state.id entry.1 :=
    fun entry hentry => stageSteps_quiet entry (List.mem_of_mem_take hentry)
  have hboth := h.execute_quiet hnamed hid hquiet
  rwa [hrun] at hboth

/-- Behind it, the save has failed and changed none, or its own is in place. -/
theorem Tidy.execute_all (h : Tidy serde layout files) (hserde : serde.RoundTrips)
    (hnamed : layout.root ≠ "") (hid : validateId state.id = .ok ()) {files' : Files}
    {result : Except Error Unit}
    (hrun : execute files (saveSteps serde layout state cuts) = (files', result)) :
    Tidy serde layout files' ∧
      ((∃ error, result = .error error) ∧
          recordsOf serde layout files' = recordsOf serde layout files ∨
        result = .ok () ∧ recordsOf serde layout files' =
          Function.update (recordsOf serde layout files) state.id (some state)) := by
  have hstage := h.execute_quiet hnamed hid (@stageSteps_quiet serde layout state cuts)
  rw [saveSteps, execute_append] at hrun
  split at hrun
  next middle hmiddle =>
    obtain ⟨text, htext, hstaged⟩ := @execute_stage serde layout files state cuts (by rw [hmiddle])
    rw [hmiddle] at hstage hstaged
    unfold execute at hrun
    split at hrun
    next =>
      cases hrun
      exact ⟨hstage.1, Or.inl ⟨⟨_, rfl⟩, hstage.2⟩⟩
    next last hlast =>
      cases hrun
      obtain ⟨htidy, hupdate⟩ := hstage.1.rename hid hstaged (hserde state text htext) hlast
      exact ⟨htidy, Or.inr ⟨rfl, by rw [hupdate, hstage.2]⟩⟩
  next middle error hmiddle =>
    rw [hmiddle] at hstage
    cases hrun
    exact ⟨hstage.1, Or.inl ⟨⟨error, rfl⟩, hstage.2⟩⟩

theorem Tidy.save (h : Tidy serde layout files) (hserde : serde.RoundTrips)
    (hnamed : layout.root ≠ "") (hid : validateId state.id = .ok ()) {fate : Fate} {files' : Files}
    {answer : Option (Except Error Unit)}
    (hsave : save serde files layout state cuts fate = (files', answer)) :
    Tidy serde layout files' ∧ Records.Allows layout (recordsOf serde layout files)
      (.save state cuts fate) (.saved answer) (recordsOf serde layout files') := by
  cases fate with
  | runs =>
      cases hrun : execute files (saveSteps serde layout state cuts) with
      | mk reached result =>
          simp only [Store.save, hrun, Prod.mk.injEq] at hsave
          obtain ⟨rfl, rfl⟩ := hsave
          obtain ⟨htidy, ⟨⟨error, rfl⟩, hsame⟩ | ⟨rfl, hupdate⟩⟩ :=
            h.execute_all hserde hnamed hid hrun
          · exact ⟨htidy, hsame ▸ .refused⟩
          · exact ⟨htidy, hupdate ▸ .saved⟩
  | diesAt n =>
      cases hrun : execute files ((saveSteps serde layout state cuts).take n) with
      | mk reached result =>
          simp only [Store.save, hrun, Prod.mk.injEq] at hsave
          obtain ⟨rfl, rfl⟩ := hsave
          by_cases hn : n < (saveSteps serde layout state cuts).length
          · obtain ⟨htidy, hsame⟩ := h.execute_front hnamed hid hn hrun
            exact ⟨htidy, hsame ▸ .diedBefore⟩
          · rw [List.take_of_length_le (by omega)] at hrun
            obtain ⟨htidy, ⟨-, hsame⟩ | ⟨-, hupdate⟩⟩ := h.execute_all hserde hnamed hid hrun
            · exact ⟨htidy, hsame ▸ .diedBefore⟩
            · exact ⟨htidy, hupdate ▸ .diedBehind⟩
  | refusedAt n =>
      cases hrun : execute files ((saveSteps serde layout state cuts).take n) with
      | mk reached result =>
          simp only [Store.save, hrun] at hsave
          by_cases hn : n < (saveSteps serde layout state cuts).length
          · obtain ⟨htidy, hsame⟩ := h.execute_front hnamed hid hn hrun
            have hanswer : reached = files' ∧ ∃ error, answer = some (.error error) := by
              rw [List.getElem?_eq_getElem hn] at hsave
              cases result with
              | ok _ =>
                  simp only [Prod.mk.injEq] at hsave
                  exact ⟨hsave.1, _, hsave.2.symm⟩
              | error error =>
                  simp only [Prod.mk.injEq] at hsave
                  exact ⟨hsave.1, _, hsave.2.symm⟩
            obtain ⟨rfl, error, rfl⟩ := hanswer
            exact ⟨htidy, hsame ▸ .refused⟩
          · have hanswer : reached = files' ∧ answer = some result := by
              rw [List.getElem?_eq_none (by omega)] at hsave
              cases result with
              | ok _ =>
                  simp only [Prod.mk.injEq] at hsave
                  exact ⟨hsave.1, hsave.2.symm⟩
              | error error =>
                  simp only [Prod.mk.injEq] at hsave
                  exact ⟨hsave.1, hsave.2.symm⟩
            obtain ⟨rfl, rfl⟩ := hanswer
            rw [List.take_of_length_le (by omega)] at hrun
            obtain ⟨htidy, ⟨⟨error, rfl⟩, hsame⟩ | ⟨rfl, hupdate⟩⟩ :=
              h.execute_all hserde hnamed hid hrun
            · exact ⟨htidy, hsame ▸ .refused⟩
            · exact ⟨htidy, hupdate ▸ .saved⟩

/-- After a save that went well. -/
theorem Tidy.saved (h : Tidy serde layout files) (hserde : serde.RoundTrips)
    (hnamed : layout.root ≠ "") (hid : validateId state.id = .ok ()) {fate : Fate} {files' : Files}
    (hsave : Store.save serde files layout state cuts fate = (files', some (.ok ()))) :
    Tidy serde layout files' ∧ recordsOf serde layout files' =
      Function.update (recordsOf serde layout files) state.id (some state) := by
  obtain ⟨htidy, hallows⟩ := h.save hserde hnamed hid hsave
  generalize recordsOf serde layout files' = records at hallows
  cases hallows
  exact ⟨htidy, rfl⟩

section removal
variable (hid : validateId state.id = .ok ())
include hid

theorem containerDir_above : components (layout.containerDir state.id) <+:
    components (layout.stateFile state.id) := by
  rw [components_containerDir hid, components_stateFile hid]
  exact ⟨[.normal stateName], by simp⟩

theorem containerDir_apart {id : String} (hother : validateId id = .ok ())
    (hne : id ≠ state.id) : ¬ components (layout.containerDir state.id) <+:
      components (layout.stateFile id) := by
  intro hpre
  rw [components_containerDir hid, components_stateFile hother, List.prefix_append_right_inj,
    List.prefix_cons_iff] at hpre
  rcases hpre with hnil | ⟨rest, hrest, -⟩
  · cases hnil
  · have hname : idName hid = idName hother := by simpa using (List.cons.inj hrest).1
    exact hne (congrArg Name.text hname).symm

/-- What is left still has its directories. -/
theorem Tidy.removeAll (h : Tidy serde layout files) :
    Tidy serde layout
      (FileStore.removeAll files (components (layout.containerDir state.id))) := by
  have hlookup := @lookup_removeAll _ _ _ files (components (layout.containerDir state.id))
  have hroot : ¬ components (layout.containerDir state.id) <+: components layout.root := by
    intro hpre
    have hlength := hpre.length_le
    rw [components_containerDir hid, List.length_append, List.length_singleton] at hlength
    omega
  constructor
  case entry =>
    intro p found hfound hp
    rw [hlookup] at hfound
    split at hfound
    next => cases hfound
    next => exact h.entry p found hfound hp
  case root =>
    intro part hsome
    rw [hlookup] at hsome
    split at hsome
    next => exact absurd rfl hsome
    next =>
      rw [hlookup, if_neg hroot]
      exact h.root part hsome
  case dir =>
    intro part name hsome
    rw [hlookup] at hsome
    split at hsome
    next => exact absurd rfl hsome
    next hpre =>
      have hshort : ¬ components (layout.containerDir state.id) <+:
          components layout.root ++ [part] :=
        fun hshort => hpre (hshort.trans ⟨[name], by simp⟩)
      rw [hlookup, if_neg hshort]
      exact h.dir part name hsome

/-- The container's directory goes, with the record in it and nobody else's. -/
theorem recordsOf_removeAll : recordsOf serde layout
      (FileStore.removeAll files (components (layout.containerDir state.id))) =
    Function.update (recordsOf serde layout files) state.id none := by
  have hlookup := @lookup_removeAll _ _ _ files (components (layout.containerDir state.id))
  funext id
  by_cases hsame : id = state.id
  · subst hsame
    have hnone : Store.load serde
        (FileStore.removeAll files (components (layout.containerDir state.id))) layout state.id =
          .error (.notFound state.id) := by
      simp [load, isFile, contents, hlookup, containerDir_above hid]
    simp [recordsOf, hid, hnone, Except.toOption]
  · rw [Function.update_of_ne hsame]
    unfold recordsOf
    split
    next hother =>
      rw [load_congr]
      rw [hlookup, if_neg (containerDir_apart hid hother hsame)]
    next => rfl

theorem Tidy.remove (h : Tidy serde layout files) :
    Tidy serde layout (remove files ⟨layout, state⟩) ∧
      recordsOf serde layout (remove files ⟨layout, state⟩) =
        Function.update (recordsOf serde layout files) state.id none := by
  cases hdir : files.lookup (components (layout.containerDir state.id)) with
  | none =>
      have hsame : Store.remove files ⟨layout, state⟩ = files := by simp [Store.remove, hdir]
      have hnone : recordsOf serde layout files state.id = none := by
        rcases h.load hid with ⟨-, hload⟩ | ⟨text, found, hfile, -⟩
        · simp [recordsOf, hid, hload, Except.toOption]
        · have hfound := h.dir (.normal (idName hid)) (.normal stateName) (by
            rw [← components_stateFile hid, hfile]
            nofun)
          rw [← components_containerDir hid, hdir] at hfound
          cases hfound
      rw [hsame]
      exact ⟨h, by rw [← hnone, Function.update_eq_self]⟩
  | some node =>
      have hgone : Store.remove files ⟨layout, state⟩ =
          FileStore.removeAll files (components (layout.containerDir state.id)) := by
        simp [Store.remove, hdir]
      rw [hgone]
      exact ⟨h.removeAll hid, recordsOf_removeAll hid⟩

end removal

theorem mem_fileNames {dir name : String} : name ∈ fileNames files dir ↔
    ∃ part : Name, part.text = name ∧
      (files.lookup (components dir ++ [.normal part])).isSome := by
  unfold fileNames
  rw [List.mem_filterMap]
  constructor
  · rintro ⟨part, hpart, hname⟩
    cases part with
    | normal found =>
        obtain rfl : found.text = name := Option.some.inj hname
        exact ⟨found, rfl, mem_names.mp hpart⟩
    | _ => cases hname
  · rintro ⟨part, rfl, hpart⟩
    exact ⟨.normal part, mem_names.mpr hpart, rfl⟩

theorem nodup_fileNames (files : Files) (dir : String) : (fileNames files dir).Nodup := by
  apply (nodup_names files (components dir)).filterMap
  intro a b name ha hb
  cases a with
  | normal first =>
      cases b with
      | normal second =>
          have hsame : first.text = second.text :=
            (Option.some.inj ha).trans (Option.some.inj hb).symm
          obtain ⟨text, plain⟩ := first
          obtain rfl : text = second.text := hsame
          rfl
      | _ => cases hb
  | _ => cases ha

theorem Tidy.entry_valid (h : Tidy serde layout files) {part : Name}
    (hpart : (files.lookup (components layout.root ++ [.normal part])).isSome) :
    validateId part.text = .ok () := by
  obtain ⟨node, hnode⟩ := Option.isSome_iff_exists.mp hpart
  have hentry := h.entry [.normal part] node hnode (by simp)
  generalize hp : [Component.normal part] = p at hentry
  cases hentry with
  | dir hid =>
      obtain rfl : part = _ := by simpa using hp
      exact hid
  | staged => simp at hp
  | state => simp at hp

/-- Exactly what can be loaded is found among the entries of the root. -/
theorem Tidy.loads_iff (h : Tidy serde layout files) {container : Container} :
    (∃ id ∈ fileNames files layout.root, Store.load serde files layout id = .ok container) ↔
      container.layout = layout ∧
        recordsOf serde layout files container.state.id = some container.state := by
  constructor
  · rintro ⟨id, hmem, hload⟩
    obtain ⟨part, rfl, hpart⟩ := mem_fileNames.mp hmem
    have hvalid := h.entry_valid hpart
    rcases h.load hvalid with ⟨-, hnone⟩ | ⟨text, state, -, -, hsame, hsome⟩
    · cases hnone.symm.trans hload
    · obtain rfl : ⟨layout, state⟩ = container := Except.ok.inj (hsome.symm.trans hload)
      refine ⟨rfl, ?_⟩
      rw [h.recordsOf_eq_some]
      exact ⟨hsame ▸ hvalid, by rw [show state.id = part.text from hsame]; exact hsome⟩
  · rintro ⟨rfl, hrecord⟩
    obtain ⟨hvalid, hload⟩ := h.recordsOf_eq_some.mp hrecord
    refine ⟨container.state.id, ?_, hload⟩
    rcases h.load hvalid with ⟨-, hnone⟩ | ⟨text, state, hfile, -⟩
    · cases hnone.symm.trans hload
    · rw [components_stateFile hvalid] at hfile
      have hdir := h.dir (.normal (idName hvalid)) (.normal stateName) (by rw [hfile]; nofun)
      exact mem_fileNames.mpr ⟨idName hvalid, rfl, by rw [hdir]; rfl⟩

/-- An entry of the root loads as the container it is named by. -/
theorem Tidy.load_id (h : Tidy serde layout files) {id : String} {container : Container}
    (hmem : id ∈ fileNames files layout.root)
    (hload : Store.load serde files layout id = .ok container) : container.state.id = id := by
  obtain ⟨part, rfl, hpart⟩ := mem_fileNames.mp hmem
  rcases h.load (h.entry_valid hpart) with ⟨-, hnone⟩ | ⟨text, state, -, -, hsame, hsome⟩
  · cases hnone.symm.trans hload
  · obtain rfl : ⟨layout, state⟩ = container := Except.ok.inj (hsome.symm.trans hload)
    exact hsame

theorem toOption_eq_some {x : Except Error Container} {container : Container} :
    x.toOption = some container ↔ x = .ok container := by
  cases x <;> simp [Except.toOption]

/-- What is loaded has the names it is loaded by, in their order. -/
theorem found_ids {order : List String}
    (h : ∀ id ∈ order, ∀ container, Store.load serde files layout id = .ok container →
      container.state.id = id) :
    ((found serde files layout order).map fun container => container.state.id).Sublist order := by
  unfold found
  induction order with
  | nil => simp
  | cons id rest ih =>
      have hrest := ih fun other hother => h other (List.mem_cons_of_mem _ hother)
      rw [List.filterMap_cons]
      split
      next => exact hrest.cons id
      next container hload =>
        rw [List.map_cons, h id List.mem_cons_self container (toOption_eq_some.mp hload)]
        exact hrest.cons_cons id

theorem Tidy.list (h : Tidy serde layout files) {entries : ReadDir}
    (hentries : ∀ all ∈ entries, none ∉ all →
      all.reduceOption.Perm (fileNames files layout.root)) :
    Records.Allows layout (recordsOf serde layout files) (.list entries)
      (.listed (list serde files layout entries)) (recordsOf serde layout files) := by
  cases hlist : Store.list serde files layout entries with
  | error error => exact .unlisted (list_error hlist)
  | ok containers =>
      obtain ⟨hroot, rfl⟩ | ⟨hroot, all, rfl, hall, hsort⟩ := list_eq_ok.mp hlist
      · refine .listed ?_ List.nodup_nil List.Pairwise.nil
        intro container
        simp only [List.not_mem_nil, false_iff]
        intro hrecord
        obtain ⟨id, hmem, -⟩ := h.loads_iff.mpr hrecord
        obtain ⟨part, -, hpart⟩ := mem_fileNames.mp hmem
        have hfound := h.root (.normal part) (by
          intro hnone
          rw [hnone] at hpart
          cases hpart)
        rw [isDir_iff.mpr hfound] at hroot
        cases hroot
      · have horder := hentries all rfl hall
        refine .listed ?_ ?_ (list_sorted hlist)
        · intro container
          rw [← hsort, List.mem_mergeSort, found, List.mem_filterMap, ← h.loads_iff]
          simp only [toOption_eq_some, horder.mem_iff]
        · rw [← hsort, (List.mergeSort_perm _ _).nodup_iff]
          have hids := found_ids fun id hid container hload =>
            h.load_id (horder.mem_iff.mp hid) hload
          exact (hids.nodup (horder.nodup_iff.mpr (nodup_fileNames _ _))).of_map _

theorem Tidy.step {w w' : World} {event : Event} (h : Tidy serde layout w.files)
    (hserde : serde.RoundTrips) (hnamed : layout.root ≠ "") (hvalid : event.Valid)
    (hstep : step serde layout w event = some w') :
    Tidy serde layout w'.files ∧ ∃ result, w'.history = w.history ++ [(event, result)] ∧
      Records.Allows layout (recordsOf serde layout w.files) event result
        (recordsOf serde layout w'.files) := by
  cases event with
  | save state cuts fate =>
      cases hsave : Store.save serde w.files layout state cuts fate with
      | mk files answer =>
          simp only [Store.step, hsave, Option.some.injEq] at hstep
          subst hstep
          obtain ⟨htidy, hallows⟩ := h.save hserde hnamed hvalid hsave
          exact ⟨htidy, _, rfl, hallows⟩
  | load id =>
      obtain rfl := Option.some.inj hstep
      refine ⟨h, _, rfl, ?_⟩
      rcases h.load hvalid with ⟨-, hload⟩ | ⟨text, state, -, -, -, hload⟩
      · rw [hload]
        refine .absent ?_
        simp [recordsOf, show validateId id = .ok () from hvalid, hload, Except.toOption]
      · rw [hload]
        exact .found (h.recordsOf_eq_some.mpr ⟨hvalid, hload⟩)
  | remove state =>
      obtain rfl := Option.some.inj hstep
      obtain ⟨htidy, hrecords⟩ := h.remove hvalid
      exact ⟨htidy, _, rfl, hrecords ▸ .removed⟩
  | list entries =>
      simp only [Store.step] at hstep
      split at hstep
      next hentries =>
        obtain rfl := Option.some.inj hstep
        exact ⟨h, _, rfl, h.list hentries⟩
      next => cases hstep

end operations

/-! ## The store is a map -/

section runs
variable {serde : Serde} {layout : Layout} {files : Files} {events : List Event} {w w' : World}

theorem recordsOf_empty (h : EmptyRoot layout files) :
    recordsOf serde layout files = fun _ => none := by
  funext id
  unfold recordsOf
  split
  next hid =>
    have htidy : Tidy serde layout files := tidy_empty h
    rcases htidy.load hid with ⟨-, hnone⟩ | ⟨text, state, hfile, -⟩
    · rw [hnone]
      rfl
    · rw [components_stateFile hid, h.below _ (by simp)] at hfile
      cases hfile
  next => rfl

theorem Tidy.run (h : Tidy serde layout w.files)
    (hexplains : Records.Explains layout w.history (recordsOf serde layout w.files))
    (hserde : serde.RoundTrips) (hnamed : layout.root ≠ "")
    (hvalid : ∀ event ∈ events, event.Valid)
    (hrun : Transition.run (Store.step serde layout) w events = some w') :
    Tidy serde layout w'.files ∧
      Records.Explains layout w'.history (recordsOf serde layout w'.files) ∧
      w'.history.map Prod.fst = w.history.map Prod.fst ++ events := by
  induction events generalizing w with
  | nil =>
      obtain rfl := Option.some.inj hrun
      exact ⟨h, hexplains, by simp⟩
  | cons event rest ih =>
      obtain ⟨next, hstep, hrest⟩ := Transition.run_cons_eq_some.mp hrun
      obtain ⟨htidy, result, hhistory, hallows⟩ :=
        h.step hserde hnamed (hvalid event List.mem_cons_self) hstep
      have hnext : Records.Explains layout next.history (recordsOf serde layout next.files) := by
        rw [hhistory]
        exact .next hexplains hallows
      obtain ⟨htidy', hexplains', hevents⟩ :=
        ih htidy hnext (fun e he => hvalid e (List.mem_cons_of_mem _ he)) hrest
      refine ⟨htidy', hexplains', ?_⟩
      rw [hevents, hhistory]
      simp

/-- However saves end, from an empty root on the operations on disk are those of
a map from ids to records, and the map is what can be loaded. -/
theorem store_refines_map (hserde : serde.RoundTrips) (hempty : EmptyRoot layout files)
    (hvalid : ∀ event ∈ events, event.Valid)
    (hrun : Transition.run (step serde layout) ⟨files, []⟩ events = some w) :
    ∃ records, Records.Explains layout w.history records ∧ w.history.map Prod.fst = events ∧
      ∀ id, validateId id = .ok () → load serde w.files layout id =
        match records id with
        | some state => .ok ⟨layout, state⟩
        | none => .error (.notFound id) := by
  have htidy : Tidy serde layout files := tidy_empty hempty
  have hstart : Records.Explains layout [] (recordsOf serde layout files) := by
    rw [recordsOf_empty hempty]
    exact .start
  obtain ⟨hend, hexplains, hevents⟩ := htidy.run (w := ⟨files, []⟩) hstart hserde hempty.named
    hvalid hrun
  refine ⟨recordsOf serde layout w.files, hexplains, by simpa using hevents, ?_⟩
  intro id hid
  rcases hend.load hid with ⟨-, hload⟩ | ⟨text, state, -, -, -, hload⟩
  · simp [recordsOf, hid, hload, Except.toOption]
  · simp [recordsOf, hid, hload, Except.toOption]

end runs

/-! ## A save that is killed -/

def demoState (created : String) : Persisted where
  ociVersion := "1.0.2"
  id := "c1"
  pid := 7
  startTime := 555
  bundle := "/b"
  rootfs := "/b/rootfs"
  cgroup := "mars/c1"
  created := created
  rootless := false
  annotations := []

def demoText (created : String) : String :=
  "\x7b\n  \"oci_version\": \"1.0.2\",\n  \"id\": \"c1\",\n  \"pid\": 7,\n" ++
    "  \"start_time\": 555,\n  \"bundle\": \"/b\",\n  \"rootfs\": \"/b/rootfs\",\n" ++
    "  \"cgroup\": \"mars/c1\",\n  \"created\": \"" ++ created ++ "\",\n" ++
    "  \"rootless\": false,\n  \"annotations\": \x7b\x7d\n\x7d"

/-- Two records and their texts. -/
def demoSerde : Serde where
  toStringPretty := fun state =>
    if state = demoState "a" then some (demoText "a")
    else if state = demoState "b" then some (demoText "b")
    else none
  fromStr := fun text =>
    if text = demoText "a" then some (demoState "a")
    else if text = demoText "b" then some (demoState "b")
    else none

def demoLayout : Layout := ⟨"/run/mars"⟩

def demoFiles : Files :=
  (execute ∅ (withError .syscall (createDirAll demoLayout.root))).1

/-- The second save dies with half of its text written. -/
def killedRun : List Event :=
  [.save (demoState "a") [] .runs, .save (demoState "b") [40] (.diesAt 7), .load "c1",
    .list (some [some "c1"]), .remove (demoState "a"), .load "c1"]

theorem demoText_ne : demoText "a" ≠ demoText "b" := by decide +kernel

theorem demoSerde_roundTrips : demoSerde.RoundTrips := by
  intro state text h
  simp only [demoSerde] at h ⊢
  split at h
  next hstate =>
    obtain rfl := Option.some.inj h
    rw [if_pos rfl, hstate]
  next =>
    split at h
    next hstate =>
      obtain rfl := Option.some.inj h
      rw [if_neg demoText_ne.symm, if_pos rfl, hstate]
    next => cases h

theorem emptyRoot_of_keys {layout : Layout} {files : Files} (hnamed : layout.root ≠ "")
    (h : ∀ path ∈ files.keys, path.length ≤ (components layout.root).length) :
    EmptyRoot layout files where
  named := hnamed
  below := by
    intro p hp
    rw [AList.lookup_eq_none, AList.mem_keys]
    intro hmem
    have hshort := h _ hmem
    rw [List.length_append] at hshort
    have hlong := List.length_pos_iff.mpr hp
    omega

theorem killedRun_enabled : (Transition.run (step demoSerde demoLayout) ⟨demoFiles, []⟩
    killedRun).isSome = true := by decide +kernel

theorem store_refines_map_killed : ∃ records,
    Records.Explains demoLayout (Option.get _ killedRun_enabled).history records ∧
      (Option.get _ killedRun_enabled).history.map Prod.fst = killedRun ∧
      ∀ id, validateId id = .ok () →
        load demoSerde (Option.get _ killedRun_enabled).files demoLayout id =
          match records id with
          | some state => .ok ⟨demoLayout, state⟩
          | none => .error (.notFound id) := by
  refine store_refines_map demoSerde_roundTrips ?_ ?_ (Option.some_get killedRun_enabled).symm
  · exact emptyRoot_of_keys (by decide) (by decide +kernel)
  · intro event hevent
    simp only [killedRun, List.mem_cons, List.not_mem_nil, or_false] at hevent
    rcases hevent with rfl | rfl | rfl | rfl | rfl | rfl
    all_goals first | exact trivial | rfl

end Mars.Store
