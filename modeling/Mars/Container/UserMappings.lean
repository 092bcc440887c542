import Mars.Core.UserSpace
import Mars.Error

/-! # The id maps of a container's user namespace

The runtime writes the maps from outside, for a process that waits for them.
What it may not write itself it leaves to a setuid helper.
-/

namespace Mars.UserMappings
open IdMap UserSpace

structure LinuxIdMapping where
  containerId : UInt32
  hostId : UInt32
  size : UInt32
  deriving DecidableEq

structure Mappings where
  uid : List LinuxIdMapping
  gid : List LinuxIdMapping

def Mappings.of (mappings : Mappings) : Kind → List LinuxIdMapping
  | .uid => mappings.uid
  | .gid => mappings.gid

def render (mappings : List LinuxIdMapping) : List Char :=
  mappings.flatMap fun mapping =>
    Text.decimal mapping.containerId.toNat ++ ' ' ::
      (Text.decimal mapping.hostId.toNat ++ ' ' :: Text.decimal mapping.size.toNat) ++ ['\n']

/-! ## Around the runtime -/

structure Output where
  success : Bool
  status : String
  stderr : List Char

/-- What the runtime's process finds when it writes for a process. -/
structure Host where
  parent : Kind → List Extent
  writer : Writer
  isFile : String → Bool
  /-- A program with its arguments; there is no output where it cannot be started. -/
  run : String → List (List Char) → Space → Option Output × Space

abbrev Step := Space → Except Error Unit × Space

def Step.andThen (first next : Step) : Step := fun s =>
  match first s with
  | (.ok (), s') => next s'
  | (.error error, s') => (.error error, s')

theorem Step.andThen_eq_ok {first next : Step} {s s' : Space} :
    first.andThen next s = (.ok (), s') ↔
      ∃ middle, first s = (.ok (), middle) ∧ next middle = (.ok (), s') := by
  unfold Step.andThen
  rcases first s with ⟨_ | _, middle⟩
  · constructor
    · intro h
      cases h
    · rintro ⟨_, h, -⟩
      cases h
  · constructor
    · intro h
      exact ⟨middle, rfl, h⟩
    · rintro ⟨_, h, hnext⟩
      cases h
      exact hnext

/-! ## The calls -/

def procPath (pid : Int) (file : String) : String := "/proc/" ++ toString pid ++ "/" ++ file

def mapFile : Kind → String
  | .uid => "uid_map"
  | .gid => "gid_map"

def helperName : Kind → String
  | .uid => "newuidmap"
  | .gid => "newgidmap"

def HELPER_DIRS : List String := ["/usr/bin", "/bin", "/usr/sbin", "/sbin", "/usr/local/bin"]

def locate (host : Host) (helper : String) : Option String :=
  (HELPER_DIRS.map fun dir => dir ++ "/" ++ helper).find? host.isFile

def mappingArgs (mappings : List LinuxIdMapping) : List (List Char) :=
  mappings.flatMap fun mapping =>
    [Text.decimal mapping.containerId.toNat, Text.decimal mapping.hostId.toNat,
      Text.decimal mapping.size.toNat]

def runHelper (host : Host) (helper : String) (pid : Int) (mappings : List LinuxIdMapping) : Step :=
  fun s =>
    match locate host helper with
    | none => (.error (.invalid (helper ++
        " is not installed, and this process may not write more than one id mapping directly; " ++
        "install the uidmap package or reduce the mapping to a single line for your own id")), s)
    | some binary =>
        match host.run binary ((toString pid).toList :: mappingArgs mappings) s with
        | (none, s') => (.error (.io ("run " ++ binary)), s')
        | (some output, s') =>
            if output.success then (.ok (), s')
            else (.error (.invalid (binary ++ " exited with " ++ output.status ++ ": " ++
              String.ofList (Text.trim output.stderr) ++
              "; the ranges must be inside what /etc/subuid and /etc/subgid grant this user")), s')

/-- The body as the error message quotes it. -/
def quoted (body : List Char) : String :=
  String.ofList ('"' :: body.flatMap (fun c => if c = '\n' then ['\\', 'n'] else [c]) ++ ['"'])

def writeOne (host : Host) (pid : Int) (kind : Kind) (mappings : List LinuxIdMapping)
    (privileged : Bool) : Step := fun s =>
  match s.writeMap host.parent host.writer kind (render mappings) with
  | some s' => (.ok (), s')
  | none =>
      if privileged then
        (.error (.io ("write " ++ quoted (render mappings) ++ " to " ++
          procPath pid (mapFile kind))), s)
      else runHelper host (helperName kind) pid mappings s

def denySetgroups (host : Host) (pid : Int) (privileged : Bool) : Step := fun s =>
  if privileged then (.ok (), s)
  else
    match s.denySetgroups host.writer with
    | some s' => (.ok (), s')
    | none => (.error (.io ("write deny to " ++ procPath pid "setgroups" ++
        "; without it an unprivileged process cannot write gid_map, because dropping a group " ++
        "could grant access that a negative group permission was denying")), s)

def write (host : Host) (pid : Int) (mappings : Mappings) (privileged : Bool) : Step := fun s =>
  if mappings.uid.isEmpty || mappings.gid.isEmpty then
    (.error (.invalid ("a user namespace needs both linux.uidMappings and linux.gidMappings; " ++
      "the kernel leaves an unmapped namespace with no usable ids at all")), s)
  else
    ((denySetgroups host pid privileged).andThen
      ((writeOne host pid .uid mappings.uid privileged).andThen
        (writeOne host pid .gid mappings.gid privileged))) s

/-! ## What the file gets -/

def LinuxIdMapping.extent (mapping : LinuxIdMapping) : Extent where
  first := mapping.containerId.toNat
  lowerFirst := mapping.hostId.toNat
  count := mapping.size.toNat

def extents (mappings : List LinuxIdMapping) : List Extent := mappings.map LinuxIdMapping.extent

theorem extents_fit (mappings : List LinuxIdMapping) :
    ∀ e ∈ extents mappings, e.first < 2 ^ 32 ∧ e.lowerFirst < 2 ^ 32 ∧ e.count < 2 ^ 32 := by
  intro e he
  obtain ⟨mapping, -, rfl⟩ := List.mem_map.mp he
  exact ⟨mapping.containerId.toNat_lt, mapping.hostId.toNat_lt, mapping.size.toNat_lt⟩

theorem render_eq (mappings : List LinuxIdMapping) :
    render mappings = IdMap.render (extents mappings) := by
  rw [render, IdMap.render, Text.joinLines, extents, List.map_map, List.flatMap_map]
  rfl

/-- The map a document asks for, as the kernel takes it or leaves it. -/
theorem readMap_eq_some {mappings : List LinuxIdMapping} (hne : mappings ≠ []) {map : List Extent} :
    readMap (render mappings) = some map ↔ (render mappings).length < PAGE_SIZE ∧
      map = extents mappings ∧ Sound (extents mappings) := by
  have hextents : extents mappings ≠ [] := by simpa [extents] using hne
  rw [render_eq]
  exact readMap_render hextents (extents_fit mappings)

/-- The setuid helpers write the map that their arguments spell out, with the rights they have. -/
def HelpersWrite (host : Host) : Prop :=
  ∀ (kind : Kind) (dir : String) (pid : Int) (mappings : List LinuxIdMapping) (output : Output)
    (s s' : Space), dir ∈ HELPER_DIRS →
    host.run (dir ++ "/" ++ helperName kind) ((toString pid).toList :: mappingArgs mappings) s =
      (some output, s') →
    output.success = true →
    ∃ w : Writer, s.writeMap host.parent w kind (render mappings) = some s'

theorem runHelper_ok {host : Host} (hhelpers : HelpersWrite host) {kind : Kind} {pid : Int}
    {mappings : List LinuxIdMapping} {s s' : Space}
    (h : runHelper host (helperName kind) pid mappings s = (.ok (), s')) :
    ∃ w : Writer, s.writeMap host.parent w kind (render mappings) = some s' := by
  unfold runHelper at h
  split at h
  next => cases h
  next binary hbinary =>
    obtain ⟨dir, hdir, rfl⟩ := List.mem_map.mp (List.mem_of_find?_eq_some hbinary)
    split at h
    next => cases h
    next output middle hrun =>
      split at h
      next hsuccess =>
        obtain rfl : middle = s' := congrArg Prod.snd h
        exact hhelpers kind dir pid mappings output s middle hdir hrun hsuccess
      next => cases h

/-- Whoever wrote it in the end, it is the map of the document. -/
theorem writeOne_ok {host : Host} (hhelpers : HelpersWrite host) {kind : Kind} {pid : Int}
    {mappings : List LinuxIdMapping} {privileged : Bool} {s s' : Space} (hne : mappings ≠ [])
    (h : writeOne host pid kind mappings privileged s = (.ok (), s')) :
    Sound (extents mappings) ∧ ∃ own, through (host.parent kind) (extents mappings) = some own ∧
      s' = s.setMap own kind := by
  obtain ⟨w, hwrite⟩ : ∃ w : Writer, s.writeMap host.parent w kind (render mappings) = some s' := by
    unfold writeOne at h
    split at h
    next written hwritten =>
      obtain rfl : written = s' := congrArg Prod.snd h
      exact ⟨host.writer, hwritten⟩
    next =>
      split at h
      next => cases h
      next => exact runHelper_ok hhelpers h
  obtain ⟨-, -, map, own, hread, -, hown, hlast⟩ := writeMap_eq_some.mp hwrite
  obtain ⟨-, rfl, hsound⟩ := (readMap_eq_some hne).mp hread
  exact ⟨hsound, own, hown, hlast⟩

theorem denySetgroups_ok {host : Host} {pid : Int} {privileged : Bool} {s s' : Space} :
    denySetgroups host pid privileged s = (.ok (), s') ↔
      privileged = true ∧ s' = s ∨
      privileged = false ∧ host.writer.admin = true ∧ s.gidMap = [] ∧
        s' = { s with setgroupsDenied := true } := by
  unfold denySetgroups Space.denySetgroups
  cases privileged with
  | true =>
      simp only [if_true, Prod.mk.injEq, true_and, Bool.true_eq_false, false_and, or_false]
      exact eq_comm
  | false =>
      by_cases hdeny : host.writer.admin = true ∧ s.gidMap = []
      · rw [if_neg Bool.false_ne_true, if_pos hdeny]
        constructor
        · intro h
          exact .inr ⟨rfl, hdeny.1, hdeny.2, (congrArg Prod.snd h).symm⟩
        · rintro (⟨h, -⟩ | ⟨-, -, -, rfl⟩)
          · cases h
          · rfl
      · simp only [Bool.false_eq_true, if_false, if_neg hdeny, Prod.mk.injEq, reduceCtorEq,
          false_and, true_and, false_or, false_iff]
        rintro ⟨hadmin, hgid, -⟩
        exact hdeny ⟨hadmin, hgid⟩

theorem write_ok {host : Host} {pid : Int} {mappings : Mappings} {privileged : Bool}
    {s s' : Space} : write host pid mappings privileged s = (.ok (), s') ↔
      mappings.uid ≠ [] ∧ mappings.gid ≠ [] ∧ ∃ denied middle,
        denySetgroups host pid privileged s = (.ok (), denied) ∧
        writeOne host pid .uid mappings.uid privileged denied = (.ok (), middle) ∧
        writeOne host pid .gid mappings.gid privileged middle = (.ok (), s') := by
  unfold write
  split
  next hempty =>
    simp only [Bool.or_eq_true, List.isEmpty_iff] at hempty
    constructor
    · intro h
      cases h
    · rintro ⟨huid, hgid, -⟩
      rcases hempty with hempty | hempty
      · exact absurd hempty huid
      · exact absurd hempty hgid
  next hboth =>
    simp only [Bool.or_eq_true, List.isEmpty_iff, not_or] at hboth
    simp only [Step.andThen_eq_ok, hboth, ne_eq, not_false_eq_true, true_and]
    constructor
    · rintro ⟨denied, hdenied, middle, hmiddle, hlast⟩
      exact ⟨denied, middle, hdenied, hmiddle, hlast⟩
    · rintro ⟨denied, middle, hdenied, hmiddle, hlast⟩
      exact ⟨denied, hdenied, middle, hmiddle, hlast⟩

/-- What the maps of a namespace have to say for it to have the ids of a document. -/
structure Mapped (host : Host) (mappings : Mappings) (s : Space) : Prop where
  counterpart : ∀ kind id,
    down (s.map kind) id = (down (extents (mappings.of kind)) id).bind (down (host.parent kind))
  distinct : ∀ kind {id id' lower}, down (s.map kind) id = some lower →
    down (s.map kind) id' = some lower → id = id'

/-- Both maps are those of the document, seen through the parent's. -/
theorem write_maps {host : Host} (hhelpers : HelpersWrite host) {pid : Int} {mappings : Mappings}
    {privileged : Bool} {s s' : Space} (h : write host pid mappings privileged s = (.ok (), s')) :
    s'.setgroupsDenied = (s.setgroupsDenied || !privileged) ∧
      ∀ kind, Sound (extents (mappings.of kind)) ∧
        through (host.parent kind) (extents (mappings.of kind)) = some (s'.map kind) := by
  obtain ⟨huid, hgid, denied, middle, hdenied, hmiddle, hlast⟩ := write_ok.mp h
  obtain ⟨hsoundUid, ownUid, hownUid, rfl⟩ := writeOne_ok hhelpers huid hmiddle
  obtain ⟨hsoundGid, ownGid, hownGid, rfl⟩ := writeOne_ok hhelpers hgid hlast
  constructor
  · rcases denySetgroups_ok.mp hdenied with ⟨rfl, rfl⟩ | ⟨rfl, -, -, rfl⟩
    · simp
    · simp
  · intro kind
    cases kind with
    | uid =>
        rw [setMap_map_of_ne _ _ (by decide), setMap_map]
        exact ⟨hsoundUid, hownUid⟩
    | gid =>
        rw [setMap_map]
        exact ⟨hsoundGid, hownGid⟩

/-- Where the runtime goes on, by its own hand or a helper's, every id of the namespace is the
one the document gives it, seen through the parent's maps, no two are the same, and without
privileges no process of it can drop a group. -/
theorem written {host : Host} (hparent : ∀ kind, Sound (host.parent kind))
    (hhelpers : HelpersWrite host) {pid : Int} {mappings : Mappings} {privileged : Bool}
    {s s' : Space} (h : write host pid mappings privileged s = (.ok (), s')) :
    Mapped host mappings s' ∧ (privileged = false → s'.setgroupsDenied = true) := by
  obtain ⟨hdenied, hmaps⟩ := write_maps hhelpers h
  have hcounterpart : ∀ kind id,
      down (s'.map kind) id = (down (extents (mappings.of kind)) id).bind (down (host.parent kind)) :=
    fun kind id => down_through (hparent kind) (hmaps kind).2 id
  refine ⟨⟨hcounterpart, ?_⟩, ?_⟩
  · intro kind id id' lower hid hid'
    rw [hcounterpart] at hid hid'
    obtain ⟨outer, houter, hlower⟩ := Option.bind_eq_some_iff.mp hid
    obtain ⟨outer', houter', hlower'⟩ := Option.bind_eq_some_iff.mp hid'
    obtain rfl := (hparent kind).down_injective hlower hlower'
    exact (hmaps kind).1.down_injective houter houter'
  · rintro rfl
    simp [hdenied]

/-- All ids there are. -/
def everyId : Extent where
  first := 0
  lowerFirst := 0
  count := 2 ^ 32 - 1

theorem everyId_sound : Sound [everyId] where
  extents := by
    intro e he
    obtain rfl := List.mem_singleton.mp he
    exact ⟨by decide, by decide, by decide⟩
  apart := List.pairwise_singleton _ _
  length := by decide

def rootWriter : Writer where
  euid := 0
  egid := 0
  owner := true
  admin := true
  setid := fun _ => true
  setfcap := true

/-- The lines that the arguments of a helper spell out. -/
def spelled : List (List Char) → List Char
  | first :: lowerFirst :: count :: rest =>
      first ++ ' ' :: (lowerFirst ++ ' ' :: count) ++ ['\n'] ++ spelled rest
  | _ => []

theorem spelled_mappingArgs (mappings : List LinuxIdMapping) :
    spelled (mappingArgs mappings) = render mappings := by
  induction mappings with
  | nil => rfl
  | cons mapping rest ih =>
      rw [mappingArgs, List.flatMap_cons, ← mappingArgs]
      change _ ++ spelled (mappingArgs rest) = _
      rw [ih, render, render, List.flatMap_cons]

/-- The helpers of a system that grants every range to everybody. -/
def helpers (parent : Kind → List Extent) (binary : String) (args : List (List Char)) (s : Space) :
    Option Output × Space :=
  let kind := if binary ∈ HELPER_DIRS.map (· ++ "/" ++ helperName .uid) then Kind.uid else Kind.gid
  match s.writeMap parent rootWriter kind (spelled args.tail) with
  | some s' => (some { success := true, status := "exit status: 0", stderr := [] }, s')
  | none => (some { success := false, status := "exit status: 1", stderr := "denied".toList }, s)

/-- A user of a machine with the helpers in `/usr/bin`. -/
def user : Host where
  parent := fun _ => [everyId]
  writer := { euid := 1000, egid := 1000, owner := true, admin := true, setid := fun _ => false,
              setfcap := false }
  isFile := fun path => path ∈ ["/usr/bin/newuidmap", "/usr/bin/newgidmap"]
  run := helpers fun _ => [everyId]

theorem user_helpersWrite : HelpersWrite user := by
  intro kind dir pid mappings output s s' hdir hrun hsuccess
  have hkind : (if dir ++ "/" ++ helperName kind ∈ HELPER_DIRS.map (· ++ "/" ++ helperName .uid)
      then Kind.uid else Kind.gid) = kind := by
    have hall : ∀ dir ∈ HELPER_DIRS, (if dir ++ "/" ++ helperName kind ∈
        HELPER_DIRS.map (· ++ "/" ++ helperName .uid) then Kind.uid else Kind.gid) = kind := by
      cases kind <;> decide
    exact hall dir hdir
  change helpers _ _ _ _ = _ at hrun
  rw [helpers, hkind, List.tail_cons, spelled_mappingArgs] at hrun
  split at hrun
  next written hwritten =>
    obtain rfl : written = s' := congrArg Prod.snd hrun
    exact ⟨rootWriter, hwritten⟩
  next =>
    obtain rfl := Option.some.inj (congrArg Prod.fst hrun)
    cases hsuccess

/-- Root inside is the user outside, the other ids are from a range of their own. -/
def rootless : Mappings where
  uid := [⟨0, 1000, 1⟩, ⟨1, 100000, 65536⟩]
  gid := [⟨0, 1000, 1⟩, ⟨1, 100000, 65536⟩]

def rootlessSpace : Space where
  uidMap := [⟨0, 1000, 1⟩, ⟨1, 100000, 65536⟩]
  gidMap := [⟨0, 1000, 1⟩, ⟨1, 100000, 65536⟩]
  setgroupsDenied := true

theorem written_user : Mapped user rootless rootlessSpace ∧
    (false = false → rootlessSpace.setgroupsDenied = true) :=
  have hwrite : write user 7 rootless false (.unmapped false) = (.ok (), rootlessSpace) := rfl
  written (fun _ => everyId_sound) user_helpersWrite hwrite

/-! ## Without the helpers -/

/-- The parent has every range of the map in one piece. -/
def Covered (parent map : List Extent) : Prop :=
  ∀ e ∈ map, ∃ p ∈ parent, p.first ≤ e.lowerFirst ∧ e.lowerFirst + e.count ≤ p.first + p.count

theorem through_isSome {parent map : List Extent} :
    (∃ own, through parent map = some own) ↔ Covered parent map := by
  have hone : ∀ e : Extent, (∃ own, e.through parent = some own) ↔
      ∃ p ∈ parent, p.first ≤ e.lowerFirst ∧ e.lowerFirst + e.count ≤ p.first + p.count := by
    intro e
    rw [← Option.isSome_iff_exists, Extent.through, Option.isSome_map, downRange,
      List.findSome?_isSome_iff]
    refine exists_congr fun p => and_congr_right fun _ => ?_
    split
    next hrange => simpa using hrange
    next hrange => simpa using hrange
  induction map with
  | nil => exact ⟨fun _ => fun e he => absurd he List.not_mem_nil, fun _ => ⟨[], rfl⟩⟩
  | cons e rest ih =>
      rw [Covered, List.forall_mem_cons]
      constructor
      · rintro ⟨own, hown⟩
        obtain ⟨first, later, hfirst, hlater, -⟩ := through_cons.mp hown
        exact ⟨(hone e).mp ⟨first, hfirst⟩, ih.mp ⟨later, hlater⟩⟩
      · rintro ⟨hfirst, hlater⟩
        obtain ⟨first, hfirst⟩ := (hone e).mpr hfirst
        obtain ⟨later, hlater⟩ := ih.mpr hlater
        exact ⟨first :: later, through_cons.mpr ⟨first, later, hfirst, hlater, rfl⟩⟩

/-- What the runtime may write itself, where the parent has denied `setgroups` or not. -/
structure Direct (host : Host) (denied privileged : Bool) (kind : Kind)
    (mappings : List LinuxIdMapping) : Prop where
  some : mappings ≠ []
  short : (render mappings).length < PAGE_SIZE
  sound : Sound (extents mappings)
  covered : Covered (host.parent kind) (extents mappings)
  root : RootAllowed host.writer kind (extents mappings)
  rights : host.writer.setid kind = true ∨
    host.writer.owner = true ∧ (kind = .gid → (denied || !privileged) = true) ∧
      ∃ mapping, mappings = [mapping] ∧ mapping.size = 1 ∧
        down (host.parent kind) mapping.hostId.toNat = Option.some (host.writer.id kind)

theorem ownId_iff {host : Host} {s : Space} {kind : Kind} {mappings : List LinuxIdMapping} :
    OwnId host.parent host.writer s kind (extents mappings) ↔
      host.writer.owner = true ∧ (kind = .gid → s.setgroupsDenied = true) ∧
        ∃ mapping, mappings = [mapping] ∧ mapping.size = 1 ∧
          down (host.parent kind) mapping.hostId.toNat = some (host.writer.id kind) := by
  constructor
  · rintro ⟨e, hmap, hcount, howner, hdown, hdenied⟩
    obtain ⟨mapping, rfl, rfl⟩ := List.map_eq_singleton_iff.mp hmap
    exact ⟨howner, hdenied, mapping, rfl, UInt32.toNat.inj hcount, hdown⟩
  · rintro ⟨howner, hdenied, mapping, rfl, hsize, hdown⟩
    exact ⟨mapping.extent, rfl, congrArg UInt32.toNat hsize, howner, hdown, hdenied⟩

theorem writeMap_render {host : Host} {denied privileged : Bool} {kind : Kind}
    {mappings : List LinuxIdMapping} (hne : mappings ≠ []) {s : Space}
    (hadmin : host.writer.admin = true) (hnew : s.map kind = [])
    (hdenied : s.setgroupsDenied = (denied || !privileged)) :
    (∃ s', s.writeMap host.parent host.writer kind (render mappings) = some s') ↔
      Direct host denied privileged kind mappings := by
  simp only [writeMap_eq_some, readMap_eq_some hne, hnew, hadmin, true_and]
  have hown : OwnId host.parent host.writer s kind (extents mappings) ↔ _ := ownId_iff
  constructor
  · rintro ⟨s', map, own, ⟨hshort, rfl, hsound⟩, ⟨hroot, hrights⟩, hthrough, -⟩
    refine ⟨hne, hshort, hsound, through_isSome.mp ⟨own, hthrough⟩, hroot, ?_⟩
    rcases hrights with hrights | hrights
    · obtain ⟨howner, hgid, hsingle⟩ := hown.mp hrights
      exact .inr ⟨howner, fun hkind => hdenied ▸ hgid hkind, hsingle⟩
    · exact .inl hrights
  · intro h
    obtain ⟨own, hthrough⟩ := through_isSome.mpr h.covered
    refine ⟨_, _, own, ⟨h.short, rfl, h.sound⟩, ⟨h.root, ?_⟩, hthrough, rfl⟩
    rcases h.rights with hrights | ⟨howner, hgid, hsingle⟩
    · exact .inr hrights
    · exact .inl (hown.mpr ⟨howner, fun hkind => hdenied ▸ hgid hkind, hsingle⟩)

theorem writeOne_direct {host : Host} (hbare : ∀ path, host.isFile path = false) {pid : Int}
    {kind : Kind} {mappings : List LinuxIdMapping} {privileged : Bool} {s s' : Space} :
    writeOne host pid kind mappings privileged s = (.ok (), s') ↔
      s.writeMap host.parent host.writer kind (render mappings) = some s' := by
  have hlocate : locate host (helperName kind) = none :=
    List.find?_eq_none.mpr fun path _ => by simp [hbare path]
  unfold writeOne
  cases s.writeMap host.parent host.writer kind (render mappings) with
  | some written =>
      rw [Prod.mk.injEq, Option.some.injEq]
      exact and_iff_right rfl
  | none =>
      simp only [reduceCtorEq, iff_false]
      intro h
      split at h
      · cases h
      · rw [runHelper, hlocate] at h
        cases h

/-- Where no helper is installed and the runtime has `CAP_SYS_ADMIN` in it, a fresh namespace
gets its maps exactly if both are there, short enough, with no empty or overlapping range and none
that ends past the last id, inside what the parent has, the parent's root not among them or
`CAP_SETFCAP` there, and either the runtime may set any id or the map is the one line of its own:
for the group only if setgroups is denied, in the parent already or, as the privileged way leaves
out, by the runtime. -/
theorem direct_iff {host : Host} (hadmin : host.writer.admin = true)
    (hbare : ∀ path, host.isFile path = false) {pid : Int} {mappings : Mappings}
    {denied privileged : Bool} :
    (∃ s', write host pid mappings privileged (.unmapped denied) = (.ok (), s')) ↔
      ∀ kind, Direct host denied privileged kind (mappings.of kind) := by
  simp only [write_ok, writeOne_direct hbare]
  have hdeny : ∀ fresh, denySetgroups host pid privileged (.unmapped denied) = (.ok (), fresh) ↔
      fresh = .unmapped (denied || !privileged) := by
    intro fresh
    rw [denySetgroups_ok]
    cases privileged with
    | true => simp
    | false => simp [hadmin, Space.unmapped]
  simp only [hdeny]
  constructor
  · rintro ⟨s', huid, hgid, _, middle, rfl, hmiddle, hlast⟩ kind
    cases kind with
    | uid => exact (writeMap_render huid hadmin rfl rfl).mp ⟨middle, hmiddle⟩
    | gid =>
        obtain ⟨-, -, _, own, -, -, -, rfl⟩ := writeMap_eq_some.mp hmiddle
        exact (writeMap_render hgid hadmin rfl (setMap_setgroupsDenied _ _ _)).mp ⟨s', hlast⟩
  · intro h
    obtain ⟨middle, hmiddle⟩ := (writeMap_render (h .uid).some hadmin
      (s := .unmapped (denied || !privileged)) rfl rfl).mpr (h .uid)
    obtain ⟨-, -, _, own, -, -, -, rfl⟩ := writeMap_eq_some.mp hmiddle
    obtain ⟨s', hlast⟩ := (writeMap_render (h .gid).some hadmin
      (s := (Space.unmapped (denied || !privileged)).setMap own .uid)
      rfl (setMap_setgroupsDenied _ _ _)).mpr (h .gid)
    exact ⟨s', (h .uid).some, (h .gid).some, _, _, rfl, hmiddle, hlast⟩

/-- A user of a machine without the helpers. -/
def bareUser : Host where
  parent := fun _ => [everyId]
  writer := { euid := 1000, egid := 100, owner := true, admin := true, setid := fun _ => false,
              setfcap := false }
  isFile := fun _ => false
  run := fun _ _ s => (none, s)

/-- The user's own line is written, where setgroups is denied by then. -/
theorem direct_iff_bareUser :
    ((∃ s', write bareUser 7 ⟨[⟨0, 1000, 1⟩], [⟨0, 100, 1⟩]⟩ false (.unmapped false) =
        (.ok (), s')) ↔
      ∀ kind, Direct bareUser false false kind (Mappings.of ⟨[⟨0, 1000, 1⟩], [⟨0, 100, 1⟩]⟩ kind)) ∧
    ∃ s', write bareUser 7 ⟨[⟨0, 1000, 1⟩], [⟨0, 100, 1⟩]⟩ false (.unmapped false) = (.ok (), s') :=
  ⟨direct_iff rfl fun _ => rfl, _, rfl⟩

end Mars.UserMappings
