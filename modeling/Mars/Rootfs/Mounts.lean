import Mathlib.Data.List.Induction
import Mars.Bundle
import Mars.Core.MountTable
import Mars.Core.Text

/-! # Mounting what the spec lists

Each entry's options become flags and data, its destination is resolved
lexically below the rootfs, and one mount call is made for it. Paths below the
rootfs are kept as their components, which is what path equality compares.
-/

namespace Mars.Mounts
open UnixPath Spec MountTable

/-! ## Options -/

structure Options where
  flags : MsFlags
  data : String
  deriving DecidableEq

/-- What an option that is not data does to the flags. -/
inductive Change where
  | keep
  | set (flags : MsFlags)
  | clear (flags : MsFlags)
  deriving DecidableEq

def Change.apply : Change → MsFlags → MsFlags
  | .keep, flags => flags
  | .set on, flags => flags ||| on
  | .clear off, flags => flags &&& ~~~off

def OPTIONS : List (String × Change) := [
  ("defaults", .keep),
  ("ro", .set MS_RDONLY),
  ("rw", .clear MS_RDONLY),
  ("suid", .clear MS_NOSUID),
  ("nosuid", .set MS_NOSUID),
  ("dev", .clear MS_NODEV),
  ("nodev", .set MS_NODEV),
  ("exec", .clear MS_NOEXEC),
  ("noexec", .set MS_NOEXEC),
  ("sync", .set MS_SYNCHRONOUS),
  ("async", .clear MS_SYNCHRONOUS),
  ("dirsync", .set MS_DIRSYNC),
  ("remount", .set MS_REMOUNT),
  ("mand", .set MS_MANDLOCK),
  ("nomand", .clear MS_MANDLOCK),
  ("atime", .clear MS_NOATIME),
  ("noatime", .set MS_NOATIME),
  ("diratime", .clear MS_NODIRATIME),
  ("nodiratime", .set MS_NODIRATIME),
  ("relatime", .set MS_RELATIME),
  ("norelatime", .clear MS_RELATIME),
  ("strictatime", .set MS_STRICTATIME),
  ("nostrictatime", .clear MS_STRICTATIME),
  ("bind", .set MS_BIND),
  ("rbind", .set (MS_BIND ||| MS_REC)),
  ("unbindable", .set MS_UNBINDABLE),
  ("runbindable", .set (MS_UNBINDABLE ||| MS_REC)),
  ("private", .set MS_PRIVATE),
  ("rprivate", .set (MS_PRIVATE ||| MS_REC)),
  ("shared", .set MS_SHARED),
  ("rshared", .set (MS_SHARED ||| MS_REC)),
  ("slave", .set MS_SLAVE),
  ("rslave", .set (MS_SLAVE ||| MS_REC))]

def parseStep (parsed : MsFlags × List String) (option : String) : MsFlags × List String :=
  match OPTIONS.lookup option with
  | some change => (change.apply parsed.1, parsed.2)
  | none => (parsed.1, parsed.2 ++ [option])

def parseOptions (options : List String) : Options :=
  let (flags, data) := options.foldl parseStep (0, [])
  { flags, data := ",".intercalate data }

def FLAG_NAMES : List (MsFlags × String) := [
  (MS_RDONLY, "MS_RDONLY"), (MS_NOSUID, "MS_NOSUID"), (MS_NODEV, "MS_NODEV"),
  (MS_NOEXEC, "MS_NOEXEC"), (MS_SYNCHRONOUS, "MS_SYNCHRONOUS"), (MS_REMOUNT, "MS_REMOUNT"),
  (MS_MANDLOCK, "MS_MANDLOCK"), (MS_DIRSYNC, "MS_DIRSYNC"), (MS_NOATIME, "MS_NOATIME"),
  (MS_NODIRATIME, "MS_NODIRATIME"), (MS_BIND, "MS_BIND"), (MS_REC, "MS_REC"),
  (MS_UNBINDABLE, "MS_UNBINDABLE"), (MS_PRIVATE, "MS_PRIVATE"), (MS_SLAVE, "MS_SLAVE"),
  (MS_SHARED, "MS_SHARED"), (MS_RELATIME, "MS_RELATIME"), (MS_STRICTATIME, "MS_STRICTATIME")]

def debugFlags (flags : MsFlags) : String :=
  let names := (FLAG_NAMES.filter fun named => contains flags named.1).map Prod.snd
  "MsFlags(" ++ (if names = [] then "0x0" else " | ".intercalate names) ++ ")"

/-! ## One entry -/

def resolve (rootfs destination : String) : List Component :=
  (components destination).foldl
    (fun out part =>
      match part with
      | .normal name => out ++ [.normal name]
      | .parentDir => if out ≠ components rootfs then out.dropLast else out
      | _ => out)
    (components rootfs)

def effectiveFstype (requested : String) (unifiedHost : Bool) : String :=
  if requested = "cgroup" && unifiedHost then "cgroup2" else requested

/-- A step on the file tree that may fail. -/
inductive FileStep where
  | createDirAll (path : List Component)
  | createFile (path : List Component)
  | removeFile (path : List Component)
  | symlink (target : String) (path : List Component)
  deriving DecidableEq

/-- What the file tree and the kernel answer. `leads` is where a path leads when a call takes
it, through whatever symbolic links. -/
structure Host where
  unifiedCgroup : Bool
  leads : Kernel → List Component → List Name
  isFile : String → Bool
  pathExists : List Component → Bool
  linkExists : List Component → Bool
  fails : FileStep → Bool
  refuses : Call → Bool

/-- No symbolic link is on the way of the path, whatever is mounted. -/
def Host.Plain (host : Host) (path : List Component) : Prop :=
  ∀ k, host.leads k path = k.locate path

def Host.step (host : Host) (step : FileStep) (context : String) : Except Error Unit :=
  if host.fails step then .error (.io context) else .ok ()

def Host.mount (host : Host) (k : Kernel) (call : Call) (context : String) :
    Except Error Kernel :=
  called (if host.refuses call then none else MountTable.mount (host.leads k) k call) (.nix context)

/-- The directory, or for a bound file the file, that the mount is laid over. -/
def prepareTarget (host : Host) (destination : List Component) (source : String) (bind : Bool) :
    Except Error Unit := do
  if bind && host.isFile source then
    match parent destination with
    | some dir => host.step (.createDirAll dir) ("create " ++ display dir)
    | none => pure ()
    if host.pathExists destination then pure ()
    else host.step (.createFile destination) ("create " ++ display destination)
  else host.step (.createDirAll destination) ("create " ++ display destination)

def linkPtmx (host : Host) (rootfs : String) : Except Error Unit := do
  let ptmx := components (join rootfs "dev/ptmx")
  if host.linkExists ptmx then host.step (.removeFile ptmx) ("remove " ++ display ptmx)
  host.step (.symlink "pts/ptmx" ptmx) ("symlink " ++ display ptmx ++ " -> pts/ptmx")

def mountCall (host : Host) (rootfs : String) (specMount : Mount) : Call :=
  let options := parseOptions (specMount.options.getD [])
  { source := some (specMount.source.getD "none")
    target := resolve rootfs specMount.destination
    fstype := some (effectiveFstype (specMount.typ.getD "none") host.unifiedCgroup)
    flags := options.flags
    data := if options.data = "" then none else some options.data }

def applyOne (host : Host) (rootfs : String) (k : Kernel) (specMount : Mount) :
    Except Error Kernel := do
  let call := mountCall host rootfs specMount
  let source := specMount.source.getD "none"
  prepareTarget host call.target source (contains call.flags MS_BIND)
  let k ← host.mount k call ("mount " ++ source ++ " type=" ++ call.fstype.getD "" ++ " at " ++
    specMount.destination ++ " flags=" ++ debugFlags call.flags ++ " data=" ++
    Text.debugText (call.data.getD ""))
  if call.fstype = some "devpts" then linkPtmx host rootfs
  pure k

def apply (host : Host) (rootfs : String) (mounts : List Mount) (k : Kernel) :
    Except Error Kernel :=
  mounts.foldlM (applyOne host rootfs) k

/-! ## The bits of the options -/

/-- The value a change gives to one bit, if it gives any. -/
def Change.mention : Change → Nat → Option Bool
  | .keep, _ => none
  | .set on, bit => if on.getLsbD bit then some true else none
  | .clear off, bit => if off.getLsbD bit then some false else none

/-- The value an option gives to one bit. -/
def mention (bit : Nat) (option : String) : Option Bool :=
  (OPTIONS.lookup option).bind fun change => change.mention bit

theorem apply_bit (change : Change) (flags : MsFlags) {bit : Nat} (h : bit < 64) :
    (change.apply flags).getLsbD bit = (change.mention bit).getD (flags.getLsbD bit) := by
  cases change with
  | keep => rfl
  | set on =>
      cases hbit : on.getLsbD bit with
      | true => simp [Change.apply, Change.mention, hbit]
      | false => simp [Change.apply, Change.mention, hbit]
  | clear off =>
      cases hbit : off.getLsbD bit with
      | true => simp [Change.apply, Change.mention, hbit]
      | false =>
          simp only [Change.apply, Change.mention, hbit, BitVec.getLsbD_and, BitVec.getLsbD_not]
          simp [h]

section bits
variable {bit : Nat}

theorem parseStep_bit (parsed : MsFlags × List String) (option : String) (h : bit < 64) :
    (parseStep parsed option).1.getLsbD bit = (mention bit option).getD (parsed.1.getLsbD bit) := by
  unfold parseStep mention
  cases OPTIONS.lookup option with
  | none => rfl
  | some change => exact apply_bit change parsed.1 h

/-- A bit has the value of the last option that gives it one. -/
theorem parseOptions_bit (options : List String) (h : bit < 64) :
    (parseOptions options).flags.getLsbD bit =
      ((options.filterMap (mention bit)).getLast?).getD false := by
  show (options.foldl parseStep (0, [])).1.getLsbD bit = _
  induction options using List.reverseRecOn with
  | nil => simp
  | append_singleton front option ih =>
      rw [List.foldl_append, List.foldl_cons, List.foldl_nil, parseStep_bit _ _ h, ih,
        List.filterMap_append]
      cases hmention : mention bit option with
      | none => simp [hmention]
      | some value => simp [hmention]

/-- What the table does to a bit is what all options do to it. -/
theorem mention_eq {expected : String → Option Bool}
    (htable : ∀ named ∈ OPTIONS, named.2.mention bit = expected named.1)
    (hothers : ∀ option, expected option ≠ none → option ∈ OPTIONS.map Prod.fst)
    (option : String) : mention bit option = expected option := by
  unfold mention
  cases hlookup : OPTIONS.lookup option with
  | none =>
      by_contra hne
      obtain ⟨named, hnamed, rfl⟩ := List.mem_map.mp (hothers option (Ne.symm hne))
      exact absurd rfl (bne_iff_ne.mp (List.lookup_eq_none_iff.mp hlookup named hnamed))
  | some change =>
      obtain ⟨front, back, hoptions, -⟩ := List.lookup_eq_some_iff.mp hlookup
      exact htable (option, change) (by simp [hoptions])

end bits

/-- One option sets a bit and another clears it. -/
def toggle (on off option : String) : Option Bool :=
  if option = on then some true else if option = off then some false else none

theorem toggle_last {on off : String} (options : List String) :
    ((options.filterMap (toggle on off)).getLast?).getD false = true ↔
      (options.filter fun option => option = on ∨ option = off).getLast? = some on := by
  induction options using List.reverseRecOn with
  | nil => simp
  | append_singleton front option ih =>
      rw [List.filterMap_append, List.filter_append]
      by_cases hon : option = on
      · simp [toggle, hon]
      · by_cases hoff : option = off
        · subst hoff
          simp [toggle, hon]
        · have hskip : [option].filter (fun option => option = on ∨ option = off) = [] := by
            simp [hon, hoff]
          rw [hskip, List.append_nil]
          simpa [toggle, hon, hoff] using ih

/-! ## The read-only bit of the options -/

/-- The last of `ro` and `rw`. -/
def lastAccess (options : List String) : Option String :=
  (options.filter fun option => option = "ro" ∨ option = "rw").getLast?

def AsksReadonly (specMount : Mount) : Prop :=
  lastAccess (specMount.options.getD []) = some "ro"

instance (specMount : Mount) : Decidable (AsksReadonly specMount) :=
  inferInstanceAs (Decidable (_ = _))

/-- Among the options only `ro` and `rw` mention the bit. -/
theorem mention_readonly (option : String) : mention 0 option = toggle "ro" "rw" option := by
  refine mention_eq (by decide) (fun option h => ?_) option
  unfold toggle at h
  split at h
  next hro => simp [hro, OPTIONS]
  next =>
    split at h
    next hrw => simp [hrw, OPTIONS]
    next => exact absurd rfl h

/-- The flag is what the last mention says. -/
theorem parseOptions_readonly (options : List String) :
    contains (parseOptions options).flags MS_RDONLY = true ↔ lastAccess options = some "ro" := by
  rw [show MS_RDONLY = .twoPow 64 0 from rfl, contains_twoPow (by decide),
    parseOptions_bit _ (by decide), funext mention_readonly]
  exact toggle_last options

/-! ## Where an entry's mount comes to lie -/

/-- Reading names below the rootfs is reading them below any root. -/
theorem resolve_shift (rootfs : String) {path : List Component}
    (hroot : Component.rootDir ∉ path) (names : List Name) :
    path.foldl
      (fun out part =>
        match part with
        | .normal name => out ++ [.normal name]
        | .parentDir => if out ≠ components rootfs then out.dropLast else out
        | _ => out)
      (components rootfs ++ names.map Component.normal) =
    components rootfs ++ (walk [] names path).map Component.normal := by
  induction path generalizing names with
  | nil => rfl
  | cons part rest ih =>
      have hrest : Component.rootDir ∉ rest := fun h => hroot (by simp [h])
      rw [List.foldl_cons]
      cases part with
      | rootDir => exact absurd (by simp) hroot
      | curDir => exact ih hrest names
      | normal name =>
          have := ih hrest (names ++ [name])
          rw [List.map_append, ← List.append_assoc] at this
          exact this
      | parentDir =>
          by_cases hnil : names = []
          · subst hnil
            have := ih hrest []
            simpa [walk] using this
          · have hmap : names.map Component.normal ≠ [] := by simpa using hnil
            have hdrop : (components rootfs ++ names.map Component.normal).dropLast =
                components rootfs ++ names.dropLast.map Component.normal := by
              rw [List.dropLast_append_of_ne_nil hmap, List.map_dropLast]
            have := ih hrest names.dropLast
            simpa [walk, hnil, hdrop] using this

/-- Resolving appends the names that reading the destination from a root leaves. -/
theorem resolve_eq (rootfs destination : String) :
    resolve rootfs destination =
      components rootfs ++ (walk [] [] (components destination)).map Component.normal := by
  obtain ⟨rest, hroot, hcases⟩ := components_cases destination
  have hshift := resolve_shift rootfs hroot []
  rw [List.map_nil, List.append_nil] at hshift
  unfold resolve
  rcases hcases with hcases | hcases
  · rw [hcases, List.foldl_cons]
    exact hshift
  · rw [hcases]
    exact hshift

/-- The names a destination leads through, read from the top of a tree. -/
def fromRoot (destination : String) : List Name := walk [] [] (components destination)

theorem fromRoot_pushAll (names : List Name) :
    fromRoot (pushAll "" names) = names ∧ fromRoot (pushAll "/" names) = names := by
  have hwalk := walk_names [] [] names
  constructor
  · rw [fromRoot, components_pushAll, walk_append]
    exact hwalk
  · rw [fromRoot, components_pushAll, walk_append]
    exact hwalk

/-- Resolving is reading the destination in a tree whose root is the rootfs: the
way up ends there, the result lies at the rootfs or below it, and the part below,
with or without a slash in front, resolves to the same. -/
theorem resolve_chroot (rootfs destination : String) :
    resolve rootfs destination = components rootfs ++ (fromRoot destination).map .normal ∧
      (resolve rootfs destination = components rootfs ∨
        ∃ names : List Name, names ≠ [] ∧
          resolve rootfs destination = components rootfs ++ names.map .normal) ∧
      resolve rootfs (pushAll "" (fromRoot destination)) = resolve rootfs destination ∧
      resolve rootfs (pushAll "/" (fromRoot destination)) = resolve rootfs destination := by
  have hresolve : ∀ path, resolve rootfs path = components rootfs ++ (fromRoot path).map .normal :=
    resolve_eq rootfs
  obtain ⟨hrelative, habsolute⟩ := fromRoot_pushAll (fromRoot destination)
  refine ⟨hresolve destination, ?_, ?_, ?_⟩
  · by_cases hnil : fromRoot destination = []
    · left
      rw [hresolve, hnil, List.map_nil, List.append_nil]
    · exact .inr ⟨_, hnil, hresolve destination⟩
  · rw [hresolve, hrelative, ← hresolve]
  · rw [hresolve, habsolute, ← hresolve]

/-- After the root has moved, the destination leads where the mount was put. -/
theorem locate_pivot (k : Kernel) (rootfs destination : String) :
    (k.pivot (components rootfs)).locate (components destination) =
      k.locate (resolve rootfs destination) := by
  rw [resolve_eq, Kernel.locate, Kernel.locate, walk_append, walk_names]
  exact walk_root _ _

end Mars.Mounts
