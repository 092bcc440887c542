import Mars.Core.FileTree
import Mars.Rootfs.Overlay

/-! # The directories of an overlay

Before the overlay is mounted its directories are made and compared, so that a
refusal names its reason. What the file system answers is a parameter; only
making a directory changes what it answers next.
-/

namespace Mars.Overlay
open UnixPath FileTree

def MIN_READONLY_LOWER : Nat := 2

/-- The calls made on the file system. A canonical path is a place. -/
structure Files (σ : Type) where
  isDir : σ → String → Bool
  createDirAll : σ → String → Option σ
  canonicalize : σ → String → Option Place
  device : σ → Place → Option Nat

/-! ## The source's checks -/

/-- The components of a canonical path. -/
def absoluteComponents (place : Place) : List Component := .rootDir :: place.map .normal

def startsWith (path base : Place) : Prop := absoluteComponents base <+: absoluteComponents path

instance (path base : Place) : Decidable (startsWith path base) :=
  inferInstanceAs (Decidable (_ <+: _))

def displayPlace (place : Place) : String := display (absoluteComponents place)

variable {σ : Type}

def checkSameFilesystem (files : Files σ) (s : σ) (upper work : Place) : Except Error Unit := do
  let upperDev ← called (files.device s upper) (.io ("stat upperdir " ++ displayPlace upper))
  let workDev ← called (files.device s work) (.io ("stat workdir " ++ displayPlace work))
  if upperDev ≠ workDev then
    throw (.overlay ("workdir " ++ displayPlace work ++ " is on device " ++ toString workDev ++
      " but upperdir " ++ displayPlace upper ++ " is on device " ++ toString upperDev ++
      "; overlayfs renames files between the two and cannot cross a filesystem boundary"))

def checkNotNested (upper work : Place) : Except Error Unit :=
  if startsWith work upper then
    .error (.overlay ("workdir " ++ displayPlace work ++ " is inside upperdir " ++
      displayPlace upper ++ "; the container would see the runtime's scratch directory as part " ++
      "of its own filesystem"))
  else if startsWith upper work then
    .error (.overlay ("upperdir " ++ displayPlace upper ++ " is inside workdir " ++
      displayPlace work ++ "; overlayfs empties the workdir on mount"))
  else .ok ()

/-- The body of the loop over the lower layers. -/
def checkLower (files : Files σ) (s : σ) (upper : Place) (dir : String) : Except Error Unit := do
  let lower ← called (files.canonicalize s dir) (.io ("resolve lower layer " ++ dir))
  if lower = upper ∨ startsWith upper lower ∨ startsWith lower upper then
    throw (.overlay ("lower layer " ++ displayPlace lower ++ " overlaps the upper layer " ++
      displayPlace upper ++ "; overlayfs requires them to be disjoint directory trees"))

def prepareWritable (files : Files σ) (s : σ) (lower : List String) (upper work : String) :
    Except Error σ := do
  let s ← called (files.createDirAll s upper) (.io ("create upperdir " ++ upper))
  let s ← called (files.createDirAll s work) (.io ("create workdir " ++ work))
  let upperAt ← called (files.canonicalize s upper) (.io ("resolve upperdir " ++ upper))
  let workAt ← called (files.canonicalize s work) (.io ("resolve workdir " ++ work))
  checkSameFilesystem files s upperAt workAt
  checkNotNested upperAt workAt
  lower.forM (checkLower files s upperAt)
  return s

/-- What it leaves behind when it succeeds; a refusal may leave directories made too. -/
def prepare (files : Files σ) (s : σ) (layers : Layers) : Except Error σ :=
  match layers.lower.find? (! files.isDir s ·) with
  | some dir =>
      .error (.overlay ("lower layer " ++ dir ++ " does not exist or is not a directory"))
  | none =>
      match layers.upper, layers.work with
      | some upper, some work => prepareWritable files s layers.lower upper work
      | some _, none =>
          .error (.overlay (UPPERDIR ++ " requires " ++ WORKDIR ++ ": overlayfs needs a scratch " ++
            "directory on the same filesystem as the upper layer to stage rename and copy-up " ++
            "operations"))
      | none, some _ =>
          .error (.overlay (WORKDIR ++ " was set without " ++ UPPERDIR ++
            "; a read-only overlay uses neither"))
      | none, none =>
          if layers.lower.length < MIN_READONLY_LOWER then
            .error (.overlay ("a read-only overlay needs at least " ++
              toString MIN_READONLY_LOWER ++ " lower layers, " ++ toString layers.lower.length ++
              " given; with one layer and no upperdir there is nothing to merge, and the kernel " ++
              "refuses the mount"))
          else .ok s

/-! ## Disjoint trees -/

/-- Neither is equal to, inside, or an ancestor of the other. -/
def Apart (a b : Place) : Prop := a ≠ b ∧ ¬ b <+: a ∧ ¬ a <+: b

instance (a b : Place) : Decidable (Apart a b) := inferInstanceAs (Decidable (_ ∧ _))

theorem startsWith_iff {path base : Place} : startsWith path base ↔ base <+: path := by
  have hinjective : Function.Injective Component.normal := fun _ _ h => Component.normal.inj h
  rw [startsWith, absoluteComponents, absoluteComponents, List.cons_prefix_cons,
    List.prefix_map_iff_of_injective hinjective]
  simp

theorem apart_iff {a b : Place} : Apart a b ↔ ¬ b <+: a ∧ ¬ a <+: b := by
  constructor
  · exact And.right
  · intro h
    refine ⟨?_, h⟩
    rintro rfl
    exact h.1 List.prefix_rfl

/-- Where the directories of writable layers lie. -/
structure Located (files : Files σ) (s : σ) (layers : Layers) (upper work : Place)
    (lower : List Place) : Prop where
  upper : layers.upper.bind (files.canonicalize s) = some upper
  work : layers.work.bind (files.canonicalize s) = some work
  lower : layers.lower.map (files.canonicalize s) = lower.map some

/-- Upper and work directory share a device, and each is apart from the other and
from every lower layer. -/
structure Separate (files : Files σ) (s : σ) (upper work : Place) (lower : List Place) : Prop where
  sameDevice : ∃ dev, files.device s upper = some dev ∧ files.device s work = some dev
  upperWork : Apart upper work
  upperLower : ∀ dir ∈ lower, Apart upper dir
  workLower : ∀ dir ∈ lower, Apart work dir

def SeparateTrees (files : Files σ) (s : σ) (layers : Layers) : Prop :=
  ∃ upper work lower, Located files s layers upper work lower ∧ Separate files s upper work lower

/-! ## What an accepted preparation has checked -/

theorem checkSameFilesystem_eq_ok {files : Files σ} {s : σ} {upper work : Place} :
    checkSameFilesystem files s upper work = .ok () ↔
      ∃ dev, files.device s upper = some dev ∧ files.device s work = some dev := by
  simp only [checkSameFilesystem, bind_eq_ok, called_eq_ok]
  constructor
  · rintro ⟨dev, hupper, workDev, hwork, hsame⟩
    split at hsame
    next => cases hsame
    next heq => exact ⟨dev, hupper, by rw [hwork, not_not.mp heq]⟩
  · rintro ⟨dev, hupper, hwork⟩
    exact ⟨dev, hupper, dev, hwork, by simp [pure, Except.pure]⟩

theorem checkNotNested_eq_ok {upper work : Place} :
    checkNotNested upper work = .ok () ↔ Apart upper work := by
  simp only [checkNotNested, apart_iff, startsWith_iff]
  by_cases hinside : upper <+: work
  · simp [hinside]
  · by_cases hwork : work <+: upper
    · simp [hinside, hwork]
    · simp [hinside, hwork]

theorem checkLower_eq_ok {files : Files σ} {s : σ} {upper : Place} {dir : String} :
    checkLower files s upper dir = .ok () ↔
      ∃ lower, files.canonicalize s dir = some lower ∧ Apart upper lower := by
  simp only [checkLower, bind_eq_ok, called_eq_ok, startsWith_iff, apart_iff]
  refine exists_congr fun lower => and_congr_right fun _ => ?_
  split
  next hoverlap =>
    constructor
    · intro h
      cases h
    · rintro ⟨hupper, hlower⟩
      rcases hoverlap with rfl | hnested | hnested
      · exact absurd List.prefix_rfl hupper
      · exact absurd hnested hupper
      · exact absurd hnested hlower
  next hapart =>
    rw [not_or, not_or] at hapart
    exact ⟨fun _ => hapart.2, fun _ => rfl⟩

/-- The file system once upper and work directory are there. -/
def created (files : Files σ) (s : σ) (upper work : String) : Option σ :=
  (files.createDirAll s upper).bind fun s => files.createDirAll s work

/-- Everything that was checked, where the directories lie after they were made. -/
theorem prepareWritable_eq_ok {files : Files σ} {s s' : σ} {lower : List String}
    {upper work : String} :
    prepareWritable files s lower upper work = .ok s' ↔
      created files s upper work = some s' ∧ ∃ upperAt workAt,
        files.canonicalize s' upper = some upperAt ∧ files.canonicalize s' work = some workAt ∧
        (∃ dev, files.device s' upperAt = some dev ∧ files.device s' workAt = some dev) ∧
        Apart upperAt workAt ∧
        ∀ dir ∈ lower, ∃ lowerAt, files.canonicalize s' dir = some lowerAt ∧
          Apart upperAt lowerAt := by
  have hrest : ∀ (s : σ) (upperAt workAt : Place),
      (do
        checkSameFilesystem files s upperAt workAt
        checkNotNested upperAt workAt
        lower.forM (checkLower files s upperAt)
        return s : Except Error σ) = .ok s' ↔
      (∃ dev, files.device s upperAt = some dev ∧ files.device s workAt = some dev) ∧
        Apart upperAt workAt ∧ (∀ dir ∈ lower, ∃ lowerAt,
          files.canonicalize s dir = some lowerAt ∧ Apart upperAt lowerAt) ∧ s = s' := by
    intro s upperAt workAt
    rw [check_bind_eq_ok, check_bind_eq_ok, check_bind_eq_ok, checkSameFilesystem_eq_ok,
      checkNotNested_eq_ok, forM_eq_ok, pure_eq_ok]
    simp only [checkLower_eq_ok]
  simp only [prepareWritable, bind_eq_ok, called_eq_ok, hrest, created, Option.bind_eq_some_iff]
  constructor
  · rintro ⟨s₁, hupper, s₂, hwork, upperAt, hupperAt, workAt, hworkAt, hdev, hapart, hlower, rfl⟩
    exact ⟨⟨s₁, hupper, hwork⟩, upperAt, workAt, hupperAt, hworkAt, hdev, hapart, hlower⟩
  · rintro ⟨⟨s₁, hupper, hwork⟩, upperAt, workAt, hupperAt, hworkAt, hdev, hapart, hlower⟩
    exact ⟨s₁, hupper, s', hwork, upperAt, hupperAt, workAt, hworkAt, hdev, hapart, hlower, rfl⟩

theorem prepare_writable {files : Files σ} {s s' : σ} {layers : Layers} {upper work : String}
    (hupper : layers.upper = some upper) (hwork : layers.work = some work)
    (h : prepare files s layers = .ok s') :
    prepareWritable files s layers.lower upper work = .ok s' := by
  unfold prepare at h
  split at h
  next => cases h
  next =>
    rw [hupper, hwork] at h
    exact h

/-! ## The work directory and the lower layers -/

/-- The work directory, once it is there, is apart from every lower layer. -/
def WorkApart (files : Files σ) (s : σ) (layers : Layers) : Prop :=
  ∀ upper ∈ layers.upper, ∀ work ∈ layers.work, ∀ s' ∈ created files s upper work,
    ∀ workAt ∈ files.canonicalize s' work, ∀ dir ∈ layers.lower,
      ∀ lowerAt ∈ files.canonicalize s' dir, Apart workAt lowerAt

theorem exists_located {files : Files σ} {s : σ} {dirs : List String}
    (h : ∀ dir ∈ dirs, ∃ place, files.canonicalize s dir = some place) :
    ∃ places : List Place, dirs.map (files.canonicalize s) = places.map some := by
  induction dirs with
  | nil => exact ⟨[], rfl⟩
  | cons dir rest ih =>
      obtain ⟨hdir, hrest⟩ := List.forall_mem_cons.mp h
      obtain ⟨place, hplace⟩ := hdir
      obtain ⟨places, hplaces⟩ := ih hrest
      exact ⟨place :: places, by rw [List.map_cons, List.map_cons, hplace, hplaces]⟩

theorem mem_located {files : Files σ} {s : σ} {layers : Layers} {upper work : Place}
    {lower : List Place} (h : Located files s layers upper work lower) {place : Place} :
    place ∈ lower ↔ ∃ dir ∈ layers.lower, files.canonicalize s dir = some place := by
  rw [← List.mem_map, h.lower, List.mem_map]
  simp

instance (files : Files σ) (s : σ) (layers : Layers) : Decidable (WorkApart files s layers) := by
  unfold WorkApart
  infer_instance

theorem workApart_of_separate {files : Files σ} {s s' : σ} {layers : Layers} {upper work : String}
    (hupper : layers.upper = some upper) (hwork : layers.work = some work)
    (hcreated : created files s upper work = some s')
    (h : SeparateTrees files s' layers) : WorkApart files s layers := by
  obtain ⟨_, workAt, lower, hlocated, hseparate⟩ := h
  intro upper' hupper' work' hwork' s'' hs'' workAt' hworkAt' dir hdir lowerAt hlowerAt
  obtain rfl : work = work' := Option.some.inj (hwork.symm.trans hwork')
  obtain rfl : upper = upper' := Option.some.inj (hupper.symm.trans hupper')
  obtain rfl : s' = s'' := Option.some.inj (hcreated.symm.trans hs'')
  have hat : workAt = workAt' := by
    have hat := hlocated.work
    rw [hwork, Option.bind_some] at hat
    exact Option.some.inj (hat.symm.trans hworkAt')
  rw [← hat]
  exact hseparate.workLower lowerAt ((mem_located hlocated).mpr ⟨dir, hdir, hlowerAt⟩)

theorem separate_of_workApart {files : Files σ} {s s' : σ} {layers : Layers} {upper work : String}
    (hupper : layers.upper = some upper) (hwork : layers.work = some work)
    (h : prepareWritable files s layers.lower upper work = .ok s')
    (hapart : WorkApart files s layers) : SeparateTrees files s' layers := by
  obtain ⟨hcreated, upperAt, workAt, hupperAt, hworkAt, hdev, hupperWork, hlower⟩ :=
    prepareWritable_eq_ok.mp h
  obtain ⟨lower, hplaces⟩ := exists_located fun dir hdir =>
    (hlower dir hdir).imp fun _ hat => hat.1
  have hlocated : Located files s' layers upperAt workAt lower :=
    { upper := by rw [hupper, Option.bind_some, hupperAt]
      work := by rw [hwork, Option.bind_some, hworkAt]
      lower := hplaces }
  refine ⟨upperAt, workAt, lower, hlocated, ⟨hdev, hupperWork, ?_, ?_⟩⟩
  · intro place hplace
    obtain ⟨dir, hdir, hat⟩ := (mem_located hlocated).mp hplace
    obtain ⟨lowerAt, hlowerAt, hupperLower⟩ := hlower dir hdir
    obtain rfl : place = lowerAt := Option.some.inj (hat.symm.trans hlowerAt)
    exact hupperLower
  · intro place hplace
    obtain ⟨dir, hdir, hat⟩ := (mem_located hlocated).mp hplace
    exact hapart upper hupper work hwork s' hcreated workAt hworkAt dir hdir place hat

/-! ## On a tree -/

/-- The calls on a tree with links, paths being absolute. -/
def treeFiles (host : FileTree.Host) (device : Tree → Place → Option Nat) : Files Tree where
  isDir t path := FileTree.isDir t (components path)
  createDirAll t path := (FileTree.createDirAll host t (components path)).2.toOption
  canonicalize t path :=
    match lead t (components path) with
    | .dir _ place => some place
    | .leaf _ place => some place
    | _ => none
  device := device

def layerTree : Tree := fun place =>
  if place = [] ∨ place = [⟨"b", by decide⟩] ∨
    place = [⟨"b", by decide⟩, ⟨"lower", by decide⟩] then some .dir else none

def oneDevice : Files Tree :=
  treeFiles { refuse := fun _ => none, shows := fun _ _ => none } fun _ _ => some 0

def siblings : Layers := ⟨["/b/lower"], some "/b/upper", some "/b/work"⟩

def scratch : Layers := ⟨["/b/lower"], some "/b/upper", some "/b/lower/work"⟩

theorem accepted {files : Files σ} {s : σ} {layers : Layers}
    (h : (prepare files s layers).toOption.isSome) : ∃ s', prepare files s layers = .ok s' := by
  cases hprepare : prepare files s layers with
  | error e => simp [hprepare, Except.toOption] at h
  | ok s' => exact ⟨s', rfl⟩

theorem siblings_accepted : (prepare oneDevice layerTree siblings).toOption.isSome := by
  decide +kernel

/-- Layers that were accepted are disjoint trees on one device exactly when the work
directory is apart from the lower layers; all the rest has been checked. -/
theorem separateTrees_iff {files : Files σ} {s s' : σ} {layers : Layers}
    (hupper : layers.upper.isSome) (hwork : layers.work.isSome)
    (h : prepare files s layers = .ok s') :
    SeparateTrees files s' layers ↔ WorkApart files s layers := by
  obtain ⟨upper, hupper⟩ := Option.isSome_iff_exists.mp hupper
  obtain ⟨work, hwork⟩ := Option.isSome_iff_exists.mp hwork
  have hwritable := prepare_writable hupper hwork h
  constructor
  · exact workApart_of_separate hupper hwork (prepareWritable_eq_ok.mp hwritable).1
  · exact separate_of_workApart hupper hwork hwritable

theorem separateTrees_siblings : ∃ s', prepare oneDevice layerTree siblings = .ok s' ∧
    SeparateTrees oneDevice s' siblings := by
  obtain ⟨s', hs'⟩ := accepted siblings_accepted
  exact ⟨s', hs', (separateTrees_iff (by decide) (by decide) hs').mpr (by decide +kernel)⟩

/-- A work directory inside the lower layer is accepted. -/
theorem scratch_accepted : ∃ s', prepare oneDevice layerTree scratch = .ok s' ∧
    ¬ SeparateTrees oneDevice s' scratch := by
  have hisSome : (prepare oneDevice layerTree scratch).toOption.isSome := by decide +kernel
  obtain ⟨s', hs'⟩ := accepted hisSome
  refine ⟨s', hs', fun hseparate => ?_⟩
  have hwritable := prepare_writable rfl rfl hs'
  have hapart := workApart_of_separate rfl rfl (prepareWritable_eq_ok.mp hwritable).1 hseparate
  exact absurd hapart (by decide +kernel)

end Mars.Overlay
