import Mars.Core.MountTable
import Mars.Core.PathText
import Mars.Rootfs.Overlay

/-! # Mounting an overlay

Option strings over a page are shortened: the process changes into a directory
above all layers and names them from there. Every call that reaches the kernel
is kept with its answer.
-/

namespace Mars.Overlay
open UnixPath V2 MountTable
open Text (debugText)

/-! ## Relative layers -/

def keepShared (shared : List Component) (path : String) : Option (List Component) :=
  (parent (components path)).map (commonFront shared)

def commonParent (layers : Layers) : Option Absolute := do
  match layers.paths with
  | [] => none
  | first :: rest =>
      let shared ← parent (components first)
      let shared ← rest.foldlM keepShared shared
      if h : isAbsolute (collect shared) then some ⟨collect shared, h⟩ else none

/-- A layer that is the directory itself would be left without a name. -/
def strip (base : Absolute) (path : String) : Option String :=
  (stripPrefix path base).filter (· ≠ "")

def relativeTo (layers : Layers) (base : Absolute) : Option Layers := do
  let lower ← layers.lower.mapM (strip base)
  let upper ← layers.upper.mapM (strip base)
  let work ← layers.work.mapM (strip base)
  return { lower, upper, work }

/-! ## Calls -/

structure MountArgs where
  source : String
  target : String
  fstype : String
  flags : MsFlags
  data : String
  deriving DecidableEq

inductive Call where
  | chdir (path : String)
  | mount (args : MountArgs)
  deriving DecidableEq

def Call.texts : Call → List String
  | .chdir path => [path]
  | .mount args => [args.source, args.target, args.fstype, args.data]

/-- Whether the kernel carries out a call, given the calls made before. -/
abbrev Host := List (Call × Bool) → Call → Bool

abbrev Attempt := List (Call × Bool) × Except Error Unit

/-- A text with a nul byte is turned down before the kernel sees it. -/
def attempt (host : Host) (made : List (Call × Bool)) (call : Call) (context : String) : Attempt :=
  if ∃ text ∈ call.texts, '\x00' ∈ text.toList then (made, .error (.nix context))
  else (made ++ [(call, host made call)],
    if host made call then .ok () else .error (.nix context))

/-! ## Mounting -/

def tooLong (bytes : Nat) (base : Option Absolute) : Error :=
  let hint := match base with
    | some base => " even relative to " ++ base.text ++ "; shorten the layer directory names"
    | none => " and the layers share no common parent to make them relative to"
  .overlay ("the mount option string is " ++ toString bytes ++ " bytes, over the " ++
    toString MAX_OPTION_BYTES ++ "-byte page the kernel accepts" ++ hint)

/-- The option string, and the directory it is relative to. -/
def dataAndBase (layers : Layers) : Except Error (String × Option Absolute) := do
  let absolute ← options layers
  if absolute.utf8ByteSize ≤ MAX_OPTION_BYTES then
    return (absolute, none)
  else
    let base ← called (commonParent layers) (tooLong absolute.utf8ByteSize none)
    let relative ← called (relativeTo layers base) (tooLong absolute.utf8ByteSize (some base))
    let shortened ← options relative
    if shortened.utf8ByteSize > MAX_OPTION_BYTES then
      .error (tooLong shortened.utf8ByteSize (some base))
    else
      return (shortened, some base)

def mountArgs (target data : String) : MountArgs :=
  { source := "overlay", target, fstype := "overlay", flags := 0, data }

def mountContext (target : String) (layers : Layers) (data : String) : String :=
  "mount overlay at " ++ target ++ " with " ++ toString layers.lower.length ++
    " lower layer(s), " ++ (if layers.isReadonly then "read-only" else "writable") ++
    " (options " ++ debugText data ++ ") — overlayfs reports the reason for a refusal only in " ++
    "the kernel log, so check `dmesg | tail`"

def mountAt (host : Host) (target : String) (layers : Layers) : Attempt :=
  match dataAndBase layers with
  | .error error => ([], .error error)
  | .ok (data, none) =>
      attempt host [] (.mount (mountArgs target data)) (mountContext target layers data)
  | .ok (data, some base) =>
      match attempt host [] (.chdir base.text) ("chdir to overlay base " ++ base.text) with
      | (made, .error error) => (made, .error error)
      | (made, .ok _) =>
          let (made, result) :=
            attempt host made (.mount (mountArgs target data)) (mountContext target layers data)
          match attempt host made (.chdir "/") "chdir back to / after mounting the overlay" with
          | (made, .error error) => (made, .error error)
          | (made, .ok _) => (made, result)

/-! ## The deepest shared directory -/

/-- Every path has a parent, and `dir` leads to each of these parents. -/
def SharedBy (paths : List String) (dir : List Component) : Prop :=
  ∀ path ∈ paths, ∃ up, parent (components path) = some up ∧ dir <+: up

structure DeepestShared (paths : List String) (dir : List Component) : Prop where
  shared : SharedBy paths dir
  deepest : ∀ other, SharedBy paths other → other <+: dir

/-- One path after another, the shared part shrinks to what they all begin with. -/
theorem foldlM_shared {paths : List String} (h : ∀ path ∈ paths, (parent (components path)).isSome)
    (shared : List Component) :
    ∃ left, paths.foldlM keepShared shared = some left ∧
      ∀ front, front <+: left ↔ front <+: shared ∧ SharedBy paths front := by
  induction paths generalizing shared with
  | nil => exact ⟨shared, rfl, by simp [SharedBy]⟩
  | cons path rest ih =>
      obtain ⟨hpath, hrest⟩ := List.forall_mem_cons.mp h
      obtain ⟨up, hup⟩ := Option.isSome_iff_exists.mp hpath
      obtain ⟨left, hleft, hfronts⟩ := ih hrest (commonFront shared up)
      refine ⟨left, ?_, ?_⟩
      · rw [List.foldlM_cons, keepShared, hup]
        exact hleft
      · intro front
        rw [hfronts, prefix_commonFront_iff, SharedBy, SharedBy, List.forall_mem_cons, hup]
        simp [and_assoc]

theorem parent_leads {path up : List Component} (h : parent path = some up) : up <+: path := by
  unfold parent at h
  split at h
  next => cases h
  next => exact Option.some.inj h ▸ List.dropLast_prefix _

theorem root_leads_parent {path : String} (habs : isAbsolute path) {up : List Component}
    (h : parent (components path) = some up) : [.rootDir] <+: up := by
  unfold parent at h
  split at h
  next => cases h
  next hsome =>
    obtain rfl := Option.some.inj h
    rw [components_absolute habs] at hsome ⊢
    cases hrest : (pieces path).filterMap ofPiece with
    | nil => simp [hrest] at hsome
    | cons part others => simp

theorem commonParent_spec {layers : Layers} (hsome : layers.paths ≠ [])
    (habs : ∀ path ∈ layers.paths, isAbsolute path)
    (hparent : ∀ path ∈ layers.paths, (parent (components path)).isSome) :
    ∃ base, commonParent layers = some base ∧
      DeepestShared layers.paths (components base.text) := by
  cases hpaths : layers.paths with
  | nil => exact absurd hpaths hsome
  | cons first rest =>
      rw [hpaths] at habs hparent
      obtain ⟨hfirst, hothers⟩ := List.forall_mem_cons.mp hparent
      obtain ⟨up, hup⟩ := Option.isSome_iff_exists.mp hfirst
      obtain ⟨left, hleft, hfronts⟩ := foldlM_shared hothers up
      have hshared : ∀ front, front <+: left ↔ SharedBy (first :: rest) front := by
        intro front
        rw [hfronts, SharedBy, SharedBy, List.forall_mem_cons, hup]
        simp
      -- the root is shared, so what is left starts with it
      have hroot : [.rootDir] <+: left := by
        refine (hshared _).mpr ?_
        intro path hpath
        obtain ⟨dir, hdir⟩ := Option.isSome_iff_exists.mp (hparent path hpath)
        exact ⟨dir, hdir, root_leads_parent (habs path hpath) hdir⟩
      obtain ⟨parts, rfl⟩ := hroot
      have hfront : .rootDir :: parts <+: components first :=
        ((hfronts _).mp List.prefix_rfl).1.trans (parent_leads hup)
      have hbelow : ∀ part ∈ parts, part.Below := by
        obtain ⟨behind, hbehind⟩ := hfront
        intro part hpart
        exact below_of_components (habs first (List.mem_cons_self ..)) hbehind.symm part
          (List.mem_append_left _ hpart)
      refine ⟨⟨collect (.rootDir :: parts), isAbsolute_collect hbelow⟩, ?_, ?_, ?_⟩
      · simp [commonParent, hpaths, hup, hleft, isAbsolute_collect hbelow]
      · rw [components_collect hbelow, ← hshared]
        exact List.prefix_rfl
      · intro other hother
        rw [components_collect hbelow]
        exact (hshared other).mpr hother

theorem parent_isSome_of_foldlM {paths : List String} {shared left : List Component}
    (h : paths.foldlM keepShared shared = some left) :
    ∀ path ∈ paths, (parent (components path)).isSome := by
  induction paths generalizing shared with
  | nil => simp
  | cons path rest ih =>
      rw [List.foldlM_cons, Option.bind_eq_bind, Option.bind_eq_some_iff] at h
      obtain ⟨next, hnext, hrest⟩ := h
      obtain ⟨up, hup, -⟩ := Option.map_eq_some_iff.mp hnext
      exact List.forall_mem_cons.mpr ⟨by rw [hup]; rfl, ih hrest⟩

theorem absolute_of_root {path : String} {up : List Component}
    (hup : parent (components path) = some up) (hroot : [.rootDir] <+: up) : isAbsolute path := by
  obtain ⟨behind, hbehind⟩ := hroot.trans (parent_leads hup)
  exact isAbsolute_of_head (by rw [← hbehind]; rfl)

/-- Above some directory every path is absolute and has a parent. -/
theorem SharedBy.paths {paths : List String} {base : Absolute}
    (h : SharedBy paths (components base.text)) :
    ∀ path ∈ paths, isAbsolute path ∧ (parent (components path)).isSome := by
  intro path hpath
  obtain ⟨up, hup, hbase⟩ := h path hpath
  have hroot : [.rootDir] <+: components base.text := by
    simp [components_absolute base.absolute]
  exact ⟨absolute_of_root hup (hroot.trans hbase), by rw [hup]; rfl⟩

theorem found_under_root {layers : Layers} {base : Absolute} (h : commonParent layers = some base) :
    layers.paths ≠ [] ∧
      ∀ path ∈ layers.paths, isAbsolute path ∧ (parent (components path)).isSome := by
  unfold commonParent at h
  cases hpaths : layers.paths with
  | nil => simp [hpaths] at h
  | cons first rest =>
      rw [hpaths] at h
      simp only [Option.bind_eq_bind, Option.bind_eq_some_iff] at h
      obtain ⟨up, hup, left, hleft, hcollect⟩ := h
      have hothers := parent_isSome_of_foldlM hleft
      obtain ⟨_, hsame, hfronts⟩ := foldlM_shared hothers up
      obtain rfl := Option.some.inj (hleft.symm.trans hsame)
      obtain ⟨hfirst, hrest⟩ := (hfronts left).mp List.prefix_rfl
      split at hcollect
      next habs =>
        have hroot := root_of_collect (hfirst.trans (parent_leads hup)) habs
        refine ⟨List.cons_ne_nil _ _, List.forall_mem_cons.mpr ⟨?_, ?_⟩⟩
        · exact ⟨absolute_of_root hup (hroot.trans hfirst), by rw [hup]; rfl⟩
        · intro path hpath
          obtain ⟨dir, hdir, hleftdir⟩ := hrest path hpath
          exact ⟨absolute_of_root hdir (hroot.trans hleftdir), hothers path hpath⟩
      next => cases hcollect

/-- Whatever the layers are, a base that is found is the deepest shared directory. -/
theorem deepest_of_commonParent {layers : Layers} {base : Absolute}
    (h : commonParent layers = some base) : DeepestShared layers.paths (components base.text) := by
  obtain ⟨hsome, hall⟩ := found_under_root h
  obtain ⟨found, hfound, hdeepest⟩ := commonParent_spec hsome (fun path hpath => (hall path hpath).1)
    fun path hpath => (hall path hpath).2
  obtain rfl := Option.some.inj (h.symm.trans hfound)
  exact hdeepest

/-! ## Layers under a directory -/

def Layers.map (f : String → String) (layers : Layers) : Layers :=
  { lower := layers.lower.map f, upper := layers.upper.map f, work := layers.work.map f }

/-- Same order, same role, same entry. -/
structure SameLayers (a b : Layers) : Prop where
  lower : a.lower.map components = b.lower.map components
  upper : a.upper.map components = b.upper.map components
  work : a.work.map components = b.work.map components

@[simp] theorem paths_map (f : String → String) (layers : Layers) :
    (layers.map f).paths = layers.paths.map f := by
  cases hupper : layers.upper <;> cases hwork : layers.work <;>
    simp [Layers.paths, Layers.map, hupper, hwork]

theorem sameLayers_map {f : String → String} {layers : Layers}
    (h : ∀ path ∈ layers.paths, components (f path) = components path) :
    SameLayers (layers.map f) layers := by
  simp only [Layers.paths, List.forall_mem_append] at h
  obtain ⟨⟨hlower, hupper⟩, hwork⟩ := h
  constructor
  · simpa [Layers.map] using hlower
  · cases hdir : layers.upper with
    | none => simp [Layers.map, hdir]
    | some path => simpa [Layers.map, hdir] using hupper path (by simp [hdir])
  · cases hdir : layers.work with
    | none => simp [Layers.map, hdir]
    | some path => simpa [Layers.map, hdir] using hwork path (by simp [hdir])

def under (base : Absolute) (path : String) : String := (strip base path).getD ""

theorem mapM_strip {base : Absolute} {paths texts : List String} :
    paths.mapM (strip base) = some texts ↔
      (∀ path ∈ paths, (strip base path).isSome) ∧ texts = paths.map (under base) := by
  induction paths generalizing texts with
  | nil => simp
  | cons path rest ih =>
      rw [List.mapM_cons, List.forall_mem_cons, List.map_cons, under]
      cases hpath : strip base path with
      | none => simp
      | some text =>
          simp only [Option.bind_eq_bind, Option.bind_some, Option.bind_eq_some_iff, ih,
            Option.isSome_some, true_and, Option.getD_some, Option.pure_def, Option.some.injEq]
          constructor
          · rintro ⟨_, ⟨hrest, rfl⟩, rfl⟩
            exact ⟨hrest, rfl⟩
          · rintro ⟨hrest, rfl⟩
            exact ⟨_, ⟨hrest, rfl⟩, rfl⟩

theorem option_mapM_strip {base : Absolute} {dir text : Option String} :
    dir.mapM (strip base) = some text ↔
      (∀ path ∈ dir.toList, (strip base path).isSome) ∧ text = dir.map (under base) := by
  cases dir with
  | none => simpa using eq_comm
  | some path =>
      rw [Option.map_some, under]
      cases hpath : strip base path with
      | none => simp [hpath]
      | some text => simpa [hpath] using eq_comm

theorem relativeTo_eq_some {layers relative : Layers} {base : Absolute} :
    relativeTo layers base = some relative ↔
      (∀ path ∈ layers.paths, (strip base path).isSome) ∧ relative = layers.map (under base) := by
  simp only [relativeTo, Option.bind_eq_bind, Option.bind_eq_some_iff, mapM_strip,
    option_mapM_strip, Layers.paths, List.forall_mem_append, Option.pure_def, Option.some.injEq]
  constructor
  · rintro ⟨_, ⟨hlower, rfl⟩, _, ⟨hupper, rfl⟩, _, ⟨hwork, rfl⟩, rfl⟩
    exact ⟨⟨⟨hlower, hupper⟩, hwork⟩, rfl⟩
  · rintro ⟨⟨⟨hlower, hupper⟩, hwork⟩, rfl⟩
    exact ⟨_, ⟨hlower, rfl⟩, _, ⟨hupper, rfl⟩, _, ⟨hwork, rfl⟩, rfl⟩

/-! ## One layer -/

theorem strip_eq_some {base : Absolute} {path rest : String} :
    strip base path = some rest ↔ stripPrefix path base = some rest ∧ rest ≠ "" := by
  simp [strip, Option.filter_eq_some_iff]

theorem stripPrefix_under {base : Absolute} {path : String} (h : (strip base path).isSome) :
    stripPrefix path base = some (under base path) ∧ under base path ≠ "" := by
  obtain ⟨rest, hrest⟩ := Option.isSome_iff_exists.mp h
  rw [under, hrest]
  exact strip_eq_some.mp hrest

theorem components_join_under {base : Absolute} {path : String} (h : (strip base path).isSome) :
    components (join base.text (under base path)) = components path :=
  components_join_stripPrefix (stripPrefix_under h).1

theorem escapedBytes_under {base : Absolute} {path : String} (h : (strip base path).isSome) :
    escapedBytes (under base path) < escapedBytes path := by
  obtain ⟨before, after, hbefore, hpath⟩ := stripPrefix_run (stripPrefix_under h).1
  have hbytes := congrArg escapedBytes hpath
  rw [escapedBytes_append, escapedBytes_append] at hbytes
  have hpos := escapedBytes_pos hbefore
  omega

/-- Below a directory that its parent is in, a layer always has a name. -/
theorem strip_isSome {base : Absolute} {path : String} {up : List Component}
    (hup : parent (components path) = some up) (hbase : components base.text <+: up) :
    (strip base path).isSome := by
  unfold parent at hup
  split at hup
  next => cases hup
  next hsome =>
    obtain rfl := Option.some.inj hup
    push Not at hsome
    have hlength := List.length_pos_iff.mpr hsome.1
    have hshort := hbase.length_le
    rw [List.length_dropLast] at hshort
    obtain ⟨rest, hrest⟩ := stripPrefix_isSome (hbase.trans (List.dropLast_prefix _))
    have hbelow : components base.text ≠ components path := by
      intro hsame
      rw [hsame] at hshort
      omega
    rw [strip_eq_some.mpr ⟨hrest, stripPrefix_ne_empty hrest hbelow⟩]
    rfl

/-! ## Shorter -/

/-- Every lower layer gives up a byte. -/
theorem sum_escapedBytes_map {f : String → String} {paths : List String}
    (h : ∀ path ∈ paths, escapedBytes (f path) < escapedBytes path) :
    ((paths.map f).map escapedBytes).sum + paths.length ≤ (paths.map escapedBytes).sum := by
  induction paths with
  | nil => simp
  | cons path rest ih =>
      obtain ⟨hpath, hrest⟩ := List.forall_mem_cons.mp h
      have hsum := ih hrest
      simp only [List.map_cons, List.sum_cons, List.length_cons]
      omega

theorem getD_escapedBytes_map (field : Nat) {f : String → String} {dir : Option String}
    (h : ∀ path ∈ dir.toList, escapedBytes (f path) < escapedBytes path) :
    (((dir.map f).map fun path => field + escapedBytes path).getD 0) + dir.toList.length ≤
      (dir.map fun path => field + escapedBytes path).getD 0 := by
  cases dir with
  | none => simp
  | some path =>
      have hpath := h path (by simp)
      simp only [Option.map_some, Option.getD_some, Option.toList_some, List.length_singleton]
      omega

theorem optionBytes_map_lt {f : String → String} {layers : Layers} (hsome : layers.paths ≠ [])
    (h : ∀ path ∈ layers.paths, escapedBytes (f path) < escapedBytes path) :
    optionBytes (layers.map f) < optionBytes layers := by
  simp only [Layers.paths, List.forall_mem_append] at h
  obtain ⟨⟨hlower, hupper⟩, hwork⟩ := h
  have hlowers := sum_escapedBytes_map hlower
  have huppers := getD_escapedBytes_map 10 hupper
  have hworks := getD_escapedBytes_map 9 hwork
  have hcount := List.length_pos_iff.mpr hsome
  rw [Layers.paths, List.length_append, List.length_append] at hcount
  simp only [optionBytes, Layers.map, List.length_map]
  omega

/-! ## What is handed over -/

/-- The two forms the option string can have. -/
theorem dataAndBase_eq_ok {layers : Layers} {data : String} {base : Option Absolute}
    (h : dataAndBase layers = .ok (data, base)) :
    (options layers = .ok data ∧ data.utf8ByteSize ≤ MAX_OPTION_BYTES ∧ base = none) ∨
      ∃ dir relative, commonParent layers = some dir ∧ relativeTo layers dir = some relative ∧
        options relative = .ok data ∧ data.utf8ByteSize ≤ MAX_OPTION_BYTES ∧
        MAX_OPTION_BYTES < optionBytes layers ∧ base = some dir := by
  obtain ⟨absolute, habsolute, hform⟩ := bind_eq_ok.mp h
  split at hform
  next hfits =>
    obtain ⟨rfl, rfl⟩ := Prod.mk.inj (pure_eq_ok.mp hform)
    exact .inl ⟨habsolute, hfits, rfl⟩
  next hlong =>
    obtain ⟨dir, hdir, hform⟩ := bind_eq_ok.mp hform
    obtain ⟨relative, hrelative, hform⟩ := bind_eq_ok.mp hform
    obtain ⟨shortened, hshortened, hform⟩ := bind_eq_ok.mp hform
    split at hform
    next => cases hform
    next hfits =>
      obtain ⟨rfl, rfl⟩ := Prod.mk.inj (pure_eq_ok.mp hform)
      rw [options_bytes habsolute] at hlong
      exact .inr ⟨dir, relative, called_eq_ok.mp hdir, called_eq_ok.mp hrelative, hshortened,
        by omega, by omega, rfl⟩

theorem options_of_dataAndBase {layers : Layers} {form : String × Option Absolute}
    (h : dataAndBase layers = .ok form) : ∃ absolute, options layers = .ok absolute := by
  obtain ⟨absolute, habsolute, -⟩ := bind_eq_ok.mp h
  exact ⟨absolute, habsolute⟩

theorem attempt_clean {call : Call} (h : ∀ text ∈ call.texts, '\x00' ∉ text.toList) (host : Host)
    (made : List (Call × Bool)) (context : String) :
    attempt host made call context = (made ++ [(call, host made call)],
      if host made call then .ok () else .error (.nix context)) := by
  unfold attempt
  rw [if_neg (by simpa using h)]

/-- What one attempt adds to the calls. -/
theorem attempt_cases (host : Host) (made : List (Call × Bool)) (call : Call) (context : String) :
    attempt host made call context = (made, .error (.nix context)) ∨
      ((∀ text ∈ call.texts, '\x00' ∉ text.toList) ∧
        attempt host made call context = (made ++ [(call, host made call)],
          if host made call then .ok () else .error (.nix context))) := by
  by_cases hnul : ∃ text ∈ call.texts, '\x00' ∈ text.toList
  · exact .inl (if_pos hnul)
  · push Not at hnul
    exact .inr ⟨hnul, attempt_clean hnul host made context⟩

/-- The directory the calls made so far have led into. -/
def workingDir (cwd : String) (made : List (Call × Bool)) : String :=
  made.foldl (fun dir call => match call with
    | (.chdir path, true) => join dir path
    | _ => dir) cwd

/-- What is known of a mount that reached the kernel, and of the calls before it. -/
structure Handed (target : String) (layers : Layers) (before : List (Call × Bool))
    (args : MountArgs) (base : Option Absolute) : Prop where
  form : dataAndBase layers = .ok (args.data, base)
  calls : before = (base.map fun dir => (Call.chdir dir.text, true)).toList
  filled : args = mountArgs target args.data
  clean : '\x00' ∉ args.data.toList
  cleanBase : ∀ dir ∈ base, '\x00' ∉ dir.text.toList

/-- Where the only mount of a run stands that changed its directory first. -/
theorem mount_after_chdir {dir : String} {given args : MountArgs} {answer ok : Bool}
    {before after tail : List (Call × Bool)} (htail : ∀ call ∈ tail, call.1 = .chdir "/")
    (h : (.chdir dir, true) :: (.mount given, answer) :: tail =
      before ++ (.mount args, ok) :: after) :
    before = [(.chdir dir, true)] ∧ args = given := by
  cases before with
  | nil => simp at h
  | cons first rest =>
      rw [List.cons_append, List.cons.injEq] at h
      obtain ⟨rfl, h⟩ := h
      cases rest with
      | nil =>
          rw [List.nil_append, List.cons.injEq] at h
          obtain ⟨hsame, -⟩ := h
          exact ⟨rfl, by injection hsame with hcall; injection hcall with hargs; exact hargs.symm⟩
      | cons second rest =>
          rw [List.cons_append, List.cons.injEq] at h
          have hmem : (Call.mount args, ok) ∈ tail := by simp [h.2]
          exact absurd (htail _ hmem) (by simp)

/-- Once in the directory, the mount is tried and the way back is taken whatever comes of it. -/
theorem mountAt_relative {host : Host} {target data : String} {layers : Layers} {base : Absolute}
    (hform : dataAndBase layers = .ok (data, some base)) (hbase : '\x00' ∉ base.text.toList)
    (hdone : host [] (.chdir base.text) = true) {made : List (Call × Bool)}
    {result : Except Error Unit}
    (htried : attempt host [(.chdir base.text, true)] (.mount (mountArgs target data))
      (mountContext target layers data) = (made, result)) :
    mountAt host target layers = (made ++ [(.chdir "/", host made (.chdir "/"))],
      if host made (.chdir "/") then result
      else .error (.nix "chdir back to / after mounting the overlay")) := by
  have hchdir := @attempt_clean (.chdir base.text) (by simpa [Call.texts] using hbase) host []
    ("chdir to overlay base " ++ base.text)
  rw [hdone, if_pos rfl, List.nil_append] at hchdir
  have hback := @attempt_clean (.chdir "/") (by decide) host made
    "chdir back to / after mounting the overlay"
  simp only [mountAt, hform, hchdir, htried, hback]
  cases host made (.chdir "/") <;> rfl

theorem handed_plain {host : Host} {target data : String} {layers : Layers}
    {before after : List (Call × Bool)} {args : MountArgs} {ok : Bool}
    (hform : dataAndBase layers = .ok (data, none))
    (h : (mountAt host target layers).1 = before ++ (.mount args, ok) :: after) :
    Handed target layers before args none := by
  simp only [mountAt, hform] at h
  rcases attempt_cases host [] (.mount (mountArgs target data)) (mountContext target layers data)
    with hcall | ⟨hclean, hcall⟩
  · simp [hcall] at h
  · rw [hcall] at h
    cases before with
    | nil =>
        simp only [List.nil_append, List.cons.injEq, Prod.mk.injEq, Call.mount.injEq] at h
        obtain ⟨⟨rfl, -⟩, -⟩ := h
        exact ⟨hform, rfl, rfl, hclean data (by simp [Call.texts, mountArgs]), by simp⟩
    | cons first rest => simp at h

theorem handed_relative {host : Host} {target data : String} {layers : Layers} {base : Absolute}
    {before after : List (Call × Bool)} {args : MountArgs} {ok : Bool}
    (hform : dataAndBase layers = .ok (data, some base))
    (h : (mountAt host target layers).1 = before ++ (.mount args, ok) :: after) :
    Handed target layers before args (some base) := by
  have hmem : (Call.mount args, ok) ∈ (mountAt host target layers).1 := by simp [h]
  rcases attempt_cases host [] (.chdir base.text) ("chdir to overlay base " ++ base.text)
    with hchdir | ⟨hbase, hchdir⟩
  · simp [mountAt, hform, hchdir] at hmem
  cases hdone : host [] (.chdir base.text) with
  | false => simp [mountAt, hform, hchdir, hdone] at hmem
  | true =>
      have hclean : '\x00' ∉ base.text.toList := by simpa [Call.texts] using hbase
      rcases attempt_cases host [(.chdir base.text, true)] (.mount (mountArgs target data))
        (mountContext target layers data) with hcall | ⟨hdata, hcall⟩
      · simp [mountAt_relative hform hclean hdone hcall] at hmem
      · rw [mountAt_relative hform hclean hdone hcall] at h
        obtain ⟨rfl, rfl⟩ := mount_after_chdir (by simp) h
        exact ⟨hform, rfl, rfl, hdata data (by simp [Call.texts, mountArgs]), by simpa using hclean⟩

theorem mountAt_handed {host : Host} {target : String} {layers : Layers}
    {before after : List (Call × Bool)} {args : MountArgs} {ok : Bool}
    (h : (mountAt host target layers).1 = before ++ (.mount args, ok) :: after) :
    ∃ base, Handed target layers before args base := by
  cases hform : dataAndBase layers with
  | error e => simp [mountAt, hform] at h
  | ok form =>
      obtain ⟨data, base⟩ := form
      cases base with
      | none => exact ⟨none, handed_plain hform h⟩
      | some base => exact ⟨some base, handed_relative hform h⟩

/-! ## The same layers -/

theorem join_absolute (cwd : String) {path : String} (h : isAbsolute path) : join cwd path = path :=
  if_pos h

theorem ne_empty_of_absolute {path : String} (h : isAbsolute path) : path ≠ "" := by
  rintro rfl
  exact absurd h (by decide)

theorem map_map (f g : String → String) (layers : Layers) :
    (layers.map f).map g = layers.map (g ∘ f) := by
  simp [Layers.map]

/-- Below the deepest shared directory every layer has a name. -/
theorem relativeTo_shared {layers : Layers} {base : Absolute}
    (h : SharedBy layers.paths (components base.text)) :
    relativeTo layers base = some (layers.map (under base)) := by
  refine relativeTo_eq_some.mpr ⟨?_, rfl⟩
  intro path hpath
  obtain ⟨up, hup, hbase⟩ := h path hpath
  exact strip_isSome hup hbase

theorem handed_denotes {target : String} {layers : Layers} {before : List (Call × Bool)}
    {args : MountArgs} {base : Option Absolute} (habs : ∀ path ∈ layers.paths, isAbsolute path)
    (h : Handed target layers before args base) (cwd : String) :
    ∃ read, Reads args.data read ∧ SameLayers (read.map (join (workingDir cwd before))) layers := by
  rcases dataAndBase_eq_ok h.form with ⟨hdata, -, -⟩ |
    ⟨dir, relative, -, hrelative, hdata, -, -, hbase⟩
  · have hnonempty : ∀ path ∈ layers.paths, path ≠ "" :=
      fun path hpath => ne_empty_of_absolute (habs path hpath)
    obtain ⟨hcomma, hencoded⟩ := options_eq_ok.mp hdata
    refine ⟨layers, hencoded ▸ reads_encoded hnonempty hcomma, sameLayers_map ?_⟩
    intro path hpath
    rw [join_absolute _ (habs path hpath)]
  · obtain ⟨hstrip, rfl⟩ := relativeTo_eq_some.mp hrelative
    have hnonempty : ∀ rest ∈ (layers.map (under dir)).paths, rest ≠ "" := by
      rw [paths_map]
      intro rest hrest
      obtain ⟨path, hpath, rfl⟩ := List.mem_map.mp hrest
      exact (stripPrefix_under (hstrip path hpath)).2
    obtain ⟨hcomma, hencoded⟩ := options_eq_ok.mp hdata
    have hdir : workingDir cwd before = dir.text := by
      rw [h.calls, hbase]
      exact join_absolute cwd dir.absolute
    refine ⟨_, hencoded ▸ reads_encoded hnonempty hcomma, ?_⟩
    rw [hdir, map_map]
    exact sameLayers_map fun path hpath => components_join_under (hstrip path hpath)

/-- Shortened or not, the mount names the layers it was asked for: the base is the
deepest directory above all of them, every layer has a name under it that leads
back to the layer, the names take fewer bytes, and the kernel reads the layers
from the directory the process is in. What a bundle annotates has such layers, and
at least one of them (`fromAnnotations_layers`). -/
theorem same_layers_mounted (layers : Layers) (habs : ∀ path ∈ layers.paths, isAbsolute path)
    (hcomma : ∀ path ∈ layers.paths, ',' ∉ path.toList)
    (hparent : ∀ path ∈ layers.paths, (parent (components path)).isSome) :
    (layers.paths ≠ [] → ∃ base relative long short,
      commonParent layers = some base ∧
      DeepestShared layers.paths (components base.text) ∧
      relativeTo layers base = some relative ∧
      SameLayers (relative.map (join base.text)) layers ∧
      options layers = .ok long ∧ options relative = .ok short ∧
      short.utf8ByteSize < long.utf8ByteSize) ∧
    ∀ host target cwd before args ok after,
      (mountAt host target layers).1 = before ++ (.mount args, ok) :: after →
      ∃ read, Reads args.data read ∧
        SameLayers (read.map (join (workingDir cwd before))) layers := by
  constructor
  · intro hsome
    obtain ⟨base, hbase, hdeepest⟩ := commonParent_spec hsome habs hparent
    have hrelative := relativeTo_shared hdeepest.shared
    obtain ⟨hstrip, -⟩ := relativeTo_eq_some.mp hrelative
    have hcommas : ∀ path ∈ (layers.map (under base)).paths, ',' ∉ path.toList := by
      rw [paths_map]
      intro rest hrest hmem
      obtain ⟨path, hpath, rfl⟩ := List.mem_map.mp hrest
      have hparts := stripPrefix_mem (stripPrefix_under (hstrip path hpath)).1
        (show ',' ≠ '/' by decide) (show ',' ≠ '.' by decide)
      exact hcomma path hpath (hparts.mpr (.inr hmem))
    have hlong := options_eq_ok.mpr ⟨hcomma, rfl⟩
    have hshort := options_eq_ok.mpr ⟨hcommas, rfl⟩
    refine ⟨base, _, _, _, hbase, hdeepest, hrelative, ?_, hlong, hshort, ?_⟩
    · rw [map_map]
      exact sameLayers_map fun path hpath => components_join_under (hstrip path hpath)
    · rw [options_bytes hlong, options_bytes hshort]
      exact optionBytes_map_lt hsome fun path hpath => escapedBytes_under (hstrip path hpath)
  · intro host target cwd before args ok after hcalls
    obtain ⟨base, hhanded⟩ := mountAt_handed hcalls
    exact handed_denotes habs hhanded cwd

theorem same_layers_mounted_nested :
    ∃ base relative long short,
      commonParent ⟨["/a//b/./c", "/a/b/c"], some "/a/x:y", some "/a/../d/"⟩ = some base ∧
      DeepestShared ["/a//b/./c", "/a/b/c", "/a/x:y", "/a/../d/"] (components base.text) ∧
      relativeTo ⟨["/a//b/./c", "/a/b/c"], some "/a/x:y", some "/a/../d/"⟩ base = some relative ∧
      SameLayers (relative.map (join base.text))
        ⟨["/a//b/./c", "/a/b/c"], some "/a/x:y", some "/a/../d/"⟩ ∧
      options ⟨["/a//b/./c", "/a/b/c"], some "/a/x:y", some "/a/../d/"⟩ = .ok long ∧
      options relative = .ok short ∧ short.utf8ByteSize < long.utf8ByteSize :=
  (same_layers_mounted _ (by decide +kernel) (by decide +kernel) (by decide +kernel)).1
    (by decide +kernel)

end Mars.Overlay
