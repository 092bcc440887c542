import Mars.Core.Flags
import Mars.Core.UnixPath

/-! # Mount tables

The mounts a process sees, newest first, and the call that changes them. A
mount laid over a place hides whatever was mounted further below it. Places are
the names on the way from the root of the file hierarchy. The call is told where
its paths lead, through whatever symbolic links.
-/

namespace MountTable
open UnixPath

abbrev MsFlags := BitVec 64

def MS_RDONLY : MsFlags := .twoPow 64 0
def MS_NOSUID : MsFlags := .twoPow 64 1
def MS_NODEV : MsFlags := .twoPow 64 2
def MS_NOEXEC : MsFlags := .twoPow 64 3
def MS_SYNCHRONOUS : MsFlags := .twoPow 64 4
def MS_REMOUNT : MsFlags := .twoPow 64 5
def MS_MANDLOCK : MsFlags := .twoPow 64 6
def MS_DIRSYNC : MsFlags := .twoPow 64 7
def MS_NOATIME : MsFlags := .twoPow 64 10
def MS_NODIRATIME : MsFlags := .twoPow 64 11
def MS_BIND : MsFlags := .twoPow 64 12
def MS_REC : MsFlags := .twoPow 64 14
def MS_UNBINDABLE : MsFlags := .twoPow 64 17
def MS_PRIVATE : MsFlags := .twoPow 64 18
def MS_SLAVE : MsFlags := .twoPow 64 19
def MS_SHARED : MsFlags := .twoPow 64 20
def MS_RELATIME : MsFlags := .twoPow 64 21
def MS_STRICTATIME : MsFlags := .twoPow 64 24

def contains (flags flag : MsFlags) : Bool := flags &&& flag == flag

/-- The flags a mount itself keeps. -/
def PER_MOUNT : MsFlags :=
  MS_RDONLY ||| MS_NOSUID ||| MS_NODEV ||| MS_NOEXEC ||| MS_NOATIME ||| MS_NODIRATIME |||
    MS_RELATIME ||| MS_STRICTATIME

def PROPAGATION : List MsFlags := [MS_SHARED, MS_PRIVATE, MS_SLAVE, MS_UNBINDABLE]

structure Mnt where
  place : List Name
  flags : MsFlags
  deriving DecidableEq

structure Kernel where
  root : List Name
  cwd : List Name
  table : List Mnt
  deriving DecidableEq

/-! ## Finding a place -/

/-- The way up ends at the root. -/
def walk (root start : List Name) (path : List Component) : List Name :=
  path.foldl
    (fun out part =>
      match part with
      | .rootDir => root
      | .curDir => out
      | .parentDir => if out = root then out else out.dropLast
      | .normal name => out ++ [name])
    start

/-- Where a path leads if no symbolic link is on the way. -/
def Kernel.locate (k : Kernel) (path : List Component) : List Name := walk k.root k.cwd path

/-- The mount a place lies on. -/
def visible (table : List Mnt) (place : List Name) : Option Mnt :=
  table.find? fun m => m.place <+: place

/-! ## The call -/

structure Call where
  source : Option String
  target : List Component
  fstype : Option String
  flags : MsFlags
  data : Option String
  deriving DecidableEq

/-- Only a mount point can be given new flags. -/
def setFlags (place : List Name) (flags : MsFlags) : List Mnt → Option (List Mnt)
  | [] => none
  | m :: rest =>
      if m.place <+: place then
        if m.place = place then some ({ m with flags := flags } :: rest) else none
      else (setFlags place flags rest).map (m :: ·)

def hide (place : List Name) (table : List Mnt) : List Mnt :=
  table.filter fun m => ¬ (place <+: m.place ∧ m.place ≠ place)

/-- The mounts below `source`, laid out below `place`. -/
def clones (table : List Mnt) (source place : List Name) : List Mnt :=
  (table.filter fun m => source <+: m.place ∧ m.place ≠ source).map fun m =>
    { m with place := place ++ m.place.drop source.length }

def bind (table : List Mnt) (source place : List Name) (recursive : Bool) : Option (List Mnt) :=
  (visible table source).map fun m =>
    (if recursive then clones table source place else []) ++
      { place := place, flags := m.flags } :: hide place table

/-- A change of the propagation type takes one type and no flag but `MS_REC`. -/
def changeType (table : List Mnt) (place : List Name) (flags : MsFlags) : Option (List Mnt) :=
  if (flags ∈ PROPAGATION ∨ flags ∈ PROPAGATION.map (· ||| MS_REC)) ∧
      (visible table place).any (·.place = place) then some table
  else none

def mount (leads : List Component → List Name) (k : Kernel) (call : Call) : Option Kernel :=
  let place := leads call.target
  let table :=
    if contains call.flags MS_REMOUNT then setFlags place (call.flags &&& PER_MOUNT) k.table
    else if contains call.flags MS_BIND then
      call.source.bind fun source =>
        bind k.table (leads (components source)) place (contains call.flags MS_REC)
    else if PROPAGATION.any (contains call.flags) then changeType k.table place call.flags
    else some ({ place := place, flags := call.flags &&& PER_MOUNT } :: hide place k.table)
  table.map fun table => { k with table := table }

/-- The root moves to a place below the old one. -/
def Kernel.pivot (k : Kernel) (path : List Component) : Kernel :=
  { k with root := k.locate path, cwd := k.locate path }

/-! ## Flags -/

theorem contains_twoPow {flags : MsFlags} {bit : Nat} (h : bit < 64) :
    contains flags (.twoPow 64 bit) = flags.getLsbD bit :=
  Flags.and_twoPow_beq flags h

theorem contains_perMount (flags : MsFlags) :
    contains (flags &&& PER_MOUNT) MS_RDONLY = contains flags MS_RDONLY := by
  have hbit : PER_MOUNT.getLsbD 0 = true := by decide
  unfold MS_RDONLY
  rw [contains_twoPow (by decide), contains_twoPow (by decide), BitVec.getLsbD_and, hbit,
    Bool.and_true]

/-- A read-only request is never a change of the propagation type. -/
theorem changeType_readonly {table : List Mnt} {place : List Name} {flags : MsFlags}
    (h : contains flags MS_RDONLY = true) : changeType table place flags = none := by
  have hclean : ∀ flag, flag ∈ PROPAGATION ∨ flag ∈ PROPAGATION.map (· ||| MS_REC) →
      flag.getLsbD 0 = false := by
    intro flag hflag
    simp only [PROPAGATION, List.map_cons, List.map_nil, List.mem_cons, List.not_mem_nil,
      or_false] at hflag
    rcases hflag with (rfl | rfl | rfl | rfl) | (rfl | rfl | rfl | rfl) <;> rfl
  have hbit : flags.getLsbD 0 = true := by
    rw [← contains_twoPow (by decide)]
    exact h
  unfold changeType
  rw [if_neg]
  intro hboth
  rw [hclean flags hboth.1] at hbit
  cases hbit

/-! ## Ways -/

theorem walk_append (root start : List Name) (a b : List Component) :
    walk root start (a ++ b) = walk root (walk root start a) b := List.foldl_append

theorem walk_ofRelative (root start : List Name) (segs : List String) :
    walk root start (ofRelative segs) = walk root start (segs.filterMap ofSegment) := by
  cases segs with
  | nil => rfl
  | cons s rest =>
      by_cases hs : s = "."
      · subst hs
        rfl
      · rw [ofRelative_of_head (by simpa using hs)]

theorem walk_components (root start : List Name) (path : String) :
    walk root start (components path) =
      walk root (if isAbsolute path then root else start) ((segments path).filterMap ofSegment) := by
  unfold components
  split
  next => rfl
  next => exact walk_ofRelative root start (segments path)

/-- Pushing a path goes on from where the base leads. -/
theorem walk_join (root start : List Name) (base path : String) :
    walk root start (components (join base path)) =
      walk root (walk root start (components base)) (components path) := by
  by_cases habs : isAbsolute path = true
  · rw [walk_components _ _ path, if_pos habs, join, if_pos habs, walk_components, if_pos habs]
  · have hrel : isAbsolute path = false := by simpa using habs
    rw [walk_components, isAbsolute_join hrel, segments_join hrel, List.filterMap_append,
      walk_append, walk_components _ _ path, if_neg habs, ← walk_components]

theorem walk_names (root start names : List Name) :
    walk root start (names.map .normal) = start ++ names := by
  induction names generalizing start with
  | nil => simp [walk]
  | cons name rest ih =>
      have hstep : walk root start ((name :: rest).map .normal) =
          walk root (start ++ [name]) (rest.map .normal) := rfl
      rw [hstep, ih]
      simp

/-- From any root a path leads as far below it as from the top. -/
theorem walk_root (root : List Name) (path : List Component) :
    walk root root path = root ++ walk [] [] path := by
  have hshift : ∀ (path : List Component) (names : List Name),
      walk root (root ++ names) path = root ++ walk [] names path := by
    intro path
    induction path with
    | nil => intro names; rfl
    | cons part rest ih =>
        intro names
        cases part with
        | rootDir =>
            have := ih []
            rw [List.append_nil] at this
            exact this
        | curDir => exact ih names
        | normal name =>
            have := ih (names ++ [name])
            rw [← List.append_assoc] at this
            exact this
        | parentDir =>
            by_cases hnil : names = []
            · subst hnil
              have := ih []
              simpa [walk] using this
            · have hne : root ++ names ≠ root := by simpa using hnil
              have hdrop : (root ++ names).dropLast = root ++ names.dropLast :=
                List.dropLast_append_of_ne_nil hnil
              have := ih names.dropLast
              simpa [walk, hne, hnil, hdrop] using this
  have := hshift path []
  rwa [List.append_nil] at this

/-! ## What a call does to a place -/

theorem visible_cons (m : Mnt) (table : List Mnt) (place : List Name) :
    visible (m :: table) place = if m.place <+: place then some m else visible table place := by
  by_cases h : m.place <+: place
  · simp [visible, h]
  · simp [visible, h]

/-- Hiding what lies below `place` changes nothing for a place outside it. -/
theorem visible_hide {place other : List Name} (table : List Mnt) (h : ¬ place <+: other) :
    visible (hide place table) other = visible table other := by
  induction table with
  | nil => rfl
  | cons m rest ih =>
      by_cases hhidden : place <+: m.place ∧ m.place ≠ place
      · have hout : ¬ m.place <+: other := fun hm => h (hhidden.1.trans hm)
        have hdrop : hide place (m :: rest) = hide place rest :=
          List.filter_cons_of_neg (by simpa using hhidden)
        rw [hdrop, ih, visible_cons, if_neg hout]
      · have hkeep : hide place (m :: rest) = m :: hide place rest :=
          List.filter_cons_of_pos (decide_eq_true hhidden)
        rw [hkeep, visible_cons, visible_cons, ih]

/-- Mounts of which none holds `place` do not count there. -/
theorem visible_append {front : List Mnt} (table : List Mnt) {place : List Name}
    (h : ∀ m ∈ front, ¬ m.place <+: place) :
    visible (front ++ table) place = visible table place := by
  induction front with
  | nil => rfl
  | cons m rest ih =>
      rw [List.cons_append, visible_cons, if_neg (h m (by simp))]
      exact ih fun m hm => h m (by simp [hm])

/-- A clone lies strictly below the place of the bind. -/
theorem clones_below {table : List Mnt} {source place : List Name} {m : Mnt}
    (h : m ∈ clones table source place) : place <+: m.place ∧ m.place ≠ place := by
  obtain ⟨m', hm', rfl⟩ := List.mem_map.mp h
  have hm' := (List.mem_filter.mp hm').2
  simp only [decide_eq_true_eq] at hm'
  obtain ⟨⟨rest, hrest⟩, hne⟩ := hm'
  refine ⟨List.prefix_append _ _, ?_⟩
  intro heq
  have hnil : m'.place.drop source.length = [] := by simpa using heq
  rw [← hrest, List.drop_left] at hnil
  rw [hnil, List.append_nil] at hrest
  exact hne hrest.symm

theorem visible_setFlags_self {place : List Name} {flags : MsFlags} {table table' : List Mnt}
    (h : setFlags place flags table = some table') :
    visible table' place = some { place := place, flags := flags } := by
  induction table generalizing table' with
  | nil => cases h
  | cons m rest ih =>
      unfold setFlags at h
      by_cases hpre : m.place <+: place
      · rw [if_pos hpre] at h
        by_cases heq : m.place = place
        · rw [if_pos heq] at h
          rw [← Option.some.inj h, visible_cons, if_pos hpre, heq]
        · rw [if_neg heq] at h
          cases h
      · rw [if_neg hpre] at h
        obtain ⟨rest', hrest, rfl⟩ := Option.map_eq_some_iff.mp h
        rw [visible_cons, if_neg hpre]
        exact ih hrest

theorem visible_setFlags_other {place other : List Name} {flags : MsFlags}
    {table table' : List Mnt} {m : Mnt} (h : setFlags place flags table = some table')
    (hm : visible table other = some m) (hne : m.place ≠ place) :
    visible table' other = some m := by
  induction table generalizing table' with
  | nil => cases h
  | cons first rest ih =>
      unfold setFlags at h
      rw [visible_cons] at hm
      by_cases hpre : first.place <+: place
      · rw [if_pos hpre] at h
        by_cases heq : first.place = place
        · rw [if_pos heq] at h
          rw [← Option.some.inj h, visible_cons]
          by_cases hother : first.place <+: other
          · rw [if_pos hother] at hm
            exact absurd heq (Option.some.inj hm ▸ hne)
          · rw [if_neg hother] at hm
            rw [if_neg hother]
            exact hm
        · rw [if_neg heq] at h
          cases h
      · rw [if_neg hpre] at h
        obtain ⟨rest', hrest, rfl⟩ := Option.map_eq_some_iff.mp h
        rw [visible_cons]
        by_cases hother : first.place <+: other
        · rw [if_pos hother] at hm
          rw [if_pos hother]
          exact hm
        · rw [if_neg hother] at hm
          rw [if_neg hother]
          exact ih hrest hm

theorem visible_bind_self {table table' : List Mnt} {source place : List Name}
    {recursive : Bool} (h : bind table source place recursive = some table') :
    ∃ m, visible table source = some m ∧
      visible table' place = some { place := place, flags := m.flags } := by
  obtain ⟨m, hm, rfl⟩ := Option.map_eq_some_iff.mp h
  refine ⟨m, hm, ?_⟩
  rw [visible_append, visible_cons, if_pos (List.prefix_refl _)]
  intro clone hclone hpre
  cases recursive with
  | false => cases hclone
  | true =>
      obtain ⟨hbelow, hne⟩ := clones_below hclone
      exact hne (hpre.eq_of_length_le hbelow.length_le)

theorem visible_bind_other {table table' : List Mnt} {source place other : List Name}
    {recursive : Bool} (h : bind table source place recursive = some table')
    (hout : ¬ place <+: other) : visible table' other = visible table other := by
  obtain ⟨m, hm, rfl⟩ := Option.map_eq_some_iff.mp h
  rw [visible_append, visible_cons, if_neg hout, visible_hide table hout]
  intro clone hclone hpre
  cases recursive with
  | false => cases hclone
  | true => exact hout ((clones_below hclone).1.trans hpre)

/-! ## What the call does to a place -/

/-- The call, whose target leads to `target`, puts a mount at the place or above it. -/
def Call.Covers (call : Call) (target place : List Name) : Prop :=
  if contains call.flags MS_REMOUNT then False
  else if contains call.flags MS_BIND then target <+: place
  else if PROPAGATION.any (contains call.flags) then False
  else target <+: place

/-- The call gives the mount at the place new flags. -/
def Call.Remounts (call : Call) (target place : List Name) : Prop :=
  contains call.flags MS_REMOUNT = true ∧ target = place

instance (call : Call) (target place : List Name) : Decidable (call.Remounts target place) :=
  inferInstanceAs (Decidable (_ ∧ _))

/-- The mount a place lies on is read-only. -/
def Kernel.ReadonlySource (k : Kernel) (source : List Name) : Prop :=
  ∃ m, visible k.table source = some m ∧ contains m.flags MS_RDONLY = true

variable {k k' : Kernel} {call : Call} {leads : List Component → List Name}

theorem mount_context (h : mount leads k call = some k') : k'.root = k.root ∧ k'.cwd = k.cwd := by
  obtain ⟨table, -, rfl⟩ := Option.map_eq_some_iff.mp h
  exact ⟨rfl, rfl⟩

theorem mount_remounts {place : List Name} (h : mount leads k call = some k')
    (hremounts : call.Remounts (leads call.target) place) :
    visible k'.table place = some { place := place, flags := call.flags &&& PER_MOUNT } := by
  obtain ⟨table, htable, rfl⟩ := Option.map_eq_some_iff.mp h
  obtain ⟨hremount, rfl⟩ := hremounts
  rw [if_pos hremount] at htable
  exact visible_setFlags_self htable

theorem mount_other {place : List Name} {m : Mnt} (h : mount leads k call = some k')
    (hout : ¬ call.Covers (leads call.target) place)
    (hflags : ¬ call.Remounts (leads call.target) place)
    (hm : visible k.table place = some m) (hplace : m.place = place) :
    visible k'.table place = some m := by
  obtain ⟨table, htable, rfl⟩ := Option.map_eq_some_iff.mp h
  unfold Call.Covers at hout
  by_cases hremount : contains call.flags MS_REMOUNT = true
  · rw [if_pos hremount] at htable
    exact visible_setFlags_other htable hm
      (fun heq => hflags ⟨hremount, heq.symm.trans hplace⟩)
  · rw [if_neg hremount] at htable hout
    by_cases hbind : contains call.flags MS_BIND = true
    · rw [if_pos hbind] at htable hout
      obtain ⟨source, -, hbound⟩ := Option.bind_eq_some_iff.mp htable
      rw [visible_bind_other hbound hout]
      exact hm
    · rw [if_neg hbind] at htable hout
      by_cases htype : PROPAGATION.any (contains call.flags) = true
      · rw [if_pos htype] at htable
        unfold changeType at htable
        split at htable
        · rw [← Option.some.inj htable]
          exact hm
        · cases htable
      · rw [if_neg htype] at htable hout
        rw [← Option.some.inj htable, visible_cons, if_neg hout, visible_hide _ hout]
        exact hm

/-- What a read-only request leaves at its target. Only a bind forgets the request. -/
theorem mount_readonly (h : mount leads k call = some k')
    (hro : contains call.flags MS_RDONLY = true) :
    ∃ m, visible k'.table (leads call.target) = some m ∧
      m.place = leads call.target ∧
      (contains m.flags MS_RDONLY = true ↔
        contains call.flags MS_REMOUNT = true ∨ contains call.flags MS_BIND = false ∨
          ∃ source, call.source = some source ∧ k.ReadonlySource (leads (components source))) := by
  obtain ⟨table, htable, rfl⟩ := Option.map_eq_some_iff.mp h
  by_cases hremount : contains call.flags MS_REMOUNT = true
  · rw [if_pos hremount] at htable
    refine ⟨_, visible_setFlags_self htable, rfl, ?_⟩
    rw [contains_perMount]
    exact iff_of_true hro (Or.inl hremount)
  · rw [if_neg hremount] at htable
    by_cases hbind : contains call.flags MS_BIND = true
    · rw [if_pos hbind] at htable
      obtain ⟨source, hsource, hbound⟩ := Option.bind_eq_some_iff.mp htable
      obtain ⟨m, hm, hself⟩ := visible_bind_self hbound
      refine ⟨_, hself, rfl, ?_⟩
      constructor
      · intro hm'
        exact Or.inr (Or.inr ⟨source, hsource, m, hm, hm'⟩)
      · intro hcases
        rcases hcases with hcase | hcase | hcase
        · exact absurd hcase hremount
        · rw [hbind] at hcase
          cases hcase
        · obtain ⟨source', hsource', m', hm', hro'⟩ := hcase
          obtain rfl : source = source' := Option.some.inj (hsource.symm.trans hsource')
          obtain rfl : m = m' := Option.some.inj (hm.symm.trans hm')
          exact hro'
    · rw [if_neg hbind] at htable
      by_cases htype : PROPAGATION.any (contains call.flags) = true
      · rw [if_pos htype, changeType_readonly hro] at htable
        cases htable
      · rw [if_neg htype] at htable
        refine ⟨{ place := leads call.target, flags := call.flags &&& PER_MOUNT }, ?_, rfl, ?_⟩
        · rw [← Option.some.inj htable, visible_cons, if_pos (List.prefix_refl _)]
        · rw [contains_perMount]
          exact iff_of_true hro (Or.inr (Or.inl (by simpa using hbind)))

end MountTable
