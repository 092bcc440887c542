import Mars.Core.FileTree
import Mars.Core.PathText
import Mars.Rootfs.Sysctl

/-! # Where the key of a sysctl leads

The dots of a key become slashes and its slashes stay, so no component is a `.` or
a `..`, and a key that would start at the root is refused. What is accepted leads
below `/proc/sys`.
-/

namespace Mars.Sysctl
open UnixPath FileTree

/-! ## Which keys are accepted -/

/-- What may stand between the dots of a key. -/
def Segment (text : String) : Prop := text ≠ "" ∧ '.' ∉ text.toList ∧ '/' ∉ text.toList

instance (text : String) : Decidable (Segment text) :=
  inferInstanceAs (Decidable (_ ∧ _))

theorem Segment.plain {text : String} (h : Segment text) : Plain text := by
  obtain ⟨hne, hdot, hslash⟩ := h
  refine ⟨hne, ?_, ?_, hslash⟩
  · rintro rfl
    exact hdot (by decide)
  · rintro rfl
    exact hdot (by decide)

/-- The key starts with a character of a segment. -/
def StartsNamed (key : String) : Prop := ∃ c rest, key.toList = c :: rest ∧ c ≠ '.' ∧ c ≠ '/'

theorem toList_slashed (key : String) :
    (slashed key).toList = key.toList.map fun c => if c = '.' then '/' else c :=
  String.toList_ofList

theorem dot_not_mem_slashed (key : String) : '.' ∉ (slashed key).toList := by
  rw [toList_slashed, List.mem_map]
  rintro ⟨c, -, hc⟩
  split at hc
  next => cases hc
  next hne => exact hne hc

theorem startsNamed_iff {key : String} :
    StartsNamed key ↔ key ≠ "" ∧ isAbsolute (slashed key) = false := by
  rw [StartsNamed, isAbsolute, toList_slashed, ← String.toList_inj.ne]
  cases key.toList with
  | nil => simp
  | cons c rest =>
      by_cases hdot : c = '.'
      · simp [hdot]
      · simp [hdot]

/-- Every piece of a slashed key is a segment, so none is a `.` or a `..`. -/
theorem segment_of_mem {key text : String} (h : text ∈ segments (slashed key)) :
    Segment text := by
  obtain ⟨piece, hpiece, rfl⟩ := List.mem_map.mp h
  obtain ⟨hmem, hne⟩ := List.mem_filter.mp hpiece
  refine ⟨by simpa using hne, ?_, ?_⟩
  · rw [String.toList_ofList]
    intro hdot
    have hpieces : ['/'].intercalate ((slashed key).toList.splitOn '/') = (slashed key).toList :=
      List.intercalate_splitOn '/'
    apply dot_not_mem_slashed key
    rw [← hpieces]
    exact (mem_intercalate (by decide)).mpr ⟨piece, hmem, hdot⟩
  · rw [String.toList_ofList]
    exact slash_not_mem_pieces hmem

/-- A slashed key that is relative reads as names. -/
theorem components_slashed {key : String} (hrel : isAbsolute (slashed key) = false) :
    ∃ names : List Name, components (slashed key) = names.map .normal := by
  obtain ⟨names, hnames⟩ := exists_names fun text htext => (segment_of_mem htext).plain
  have hdot : (segments (slashed key)).head? ≠ some "." := by
    intro hhead
    exact (segment_of_mem (List.mem_of_head? hhead)).plain.2.1 rfl
  refine ⟨names, ?_⟩
  rw [components, if_neg (by simp [hrel]), ofRelative_of_head hdot, hnames, ofSegment_names]

theorem all_normal_iff {key : String} :
    (components (slashed key)).all isNormal = true ↔ isAbsolute (slashed key) = false := by
  constructor
  · intro hall
    rw [Bool.eq_false_iff]
    intro habs
    rw [components, if_pos habs] at hall
    cases hall
  · intro hrel
    obtain ⟨names, hnames⟩ := components_slashed hrel
    simp [hnames, isNormal]

/-- A key is accepted by its first character alone. -/
theorem resolve_iff {key path : String} :
    resolve key = .ok path ↔ StartsNamed key ∧ path = BASE ++ "/" ++ slashed key := by
  rw [resolve_eq_ok, all_normal_iff, startsNamed_iff, and_assoc]
  refine and_congr_right fun _ => and_congr_right fun hrel => ?_
  rw [join, hrel, if_neg Bool.false_ne_true]
  rfl

/-! ## Where a path leads -/

/-- `/proc/sys` is a directory, and no link stands below it. -/
structure Procfs (t : Tree) (base : Place) : Prop where
  dir : ∃ links, lead t (components BASE) = .dir links base
  plain : t.NoLinks base

/-- The path is that of `/proc/sys` with names behind it, and what an open comes to or
misses in a proc file system is strictly below. -/
structure LeadsBelow (path : String) : Prop where
  named : StrictlyBelow path BASE
  opens : ∀ t base, Procfs t base → ∀ place, (lead t (components path)).place = some place →
    ∃ below, below ≠ [] ∧ place = base ++ below

theorem leadsBelow_of_strictlyBelow {path : String} (h : StrictlyBelow path BASE) :
    LeadsBelow path where
  named := h
  opens := by
    intro t base hproc place hplace
    obtain ⟨names, hne, hpath⟩ := h
    obtain ⟨links, hdir⟩ := hproc.dir
    rw [hpath, lead, follow_append, ← lead, hdir] at hplace
    obtain ⟨below, hbelow, -, rfl⟩ := follow_names hproc.plain hne hplace
    exact ⟨below, hbelow, rfl⟩

theorem strictlyBelow_of_ok {key path : String} (h : resolve key = .ok path) :
    StrictlyBelow path BASE := by
  obtain ⟨hkey, hall, rfl⟩ := resolve_eq_ok.mp h
  obtain ⟨names, hnames⟩ := components_slashed (all_normal_iff.mp hall)
  refine ⟨names, ?_, components_join_names BASE hnames⟩
  rintro rfl
  have hslashed : slashed key ≠ "" := by
    rw [← String.toList_inj.ne, toList_slashed]
    simpa using hkey
  exact components_ne_nil hslashed hnames

/-! ## Segments joined by dots -/

theorem slashed_append (a b : String) : slashed (a ++ b) = slashed a ++ slashed b := by
  rw [slashed, String.toList_append, List.map_append, String.ofList_append]
  rfl

theorem slashed_segment {text : String} (h : Segment text) : slashed text = text := by
  have hsame : ∀ c ∈ text.toList, (if c = '.' then '/' else c) = c := by
    intro c hc
    apply if_neg
    rintro rfl
    exact h.2.1 hc
  rw [slashed, List.map_congr_left hsame, List.map_id', String.ofList_toList]

theorem slashed_intercalate {segs : List String} (h : ∀ s ∈ segs, Segment s) :
    slashed (".".intercalate segs) = "/".intercalate segs := by
  induction segs with
  | nil => rfl
  | cons first rest ih =>
      obtain ⟨hfirst, hrest⟩ := List.forall_mem_cons.mp h
      by_cases hnil : rest = []
      · rw [hnil, String.intercalate_singleton, String.intercalate_singleton]
        exact slashed_segment hfirst
      · rw [String.intercalate_cons_of_ne_nil hnil, String.intercalate_cons_of_ne_nil hnil,
          slashed_append, slashed_append, slashed_segment hfirst, ih hrest]
        rfl

theorem Segment.startsNamed {text : String} (h : Segment text) (rest : String) :
    StartsNamed (text ++ rest) := by
  obtain ⟨hne, hdot, hslash⟩ := h
  cases hchars : text.toList with
  | nil => exact absurd (String.toList_inj.mp (by simpa using hchars)) hne
  | cons c others =>
      rw [hchars, List.mem_cons, not_or] at hdot hslash
      exact ⟨c, others ++ rest.toList, by simp [hchars], Ne.symm hdot.1, Ne.symm hslash.1⟩

theorem resolve_segments {segs : List String} (hne : segs ≠ []) (h : ∀ s ∈ segs, Segment s) :
    resolve (".".intercalate segs) = .ok (BASE ++ "/" ++ "/".intercalate segs) := by
  rw [resolve_iff, slashed_intercalate h]
  refine ⟨?_, rfl⟩
  cases segs with
  | nil => exact absurd rfl hne
  | cons first rest =>
      have hfirst : Segment first := h first List.mem_cons_self
      by_cases hnil : rest = []
      · rw [hnil, String.intercalate_singleton]
        simpa using hfirst.startsNamed ""
      · rw [String.intercalate_cons_of_ne_nil hnil, String.append_assoc]
        exact hfirst.startsNamed _

/-- Whatever text a key is, what is accepted leads strictly below `/proc/sys`; and
segments joined by dots are accepted and lead to the segments joined by slashes. -/
theorem keys_stay_below :
    (∀ key path, resolve key = .ok path → LeadsBelow path) ∧
      ∀ segs : List String, segs ≠ [] → (∀ s ∈ segs, Segment s) →
        resolve (".".intercalate segs) = .ok (BASE ++ "/" ++ "/".intercalate segs) :=
  ⟨fun _ _ h => leadsBelow_of_strictlyBelow (strictlyBelow_of_ok h),
    fun _ hne h => resolve_segments hne h⟩

def procSys : Place := [⟨"proc", by decide⟩, ⟨"sys", by decide⟩]

def kernelDir : Place := procSys ++ [⟨"kernel", by decide⟩]

def domainnameFile : Place := kernelDir ++ [⟨"domainname", by decide⟩]

/-- A proc file system with one setting in it. -/
def procTree : Tree := fun place =>
  if place = procSys.take 1 ∨ place = procSys ∨ place = kernelDir then some .dir
  else if place = domainnameFile then some .file
  else none

theorem procfs_procTree : Procfs procTree procSys where
  dir := ⟨MAXSYMLINKS, by decide +kernel⟩
  plain := by
    intro below target h
    unfold procTree at h
    split at h
    next => cases h
    next =>
      split at h
      next => cases h
      next => cases h

/-- Dots and slashes in a row, and a plain key with what it opens. -/
theorem keys_stay_below_dotted :
    LeadsBelow "/proc/sys/net//ipv4//ip_forward/" ∧
      resolve "kernel.domainname" = .ok "/proc/sys/kernel/domainname" ∧
      ∃ below, below ≠ [] ∧ domainnameFile = procSys ++ below := by
  have hdots : resolve "net..ipv4/.ip_forward." = .ok "/proc/sys/net//ipv4//ip_forward/" := by
    decide +kernel
  have hplain : resolve "kernel.domainname" = .ok "/proc/sys/kernel/domainname" :=
    keys_stay_below.2 ["kernel", "domainname"] (by decide) (by decide)
  refine ⟨keys_stay_below.1 _ _ hdots, hplain, ?_⟩
  exact (keys_stay_below.1 _ _ hplain).opens procTree procSys procfs_procTree domainnameFile
    (by decide +kernel)

end Mars.Sysctl
