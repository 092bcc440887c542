import Mars.Rootfs.OverlayMount

/-! # The page mount data is copied into

The kernel copies one page of mount data and ends it with a nul byte, so the last
byte of a text that fills the page is lost.
-/

namespace Mars.Overlay
open UnixPath

def PAGE_SIZE : Nat := 4096

def bytes (data : String) : List UInt8 := data.toByteArray.data.toList

def received (data : String) : List UInt8 := (bytes data).take (PAGE_SIZE - 1)

/-- Mount data arrives unchanged, and a run without a mount is a failure. -/
structure Whole (run : Attempt) : Prop where
  intact : ∀ args ok, (Call.mount args, ok) ∈ run.1 → received args.data = bytes args.data
  refused : (∀ args ok, (Call.mount args, ok) ∉ run.1) → ∃ error, run.2 = .error error

/-- The layers are refused, or neither form of the option string fills the page exactly. -/
def Fits (layers : Layers) : Prop :=
  (∃ path ∈ layers.paths, ',' ∈ path.toList ∨ '\x00' ∈ path.toList) ∨
    optionBytes layers ≠ PAGE_SIZE ∧
      (PAGE_SIZE < optionBytes layers →
        ∀ base : Absolute, DeepestShared layers.paths (components base.text) →
          optionBytes (layers.map (under base)) ≠ PAGE_SIZE)

theorem received_eq_iff (data : String) :
    received data = bytes data ↔ data.utf8ByteSize < PAGE_SIZE := by
  have hlength : (bytes data).length = data.utf8ByteSize := rfl
  rw [received, List.take_eq_self_iff, hlength, PAGE_SIZE]
  omega

/-! ## No mount, no success -/

theorem attempt_refused {host : Host} {made : List (Call × Bool)} {call : Call} {context : String}
    (h : (call, host made call) ∉ (attempt host made call context).1) :
    ∃ error, (attempt host made call context).2 = .error error := by
  rcases attempt_cases host made call context with hcall | ⟨-, hcall⟩
  · exact ⟨_, by rw [hcall]⟩
  · exact absurd (by simp [hcall]) h

theorem refused_relative {host : Host} {target data : String} {layers : Layers} {base : Absolute}
    (hform : dataAndBase layers = .ok (data, some base))
    (h : ∀ args ok, (Call.mount args, ok) ∉ (mountAt host target layers).1) :
    ∃ error, (mountAt host target layers).2 = .error error := by
  rcases attempt_cases host [] (.chdir base.text) ("chdir to overlay base " ++ base.text)
    with hchdir | ⟨hbase, hchdir⟩
  · exact ⟨.nix ("chdir to overlay base " ++ base.text), by simp only [mountAt, hform, hchdir]⟩
  cases hdone : host [] (.chdir base.text) with
  | false =>
      exact ⟨.nix ("chdir to overlay base " ++ base.text), by simp [mountAt, hform, hchdir, hdone]⟩
  | true =>
      have hclean : '\x00' ∉ base.text.toList := by simpa [Call.texts] using hbase
      cases htried : attempt host [(.chdir base.text, true)] (.mount (mountArgs target data))
        (mountContext target layers data) with
      | mk made result =>
          rw [mountAt_relative hform hclean hdone htried] at h ⊢
          obtain ⟨error, herror⟩ := @attempt_refused host [(.chdir base.text, true)]
            (.mount (mountArgs target data)) (mountContext target layers data) (by
              rw [htried]
              exact fun hmem => h _ _ (List.mem_append_left _ hmem))
          rw [htried] at herror
          dsimp only at herror ⊢
          split
          next => exact ⟨error, herror⟩
          next => exact ⟨_, rfl⟩

theorem refused_of_no_mount {host : Host} {target : String} {layers : Layers}
    (h : ∀ args ok, (Call.mount args, ok) ∉ (mountAt host target layers).1) :
    ∃ error, (mountAt host target layers).2 = .error error := by
  cases hform : dataAndBase layers with
  | error e => exact ⟨e, by simp only [mountAt, hform]⟩
  | ok form =>
      obtain ⟨data, base⟩ := form
      cases base with
      | none =>
          simp only [mountAt, hform] at h ⊢
          exact attempt_refused (h _ _)
      | some base => exact refused_relative hform h

/-! ## Layers that fit -/

theorem nul_mem_options {layers : Layers} {data : String} (h : options layers = .ok data) :
    '\x00' ∈ data.toList ↔ ∃ path ∈ layers.paths, '\x00' ∈ path.toList := by
  obtain ⟨-, rfl⟩ := options_eq_ok.mp h
  rw [mem_joined (by decide), mem_encoded (by decide) (by decide) (by decide)]

/-- A nul byte of a layer is in the directory or in the shortened string. -/
theorem nul_mem_relative {layers relative : Layers} {base : Absolute} {data : String}
    (hrelative : relativeTo layers base = some relative) (hdata : options relative = .ok data)
    (hnul : ∃ path ∈ layers.paths, '\x00' ∈ path.toList) :
    '\x00' ∈ base.text.toList ∨ '\x00' ∈ data.toList := by
  obtain ⟨hstrip, rfl⟩ := relativeTo_eq_some.mp hrelative
  obtain ⟨path, hpath, hmem⟩ := hnul
  have hparts := stripPrefix_mem (stripPrefix_under (hstrip path hpath)).1
    (show '\x00' ≠ '/' by decide) (show '\x00' ≠ '.' by decide)
  rcases hparts.mp hmem with hbase | hrest
  · exact .inl hbase
  · refine .inr ((nul_mem_options hdata).mpr ⟨under base path, ?_, hrest⟩)
    rw [paths_map]
    exact List.mem_map_of_mem hpath

theorem whole_of_fits {layers : Layers} (h : Fits layers) (host : Host) (target : String) :
    Whole (mountAt host target layers) := by
  refine ⟨?_, refused_of_no_mount⟩
  intro args ok hmem
  obtain ⟨before, after, hcalls⟩ := List.append_of_mem hmem
  obtain ⟨base, hhanded⟩ := mountAt_handed hcalls
  obtain ⟨absolute, habsolute⟩ := options_of_dataAndBase hhanded.form
  have hcomma := (options_eq_ok.mp habsolute).1
  rw [received_eq_iff]
  rcases dataAndBase_eq_ok hhanded.form with ⟨hdata, hpage, -⟩ |
    ⟨dir, relative, hdir, hrelative, hdata, hpage, hlong, hbase⟩
  · have hclean : ¬ ∃ path ∈ layers.paths, '\x00' ∈ path.toList := by
      rw [← nul_mem_options hdata]
      exact hhanded.clean
    rw [options_bytes hdata] at hpage ⊢
    rcases h with ⟨path, hpath, hbad | hbad⟩ | ⟨hlength, -⟩
    · exact absurd hbad (hcomma path hpath)
    · exact absurd ⟨path, hpath, hbad⟩ hclean
    · exact Nat.lt_of_le_of_ne hpage hlength
  · have hclean : ¬ ∃ path ∈ layers.paths, '\x00' ∈ path.toList := by
      intro hnul
      rcases nul_mem_relative hrelative hdata hnul with hmem | hmem
      · exact hhanded.cleanBase dir (by simp [hbase]) hmem
      · exact hhanded.clean hmem
    rw [options_bytes hdata] at hpage ⊢
    rcases h with ⟨path, hpath, hbad | hbad⟩ | ⟨-, hlength⟩
    · exact absurd hbad (hcomma path hpath)
    · exact absurd ⟨path, hpath, hbad⟩ hclean
    · obtain ⟨-, rfl⟩ := relativeTo_eq_some.mp hrelative
      exact Nat.lt_of_le_of_ne hpage (hlength hlong dir (deepest_of_commonParent hdir))

/-! ## Layers that do not fit -/

/-- A kernel that carries out every call. -/
def willing : Host := fun _ _ => true

theorem mount_reached {layers : Layers} {data : String} {base : Option Absolute}
    (hform : dataAndBase layers = .ok (data, base)) (hdata : '\x00' ∉ data.toList)
    (hbase : ∀ dir ∈ base, '\x00' ∉ dir.text.toList) :
    (Call.mount (mountArgs "/" data), true) ∈ (mountAt willing "/" layers).1 := by
  have hclean : ∀ text ∈ (Call.mount (mountArgs "/" data)).texts, '\x00' ∉ text.toList := by
    simp [Call.texts, mountArgs, hdata]
  cases base with
  | none =>
      simp only [mountAt, hform]
      rw [attempt_clean hclean]
      simp [willing]
  | some dir =>
      rw [mountAt_relative hform (hbase dir rfl) rfl (attempt_clean hclean _ _ _)]
      simp [willing]

/-- A string that fills the page and reaches the kernel loses its last byte. -/
theorem not_whole {layers : Layers} {data : String} {base : Option Absolute}
    (hform : dataAndBase layers = .ok (data, base)) (hdata : '\x00' ∉ data.toList)
    (hbase : ∀ dir ∈ base, '\x00' ∉ dir.text.toList) (hpage : data.utf8ByteSize = PAGE_SIZE) :
    ¬ Whole (mountAt willing "/" layers) := by
  intro hwhole
  have hintact := hwhole.intact _ _ (mount_reached hform hdata hbase)
  rw [received_eq_iff, mountArgs, hpage] at hintact
  exact absurd hintact (lt_irrefl _)

theorem dataAndBase_absolute {layers : Layers} {data : String} (hdata : options layers = .ok data)
    (hpage : data.utf8ByteSize ≤ MAX_OPTION_BYTES) : dataAndBase layers = .ok (data, none) := by
  simp [dataAndBase, hdata, hpage, bind, Except.bind, pure, Except.pure]

theorem dataAndBase_relative {layers relative : Layers} {base : Absolute} {data short : String}
    (hdata : options layers = .ok data) (hlong : MAX_OPTION_BYTES < data.utf8ByteSize)
    (hbase : commonParent layers = some base) (hrelative : relativeTo layers base = some relative)
    (hshort : options relative = .ok short) (hpage : short.utf8ByteSize ≤ MAX_OPTION_BYTES) :
    dataAndBase layers = .ok (short, some base) := by
  simp only [dataAndBase, hdata, hbase, hrelative, hshort, called, bind, Except.bind, pure,
    Except.pure]
  rw [if_neg (Nat.not_le.mpr hlong), if_neg (Nat.not_lt.mpr hpage)]

theorem under_congr {a b : Absolute} (h : components a.text = components b.text) :
    under a = under b := by
  funext path
  simp [under, strip, stripPrefix, h]

/-- The deepest shared directory is the one that is found. -/
theorem commonParent_of_deepest {layers : Layers} {base : Absolute} (hsome : layers.paths ≠ [])
    (h : DeepestShared layers.paths (components base.text)) :
    ∃ found, commonParent layers = some found ∧ under found = under base := by
  have hpaths := h.shared.paths
  obtain ⟨found, hfound, hdeepest⟩ := commonParent_spec hsome
    (fun path hpath => (hpaths path hpath).1) fun path hpath => (hpaths path hpath).2
  have hle := h.deepest _ hdeepest.shared
  have hge := hdeepest.deepest _ h.shared
  exact ⟨found, hfound, under_congr (hle.eq_of_length_le hge.length_le)⟩

theorem nul_not_mem_found {layers : Layers} {base : Absolute}
    (hbase : commonParent layers = some base)
    (hclean : ∀ path ∈ layers.paths, '\x00' ∉ path.toList) : '\x00' ∉ base.text.toList := by
  obtain ⟨hsome, -⟩ := found_under_root hbase
  obtain ⟨path, hpath⟩ := List.exists_mem_of_ne_nil _ hsome
  obtain ⟨hstrip, -⟩ := relativeTo_eq_some.mp
    (relativeTo_shared (deepest_of_commonParent hbase).shared)
  have hparts := stripPrefix_mem (stripPrefix_under (hstrip path hpath)).1
    (show '\x00' ≠ '/' by decide) (show '\x00' ≠ '.' by decide)
  exact fun hmem => hclean path hpath (hparts.mpr (.inl hmem))

/-- Below the base found, the names hold no character that the paths do not hold. -/
theorem not_mem_relative {layers relative : Layers} {base : Absolute}
    (hrelative : relativeTo layers base = some relative) {c : Char} (hslash : c ≠ '/')
    (hdot : c ≠ '.') (hclean : ∀ path ∈ layers.paths, c ∉ path.toList) :
    ∀ rest ∈ relative.paths, c ∉ rest.toList := by
  obtain ⟨hstrip, rfl⟩ := relativeTo_eq_some.mp hrelative
  rw [paths_map]
  intro rest hrest hmem
  obtain ⟨path, hpath, rfl⟩ := List.mem_map.mp hrest
  have hparts := stripPrefix_mem (stripPrefix_under (hstrip path hpath)).1 hslash hdot
  exact hclean path hpath (hparts.mpr (.inr hmem))

theorem optionBytes_of_no_paths {layers : Layers} (h : layers.paths = []) :
    optionBytes layers = 9 := by
  simp only [Layers.paths, List.append_eq_nil_iff, Option.toList_eq_nil_iff] at h
  simp [optionBytes, h]

theorem fits_of_whole {layers : Layers} (h : Whole (mountAt willing "/" layers)) :
    Fits layers := by
  by_cases hbad : ∃ path ∈ layers.paths, ',' ∈ path.toList ∨ '\x00' ∈ path.toList
  · exact .inl hbad
  push Not at hbad
  have hcomma : ∀ path ∈ layers.paths, ',' ∉ path.toList := fun path hpath => (hbad path hpath).1
  have hnul : ∀ path ∈ layers.paths, '\x00' ∉ path.toList := fun path hpath => (hbad path hpath).2
  have hdata := options_eq_ok.mpr ⟨hcomma, rfl⟩
  refine .inr ⟨?_, ?_⟩
  · intro hpage
    rw [← options_bytes hdata] at hpage
    have hclean := mt (nul_mem_options hdata).mp (by simpa using hnul)
    exact not_whole (dataAndBase_absolute hdata hpage.le) hclean (by simp) hpage h
  · intro hlong base hdeepest hpage
    have hsome : layers.paths ≠ [] := by
      intro hnone
      rw [optionBytes_of_no_paths hnone] at hlong
      exact absurd hlong (by decide)
    obtain ⟨found, hfound, hunder⟩ := commonParent_of_deepest hsome hdeepest
    have hrelative := relativeTo_shared (deepest_of_commonParent hfound).shared
    have hshort := options_eq_ok.mpr
      ⟨not_mem_relative hrelative (by decide) (by decide) hcomma, rfl⟩
    have hclean := mt (nul_mem_options hshort).mp
      (by simpa using not_mem_relative hrelative (by decide) (by decide) hnul)
    rw [← hunder, ← options_bytes hshort] at hpage
    rw [← options_bytes hdata] at hlong
    have hform := dataAndBase_relative hdata hlong hfound hrelative hshort hpage.le
    exact not_whole hform hclean (by simpa using nul_not_mem_found hfound hnul) hpage h

/-- Mount data is cut exactly for layers whose option string fills the page. -/
theorem mounted_whole_iff (layers : Layers) :
    (∀ host target, Whole (mountAt host target layers)) ↔ Fits layers :=
  ⟨fun h => fits_of_whole (h willing "/"), whole_of_fits⟩

def longName : String := String.ofList (List.replicate 69 'x')

/-- Lower layers in directories of 72 bytes each, 4096 bytes with their separators. -/
def pageful : Layers :=
  { lower := (List.range 56).map fun i => "/" ++ longName ++ toString (i + 10)
    upper := none
    work := none }

theorem pageful_bytes : optionBytes pageful = PAGE_SIZE := by
  have hname : escapedBytes longName = 69 := by decide +kernel
  have hdigits : ∀ i ∈ List.range 56, escapedBytes (toString (i + 10)) = 2 := by decide +kernel
  have hpaths : pageful.lower.map escapedBytes = List.replicate 56 72 := by
    rw [pageful, List.map_map]
    refine List.eq_replicate_iff.mpr ⟨by simp, ?_⟩
    intro size hsize
    obtain ⟨i, hi, rfl⟩ := List.mem_map.mp hsize
    rw [Function.comp_apply, escapedBytes_append, escapedBytes_append, hname, hdigits i hi]
    rfl
  rw [optionBytes, hpaths, List.sum_replicate_nat]
  simp [pageful, PAGE_SIZE]

theorem pageful_clean :
    ∀ path ∈ pageful.paths, ',' ∉ path.toList ∧ '\x00' ∉ path.toList := by
  have hfront : ',' ∉ ("/" ++ longName).toList ∧ '\x00' ∉ ("/" ++ longName).toList := by
    decide +kernel
  have hdigits : ∀ i ∈ List.range 56,
      ',' ∉ (toString (i + 10)).toList ∧ '\x00' ∉ (toString (i + 10)).toList := by
    decide +kernel
  intro path hpath
  simp only [Layers.paths, pageful, Option.toList_none, List.append_nil, List.mem_map] at hpath
  obtain ⟨i, hi, rfl⟩ := hpath
  obtain ⟨hcomma, hnul⟩ := hdigits i hi
  simp only [@String.toList_append _ (toString (i + 10)), List.mem_append, not_or]
  exact ⟨⟨hfront.1, hcomma⟩, hfront.2, hnul⟩

theorem pageful_cut : ¬ ∀ layers host target, Whole (mountAt host target layers) := by
  intro h
  rcases fits_of_whole (h pageful willing "/") with ⟨path, hpath, hbad | hbad⟩ | ⟨hlength, -⟩
  · exact (pageful_clean path hpath).1 hbad
  · exact (pageful_clean path hpath).2 hbad
  · exact hlength pageful_bytes

end Mars.Overlay
