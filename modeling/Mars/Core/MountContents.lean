import Mars.Core.MountSpace

/-! # What mounts show

The table of mounts, with the directory that each mount shows at its place. Forgetting
the directories leads back to the table. A place bound onto itself, with all that is
mounted below it, shows what it has shown before.
-/

namespace MountTable
open UnixPath
open MountSpace (Dir)

structure Shown where
  mnt : Mnt
  root : Dir
  deriving DecidableEq

def Shown.show (l : Shown) (place : List Name) : Dir :=
  { l.root with path := l.root.path ++ place.drop l.mnt.place.length }

/-- The mounts, newest first. -/
structure Contents where
  root : List Name
  cwd : List Name
  layers : List Shown
  next : Nat
  deriving DecidableEq

def Contents.kernel (c : Contents) : Kernel where
  root := c.root
  cwd := c.cwd
  table := c.layers.map Shown.mnt

/-- Where a path leads if no symbolic link is on the way. -/
def Contents.locate (c : Contents) (path : List Component) : List Name := walk c.root c.cwd path

def top (layers : List Shown) (place : List Name) : Option Shown :=
  layers.find? fun l => l.mnt.place <+: place

/-- What a place shows, and the flags of the mount it lies on. -/
def look (layers : List Shown) (place : List Name) : Option (Dir × MsFlags) :=
  (top layers place).map fun l => (l.show place, l.mnt.flags)

def Contents.shown (c : Contents) (place : List Name) : Option Dir :=
  (look c.layers place).map Prod.fst

def Contents.readonlyAt (c : Contents) (place : List Name) : Bool :=
  (look c.layers place).any fun seen => contains seen.2 MS_RDONLY

/-! ## The call -/

def setShownFlags (place : List Name) (flags : MsFlags) : List Shown → Option (List Shown)
  | [] => none
  | l :: rest =>
      if l.mnt.place <+: place then
        if l.mnt.place = place then some ({ l with mnt := { l.mnt with flags := flags } } :: rest)
        else none
      else (setShownFlags place flags rest).map (l :: ·)

def hideLayers (place : List Name) (layers : List Shown) : List Shown :=
  layers.filter fun l => ¬ (place <+: l.mnt.place ∧ l.mnt.place ≠ place)

def cloneLayers (layers : List Shown) (source place : List Name) : List Shown :=
  (layers.filter fun l => source <+: l.mnt.place ∧ l.mnt.place ≠ source).map fun l =>
    { l with mnt := { l.mnt with place := place ++ l.mnt.place.drop source.length } }

def bindLayers (layers : List Shown) (source place : List Name) (recursive : Bool) :
    Option (List Shown) :=
  (top layers source).map fun l =>
    (if recursive then cloneLayers layers source place else []) ++
      { mnt := { place := place, flags := l.mnt.flags }, root := l.show source } ::
        hideLayers place layers

/-- What is not bound is a file system of its own. -/
def Contents.mount (leads : List Component → List Name) (c : Contents) (call : Call) :
    Option Contents :=
  let place := leads call.target
  if contains call.flags MS_REMOUNT then
    (setShownFlags place (call.flags &&& PER_MOUNT) c.layers).map fun layers => { c with layers }
  else if contains call.flags MS_BIND then
    call.source.bind fun source =>
      (bindLayers c.layers (leads (components source)) place (contains call.flags MS_REC)).map
        fun layers => { c with layers }
  else if PROPAGATION.any (contains call.flags) then
    (changeType c.kernel.table place call.flags).map fun _ => c
  else
    some { c with
      layers := { mnt := { place := place, flags := call.flags &&& PER_MOUNT },
                  root := { fs := c.next, path := [] } } :: hideLayers place c.layers
      next := c.next + 1 }

/-! ## Without the directories -/

theorem top_mnt (layers : List Shown) (place : List Name) :
    (top layers place).map Shown.mnt = visible (layers.map Shown.mnt) place := by
  rw [top, visible, List.find?_map]
  rfl

theorem setShownFlags_mnt (place : List Name) (flags : MsFlags) (layers : List Shown) :
    (setShownFlags place flags layers).map (List.map Shown.mnt) =
      setFlags place flags (layers.map Shown.mnt) := by
  induction layers with
  | nil => rfl
  | cons l rest ih =>
      rw [setShownFlags, List.map_cons, setFlags]
      split
      · split <;> rfl
      · rw [← ih, Option.map_map, Option.map_map]
        rfl

theorem hideLayers_mnt (place : List Name) (layers : List Shown) :
    (hideLayers place layers).map Shown.mnt = hide place (layers.map Shown.mnt) := by
  rw [hideLayers, hide, List.filter_map]
  rfl

theorem cloneLayers_mnt (layers : List Shown) (source place : List Name) :
    (cloneLayers layers source place).map Shown.mnt =
      clones (layers.map Shown.mnt) source place := by
  rw [cloneLayers, clones, List.filter_map, List.map_map, List.map_map]
  rfl

theorem bindLayers_mnt (layers : List Shown) (source place : List Name) (recursive : Bool) :
    (bindLayers layers source place recursive).map (List.map Shown.mnt) =
      bind (layers.map Shown.mnt) source place recursive := by
  rw [bindLayers, bind, ← top_mnt, Option.map_map, Option.map_map]
  congr 1
  funext l
  cases recursive with
  | false => simp [hideLayers_mnt]
  | true => simp [hideLayers_mnt, cloneLayers_mnt]

theorem changeType_same {table table' : List Mnt} {place : List Name} {flags : MsFlags}
    (h : changeType table place flags = some table') : table' = table := by
  unfold changeType at h
  split at h
  next => exact (Option.some.inj h).symm
  next => cases h

/-- The call does to the table what it does without the directories. -/
theorem mount_kernel (leads : List Component → List Name) (c : Contents) (call : Call) :
    (c.mount leads call).map Contents.kernel = mount leads c.kernel call := by
  have htable : ∀ {layers : Option (List Shown)} {table : Option (List Mnt)},
      layers.map (List.map Shown.mnt) = table →
      (layers.map fun layers => { c with layers }).map Contents.kernel =
        table.map fun table => { c.kernel with table := table } := by
    rintro layers table rfl
    rw [Option.map_map, Option.map_map]
    rfl
  unfold Contents.mount mount
  dsimp only
  split
  next => exact htable (setShownFlags_mnt _ _ _)
  next =>
    split
    next =>
      cases call.source with
      | none => rfl
      | some source => exact htable (bindLayers_mnt _ _ _ _)
    next =>
      split
      next =>
        rw [Option.map_map]
        cases htype : changeType c.kernel.table (leads call.target) call.flags with
        | none => rfl
        | some table =>
            rw [changeType_same htype]
            rfl
      next =>
        have htable := hideLayers_mnt (leads call.target) c.layers
        simp only [Option.map_some, Contents.kernel, List.map_cons, htable]

/-! ## What is seen -/

section look
variable {layers layers' : List Shown} {place other : List Name}

theorem top_cons (l : Shown) (layers : List Shown) (place : List Name) :
    top (l :: layers) place = if l.mnt.place <+: place then some l else top layers place := by
  by_cases h : l.mnt.place <+: place
  · simp [top, h]
  · simp [top, h]

theorem top_hideLayers (layers : List Shown) (h : ¬ place <+: other) :
    top (hideLayers place layers) other = top layers other := by
  induction layers with
  | nil => rfl
  | cons l rest ih =>
      by_cases hhidden : place <+: l.mnt.place ∧ l.mnt.place ≠ place
      · have hout : ¬ l.mnt.place <+: other := fun hl => h (hhidden.1.trans hl)
        have hdrop : hideLayers place (l :: rest) = hideLayers place rest :=
          List.filter_cons_of_neg (by simpa using hhidden)
        rw [hdrop, ih, top_cons, if_neg hout]
      · have hkeep : hideLayers place (l :: rest) = l :: hideLayers place rest :=
          List.filter_cons_of_pos (decide_eq_true hhidden)
        rw [hkeep, top_cons, top_cons, ih]

/-- One more mount decides what is seen below its place, and nothing else. -/
theorem look_over (l : Shown) (layers : List Shown) (other : List Name) :
    look (l :: hideLayers l.mnt.place layers) other =
      if l.mnt.place <+: other then some (l.show other, l.mnt.flags) else look layers other := by
  unfold look
  rw [top_cons]
  split
  next => rfl
  next hout => rw [top_hideLayers layers hout]

theorem look_setShownFlags {flags : MsFlags} (h : setShownFlags place flags layers = some layers')
    (other : List Name) :
    look layers' other = look layers other ∨
      ∃ seen, look layers other = some seen ∧ look layers' other = some (seen.1, flags) := by
  induction layers generalizing layers' with
  | nil => cases h
  | cons l rest ih =>
      unfold setShownFlags at h
      unfold look
      rw [top_cons]
      split at h
      next =>
        split at h
        next =>
          obtain rfl := Option.some.inj h
          rw [top_cons]
          split
          next => exact .inr ⟨_, rfl, rfl⟩
          next => exact .inl rfl
        next => cases h
      next =>
        obtain ⟨rest', hrest, rfl⟩ := Option.map_eq_some_iff.mp h
        rw [top_cons]
        split
        next => exact .inl rfl
        next => exact ih hrest

theorem look_setShownFlags_self {flags : MsFlags}
    (h : setShownFlags place flags layers = some layers') :
    ∃ dir, look layers' place = some (dir, flags) := by
  induction layers generalizing layers' with
  | nil => cases h
  | cons l rest ih =>
      unfold setShownFlags at h
      split at h
      next hpre =>
        split at h
        next =>
          obtain rfl := Option.some.inj h
          refine ⟨l.show place, ?_⟩
          unfold look
          rw [top_cons, if_pos hpre]
          rfl
        next => cases h
      next hpre =>
        obtain ⟨rest', hrest, rfl⟩ := Option.map_eq_some_iff.mp h
        unfold look
        rw [top_cons, if_neg hpre]
        exact ih hrest

/-! ## Mounts on one another -/

/-- No mount lies strictly below one that came later. -/
def Tidy (layers : List Shown) : Prop :=
  layers.Pairwise fun newer older =>
    ¬ (newer.mnt.place <+: older.mnt.place ∧ older.mnt.place ≠ newer.mnt.place)

theorem Tidy.hideLayers (h : Tidy layers) (place : List Name) : Tidy (hideLayers place layers) :=
  List.Pairwise.filter _ h

theorem Tidy.over (h : Tidy layers) (l : Shown) :
    Tidy (l :: MountTable.hideLayers l.mnt.place layers) := by
  refine List.pairwise_cons.mpr ⟨?_, h.hideLayers _⟩
  intro older holder
  exact of_decide_eq_true (List.mem_filter.mp holder).2

theorem Tidy.setShownFlags (h : Tidy layers) {flags : MsFlags}
    (hset : setShownFlags place flags layers = some layers') : Tidy layers' := by
  have hplaces : layers'.map (fun l => l.mnt.place) = layers.map fun l => l.mnt.place := by
    clear h
    induction layers generalizing layers' with
    | nil => cases hset
    | cons l rest ih =>
        unfold MountTable.setShownFlags at hset
        split at hset
        next =>
          split at hset
          next => exact Option.some.inj hset ▸ rfl
          next => cases hset
        next =>
          obtain ⟨rest', hrest, rfl⟩ := Option.map_eq_some_iff.mp hset
          rw [List.map_cons, List.map_cons, ih hrest]
  have hpairs : ∀ layers : List Shown, Tidy layers ↔ (layers.map fun l => l.mnt.place).Pairwise
      fun newer older => ¬ (newer <+: older ∧ older ≠ newer) := by
    intro layers
    rw [List.pairwise_map]
    rfl
  rw [hpairs, hplaces, ← hpairs]
  exact h

theorem mem_cloneLayers {source : List Name} {l : Shown} (h : l ∈ cloneLayers layers source place) :
    ∃ l' ∈ layers, source <+: l'.mnt.place ∧ l'.mnt.place ≠ source ∧
      l.mnt.place = place ++ l'.mnt.place.drop source.length := by
  obtain ⟨l', hl', rfl⟩ := List.mem_map.mp h
  obtain ⟨hmem, hbelow⟩ := List.mem_filter.mp hl'
  simp only [decide_eq_true_eq] at hbelow
  exact ⟨l', hmem, hbelow.1, hbelow.2, rfl⟩

theorem Tidy.bindLayers (h : Tidy layers) {source : List Name} {recursive : Bool}
    (hbind : bindLayers layers source place recursive = some layers') : Tidy layers' := by
  obtain ⟨l, -, rfl⟩ := Option.map_eq_some_iff.mp hbind
  have hover := h.over { mnt := { place := place, flags := l.mnt.flags }, root := l.show source }
  cases recursive with
  | false => exact hover
  | true =>
      refine List.pairwise_append.mpr ⟨?_, hover, ?_⟩
      · refine List.pairwise_map.mpr (List.Pairwise.imp_of_mem ?_ (List.Pairwise.filter _ h))
        rintro newer older hnewer holder hapart ⟨hbegins, hne⟩
        have hnewer := of_decide_eq_true (List.mem_filter.mp hnewer).2
        have holder := of_decide_eq_true (List.mem_filter.mp holder).2
        obtain ⟨front, hfront⟩ := hnewer.1
        obtain ⟨back, hback⟩ := holder.1
        simp only [← hfront, ← hback, List.drop_left, List.prefix_append_right_inj, ne_eq,
          List.append_cancel_left_eq] at hbegins hne hapart
        exact hapart ⟨hbegins, hne⟩
      · rintro clone hclone older holder ⟨hbegins, hne⟩
        obtain ⟨l', -, hsource, hstrict, hplace⟩ := mem_cloneLayers hclone
        have hbelow : place <+: clone.mnt.place := hplace ▸ List.prefix_append _ _
        rcases List.mem_cons.mp holder with rfl | holder
        · have heq := hbegins.eq_of_length_le hbelow.length_le
          exact hne heq.symm
        · have hout := of_decide_eq_true (List.mem_filter.mp holder).2
          refine hout ⟨hbelow.trans hbegins, ?_⟩
          rintro rfl
          exact hne (hbelow.eq_of_length_le hbegins.length_le)

/-! ## A place bound onto itself -/

theorem cloneLayers_self (layers : List Shown) (place : List Name) :
    cloneLayers layers place place =
      layers.filter fun l => place <+: l.mnt.place ∧ l.mnt.place ≠ place := by
  refine List.map_congr_left ?_ |>.trans (List.map_id _)
  intro l hl
  obtain ⟨rest, hrest⟩ := (of_decide_eq_true (List.mem_filter.mp hl).2).1
  rw [← hrest, List.drop_left, hrest]
  rfl

/-- The mounts strictly below a place come later than those above it. -/
theorem Tidy.top_below (h : Tidy layers) (hother : place <+: other) :
    top layers other =
      (top (layers.filter fun l => place <+: l.mnt.place ∧ l.mnt.place ≠ place) other).or
        (top layers place) := by
  induction layers with
  | nil => rfl
  | cons l rest ih =>
      obtain ⟨hfirst, hrest⟩ := List.pairwise_cons.mp h
      rw [top_cons, top_cons]
      by_cases hbelow : place <+: l.mnt.place ∧ l.mnt.place ≠ place
      · have hout : ¬ l.mnt.place <+: place :=
          fun hl => hbelow.2 (hl.eq_of_length_le hbelow.1.length_le)
        rw [List.filter_cons_of_pos (by simpa using hbelow), top_cons, if_neg hout]
        split
        next => rfl
        next => exact ih hrest
      · rw [List.filter_cons_of_neg (by simpa using hbelow)]
        by_cases hl : l.mnt.place <+: other
        · have habove : l.mnt.place <+: place := by
            rcases List.prefix_or_prefix_of_prefix hl hother with hup | hdown
            · exact hup
            · by_cases heq : l.mnt.place = place
              · exact heq ▸ List.prefix_refl _
              · exact absurd ⟨hdown, heq⟩ hbelow
          have hnone : top (rest.filter fun l => place <+: l.mnt.place ∧ l.mnt.place ≠ place)
              other = none := by
            refine List.find?_eq_none.mpr ?_
            intro older holder _
            obtain ⟨hmem, hstrict⟩ := List.mem_filter.mp holder
            have hstrict := of_decide_eq_true hstrict
            refine hfirst older hmem ⟨habove.trans hstrict.1, ?_⟩
            intro heq
            rw [heq] at hstrict
            exact hstrict.2 (habove.eq_of_length_le hstrict.1.length_le)
          rw [if_pos hl, if_pos habove, hnone]
          rfl
        · have hplace : ¬ l.mnt.place <+: place := fun hup => hl (hup.trans hother)
          rw [if_neg hl, if_neg hplace]
          exact ih hrest

theorem Shown.show_trans {l : Shown} (habove : l.mnt.place <+: place) (hother : place <+: other)
    (flags : MsFlags) :
    Shown.show { mnt := { place := place, flags := flags }, root := l.show place } other =
      l.show other := by
  obtain ⟨front, hfront⟩ := habove
  obtain ⟨back, rfl⟩ := hother
  simp [Shown.show, ← hfront]

theorem look_bind_self (h : Tidy layers) (hbind : bindLayers layers place place true = some layers')
    (other : List Name) : look layers' other = look layers other := by
  obtain ⟨l, hl, rfl⟩ := Option.map_eq_some_iff.mp hbind
  have habove : l.mnt.place <+: place := by simpa using List.find?_some hl
  rw [if_pos rfl, cloneLayers_self]
  by_cases hother : place <+: other
  · unfold look
    rw [h.top_below hother, hl, top, List.find?_append, ← top, ← top, top_cons, if_pos hother]
    cases top (layers.filter fun l => place <+: l.mnt.place ∧ l.mnt.place ≠ place) other with
    | some below => rfl
    | none =>
        simp only [Option.none_or, Option.map_some]
        rw [Shown.show_trans habove hother]
  · have hfront : top (layers.filter fun l => place <+: l.mnt.place ∧ l.mnt.place ≠ place) other =
        none := by
      refine List.find?_eq_none.mpr ?_
      intro below hbelow hbegins
      have hbelow := of_decide_eq_true (List.mem_filter.mp hbelow).2
      exact hother (hbelow.1.trans (by simpa using hbegins))
    unfold look
    rw [top, List.find?_append, ← top, hfront, Option.none_or, ← top, top_cons, if_neg hother,
      top_hideLayers _ hother]

end look

end MountTable
