import Mars.Core.MountContents
import Mars.Rootfs.Pivot
import Mars.Rootfs.Readonly

/-! # Hiding and protecting parts of the new root

Behind the pivot some places are covered, each with an empty file system or with
the null device, and some are made read-only by a bind of their own. A place that
is not there is passed over.
-/

namespace Mars.Hardening
open UnixPath MountTable
open MountSpace (Dir)

structure Host where
  /-- What `symlink_metadata` finds there, and whether it is a directory. -/
  metadata : Dir → Option Bool
  /-- Where a path leads when a call takes it, through whatever symbolic links. -/
  leads : Contents → List Component → List Name
  /-- The same, but a link that the path itself names is not followed. -/
  names : Contents → List Component → List Name
  refuses : Call → Bool

def Host.mount (host : Host) (c : Contents) (call : Call) (context : String) :
    Except Error Contents :=
  called (if host.refuses call then none else c.mount (host.leads c) call) (.nix context)

def Host.find (host : Host) (c : Contents) (path : String) : Option Bool :=
  (c.shown (host.names c (components path))).bind host.metadata

def maskOne (host : Host) (c : Contents) (path : String) : Except Error Contents :=
  match host.find c path with
  | none => .ok c
  | some true =>
      host.mount c (Pivot.maskDir path)
        ("mask the directory " ++ path ++ " with an empty read-only tmpfs")
  | some false =>
      host.mount c (Pivot.bindCall "/dev/null" (components path))
        ("mask " ++ path ++ " by binding /dev/null over it")

def maskPaths (host : Host) (paths : List String) (c : Contents) : Except Error Contents :=
  paths.foldlM (maskOne host) c

def readonlyOne (host : Host) (c : Contents) (path : String) : Except Error Contents :=
  match host.find c path with
  | none => .ok c
  | some _ => do
      let c ← host.mount c (Pivot.bindSelf path) ("bind " ++ path ++
        " onto itself; a path cannot be remounted read-only unless it is a mount point of its own")
      host.mount c (Pivot.remountSelf path) ("remount " ++ path ++ " read-only")

def readonlyPaths (host : Host) (paths : List String) (c : Contents) : Except Error Contents :=
  paths.foldlM (readonlyOne host) c

def remountOne (host : Host) (c : Contents) (specMount : Spec.Mount) : Except Error Contents :=
  if !contains (Mounts.parseOptions (specMount.options.getD [])).flags MS_RDONLY then .ok c
  else if specMount.typ.getD "" ≠ "tmpfs" then .ok c
  else host.mount c (Harden.remountCall specMount) ("remount the tmpfs at " ++
    specMount.destination ++
    " read-only; it had to be writable while the runtime populated it")

def remountReadonlyMounts (host : Host) (mounts : List Spec.Mount) (c : Contents) :
    Except Error Contents :=
  mounts.foldlM (remountOne host) c

def readonlyRootfs (host : Host) (c : Contents) : Except Error Contents :=
  host.mount c Pivot.readonlyRootfs "remount / read-only for root.readonly"

/-- What init does in this order. -/
def harden (host : Host) (plan : Pivot.Plan) (c : Contents) : Except Error Contents := do
  let c ← maskPaths host plan.maskedPaths c
  let c ← readonlyPaths host plan.readonlyPaths c
  let c ← remountReadonlyMounts host plan.mounts c
  if plan.readonlyRootfs then readonlyRootfs host c else .ok c

/-! ## Paths without links -/

/-- No symbolic link is on the way of the path. -/
def Host.Plain (host : Host) (path : List Component) : Prop :=
  ∀ c, host.leads c path = c.locate path ∧ host.names c path = c.locate path

structure Linkless (host : Host) (plan : Pivot.Plan) : Prop where
  masked : ∀ path ∈ plan.maskedPaths, host.Plain (components path)
  readonly : ∀ path ∈ plan.readonlyPaths, host.Plain (components path)
  root : host.Plain (components "/")
  null : host.Plain (components "/dev/null")

/-! ## The calls -/

/-- The mounts as they come about, with the numbers of file systems all in use. -/
structure Sound (c : Contents) : Prop where
  tidy : Tidy c.layers
  numbered : ∀ l ∈ c.layers, l.root.fs < c.next

/-- The root, the working directory and the order of the mounts stay. -/
structure Follows (c c' : Contents) : Prop where
  root : c'.root = c.root
  cwd : c'.cwd = c.cwd
  next : c.next ≤ c'.next
  tidy : Tidy c.layers → Tidy c'.layers

section calls
variable {host : Host} {c c' : Contents} {call : Call} {context path : String}
  {leads : List Component → List Name}

theorem mount_ok (h : host.mount c call context = .ok c') :
    c.mount (host.leads c) call = some c' := by
  have hcall := called_eq_ok.mp h
  split at hcall
  next => cases hcall
  next => exact hcall

theorem follows_layers {layers : List Shown} {next : Nat} (hnext : c.next ≤ next)
    (htidy : Tidy c.layers → Tidy layers) : Follows c { c with layers, next } :=
  ⟨rfl, rfl, hnext, htidy⟩

/-- A remount lets every place show what it has shown. -/
theorem remount_spec (h : c.mount leads call = some c')
    (hremount : contains call.flags MS_REMOUNT = true) :
    Follows c c' ∧ (∀ place, c'.shown place = c.shown place) ∧
      (contains call.flags MS_RDONLY = true →
        c'.readonlyAt (leads call.target) = true ∧
        ∀ place, c.readonlyAt place = true → c'.readonlyAt place = true) := by
  unfold Contents.mount at h
  rw [if_pos hremount] at h
  obtain ⟨layers, hset, rfl⟩ := Option.map_eq_some_iff.mp h
  refine ⟨follows_layers (Nat.le_refl _) fun htidy => htidy.setShownFlags hset, ?_, ?_⟩
  · intro place
    unfold Contents.shown
    rcases look_setShownFlags hset place with hsame | ⟨seen, hseen, hnew⟩
    · rw [hsame]
    · rw [hseen, hnew]
      rfl
  · intro hro
    have hflags : contains (call.flags &&& PER_MOUNT) MS_RDONLY = true := by
      rw [contains_perMount]
      exact hro
    constructor
    · obtain ⟨dir, hself⟩ := look_setShownFlags_self hset
      unfold Contents.readonlyAt
      rw [hself]
      exact hflags
    · intro place hplace
      unfold Contents.readonlyAt at hplace ⊢
      rcases look_setShownFlags hset place with hsame | ⟨seen, -, hnew⟩
      · rw [hsame]
        exact hplace
      · rw [hnew]
        exact hflags

/-- A bind of a place onto itself changes nothing that can be seen. -/
theorem bindSelf_spec (htidy : Tidy c.layers) (h : c.mount leads (Pivot.bindSelf path) = some c') :
    Follows c c' ∧ ∀ place, look c'.layers place = look c.layers place := by
  have hremount : ¬contains (MS_BIND ||| MS_REC) MS_REMOUNT = true := by decide
  have hbind : contains (MS_BIND ||| MS_REC) MS_BIND = true := by decide
  have hrec : contains (MS_BIND ||| MS_REC) MS_REC = true := by decide
  unfold Contents.mount Pivot.bindSelf at h
  dsimp only at h
  rw [if_neg hremount, if_pos hbind, hrec] at h
  obtain ⟨source, hsource, hlayers⟩ := Option.bind_eq_some_iff.mp h
  obtain rfl : path = source := Option.some.inj hsource
  obtain ⟨layers, hbound, rfl⟩ := Option.map_eq_some_iff.mp hlayers
  exact ⟨follows_layers (Nat.le_refl _) fun htidy => htidy.bindLayers hbound,
    look_bind_self htidy hbound⟩

/-- The empty file system is seen at its place and below. -/
theorem maskDir_spec (h : c.mount leads (Pivot.maskDir path) = some c') :
    Follows c c' ∧ ∀ place, c'.shown place =
      if leads (components path) <+: place then
        some ⟨c.next, place.drop (leads (components path)).length⟩
      else c.shown place := by
  have hremount : ¬contains MS_RDONLY MS_REMOUNT = true := by decide
  have hbind : ¬contains MS_RDONLY MS_BIND = true := by decide
  have htype : ¬PROPAGATION.any (contains MS_RDONLY) = true := by decide
  unfold Contents.mount Pivot.maskDir at h
  dsimp only at h
  rw [if_neg hremount, if_neg hbind, if_neg htype] at h
  obtain rfl := Option.some.inj h
  refine ⟨follows_layers (Nat.le_succ _) fun htidy => htidy.over _, ?_⟩
  intro place
  unfold Contents.shown
  rw [look_over]
  split <;> rfl

/-- The null device, or what is in its place, is seen where a file was. -/
theorem bindNull_spec
    (h : c.mount leads (Pivot.bindCall "/dev/null" (components path)) = some c') :
    Follows c c' ∧ ∃ null, c.shown (leads (components "/dev/null")) = some null ∧
      ∀ place, c'.shown place =
        if leads (components path) <+: place then
          some { null with
            path := null.path ++ place.drop (leads (components path)).length }
        else c.shown place := by
  have hremount : ¬contains MS_BIND MS_REMOUNT = true := by decide
  have hbind : contains MS_BIND MS_BIND = true := by decide
  have hrec : contains MS_BIND MS_REC = false := by decide
  unfold Contents.mount Pivot.bindCall at h
  dsimp only at h
  rw [if_neg hremount, if_pos hbind, hrec] at h
  obtain ⟨source, hsource, hlayers⟩ := Option.bind_eq_some_iff.mp h
  obtain rfl : "/dev/null" = source := Option.some.inj hsource
  obtain ⟨layers, hbound, rfl⟩ := Option.map_eq_some_iff.mp hlayers
  obtain ⟨l, hl, rfl⟩ := Option.map_eq_some_iff.mp hbound
  refine ⟨follows_layers (Nat.le_refl _) fun htidy => htidy.bindLayers hbound,
    l.show (leads (components "/dev/null")), ?_, ?_⟩
  · unfold Contents.shown look
    rw [hl]
    rfl
  · intro place
    unfold Contents.shown
    change Option.map Prod.fst (look (_ :: hideLayers _ _) place) = _
    rw [look_over]
    split <;> rfl

end calls

theorem Follows.refl (c : Contents) : Follows c c := ⟨rfl, rfl, Nat.le_refl _, id⟩

theorem Follows.trans {c c' c'' : Contents} (h : Follows c c') (h' : Follows c' c'') :
    Follows c c'' where
  root := h'.root.trans h.root
  cwd := h'.cwd.trans h.cwd
  next := h.next.trans h'.next
  tidy := h'.tidy ∘ h.tidy

theorem Follows.locate {c c' : Contents} (h : Follows c c') (path : List Component) :
    c'.locate path = c.locate path := by
  rw [Contents.locate, Contents.locate, h.root, h.cwd]

/-! ## Masks -/

/-- A file system made since, or what the null device is a name for. -/
def Mask (c : Contents) (dir : Dir) : Prop :=
  c.next ≤ dir.fs ∨ ∃ null, c.shown (c.locate (components "/dev/null")) = some null ∧
    null.fs = dir.fs ∧ null.path <+: dir.path

def Masked (start c : Contents) (place : List Name) : Prop :=
  ∃ dir, c.shown place = some dir ∧ Mask start dir

/-- Everything below the covered places is masked, and everything else is as it was. -/
structure Covered (start : Contents) (covered : Set (List Name)) (c : Contents) : Prop where
  follows : Follows start c
  masked : ∀ q ∈ covered, ∀ place, q <+: place → Masked start c place
  same : ∀ place, (∀ q ∈ covered, ¬ q <+: place) → c.shown place = start.shown place

section masks
variable {host : Host} {start c c' : Contents} {covered : Set (List Name)} {path : String}

theorem Mask.below {dir : Dir} (h : Mask start dir) (names : List Name) :
    Mask start { dir with path := dir.path ++ names } := by
  rcases h with h | ⟨null, hnull, hfs, hpath⟩
  · exact .inl h
  · exact .inr ⟨null, hnull, hfs, hpath.trans (List.prefix_append _ _)⟩

theorem Covered.mask_null (h : Covered start covered c) {null : Dir}
    (hnull : c.shown (c.locate (components "/dev/null")) = some null) : Mask start null := by
  by_cases hcovered : ∃ q ∈ covered, q <+: c.locate (components "/dev/null")
  · obtain ⟨q, hq, hbegins⟩ := hcovered
    obtain ⟨dir, hdir, hmask⟩ := h.masked q hq _ hbegins
    rw [hnull] at hdir
    exact Option.some.inj hdir ▸ hmask
  · have hsame := h.same _ fun q hq hbegins => hcovered ⟨q, hq, hbegins⟩
    rw [hnull, h.follows.locate] at hsame
    exact .inr ⟨null, hsame.symm, rfl, List.prefix_refl _⟩

/-- A mask over one more place. -/
theorem Covered.over (h : Covered start covered c) {place : List Name} (hfollows : Follows c c')
    {mask : List Name → Dir} (hmask : ∀ other, Mask start (mask other))
    (hshown : ∀ other, c'.shown other =
      if place <+: other then some (mask other) else c.shown other) :
    Covered start (insert place covered) c' := by
  refine ⟨h.follows.trans hfollows, ?_, ?_⟩
  · intro q hq other hother
    by_cases hplace : place <+: other
    · exact ⟨mask other, (hshown other).trans (if_pos hplace), hmask other⟩
    · rcases Set.mem_insert_iff.mp hq with rfl | hq
      · exact absurd hother hplace
      · obtain ⟨dir, hdir, hold⟩ := h.masked q hq other hother
        exact ⟨dir, (hshown other).trans ((if_neg hplace).trans hdir), hold⟩
  · intro other hout
    have hplace : ¬ place <+: other := hout place (Set.mem_insert _ _)
    rw [hshown, if_neg hplace]
    exact h.same other fun q hq => hout q (Set.mem_insert_of_mem _ hq)

theorem find_of_plain (hplain : host.Plain (components path)) (c : Contents) :
    host.find c path = (c.shown (c.locate (components path))).bind host.metadata := by
  rw [Host.find, (hplain c).2]

theorem find_of_not_covered (hplain : host.Plain (components path))
    (h : Covered start covered c)
    (hout : ∀ q ∈ covered, ¬ q <+: start.locate (components path)) :
    host.find c path = host.find start path := by
  rw [find_of_plain hplain, find_of_plain hplain, h.follows.locate, h.same _ hout]

/-- What was there at the start lies under a mask when its turn is over. -/
theorem Covered.maskOne (h : Covered start covered c) (hnull : host.Plain (components "/dev/null"))
    (hplain : host.Plain (components path)) (hmask : maskOne host c path = .ok c') :
    ∃ covered', Covered start covered' c' ∧ covered ⊆ covered' ∧
      covered' ⊆ insert (start.locate (components path)) covered ∧
      (host.find start path ≠ none → ∃ q ∈ covered', q <+: start.locate (components path)) := by
  have hlocate := h.follows.locate (components path)
  unfold Hardening.maskOne at hmask
  split at hmask
  next hfind =>
    cases hmask
    refine ⟨covered, h, subset_rfl, Set.subset_insert _ _, ?_⟩
    intro hpresent
    by_contra hnone
    have hout : ∀ q ∈ covered, ¬ q <+: start.locate (components path) :=
      fun q hq hbegins => hnone ⟨q, hq, hbegins⟩
    rw [find_of_not_covered hplain h hout] at hfind
    exact hpresent hfind
  next =>
    obtain ⟨hfollows, hshown⟩ := maskDir_spec (mount_ok hmask)
    rw [(hplain c).1, hlocate] at hshown
    exact ⟨_, h.over hfollows (fun _ => .inl h.follows.next) hshown, Set.subset_insert _ _,
      subset_rfl, fun _ => ⟨_, Set.mem_insert _ _, List.prefix_refl _⟩⟩
  next =>
    obtain ⟨hfollows, null, hseen, hshown⟩ := bindNull_spec (mount_ok hmask)
    rw [(hnull c).1] at hseen
    rw [(hplain c).1, hlocate] at hshown
    exact ⟨_, h.over hfollows (fun _ => (h.mask_null hseen).below _) hshown,
      Set.subset_insert _ _, subset_rfl, fun _ => ⟨_, Set.mem_insert _ _, List.prefix_refl _⟩⟩

theorem Covered.maskPaths {paths : List String} (h : Covered start covered c)
    (hnull : host.Plain (components "/dev/null"))
    (hplain : ∀ path ∈ paths, host.Plain (components path))
    (hmask : maskPaths host paths c = .ok c') :
    ∃ covered', Covered start covered' c' ∧ covered ⊆ covered' ∧
      (∀ q ∈ covered', q ∈ covered ∨ ∃ path ∈ paths, q = start.locate (components path)) ∧
      ∀ path ∈ paths, host.find start path ≠ none →
        ∃ q ∈ covered', q <+: start.locate (components path) := by
  induction paths generalizing c covered with
  | nil =>
      cases hmask
      exact ⟨covered, h, subset_rfl, fun q hq => .inl hq,
        fun path hpath => absurd hpath List.not_mem_nil⟩
  | cons path rest ih =>
      obtain ⟨middle, hone, hrest⟩ := foldlM_cons_eq_ok.mp hmask
      obtain ⟨first, hfirst, hgrow, hbound, hfound⟩ :=
        h.maskOne hnull (hplain path List.mem_cons_self) hone
      obtain ⟨last, hlast, hgrow', hbound', hfound'⟩ :=
        ih hfirst (fun other hother => hplain other (List.mem_cons_of_mem _ hother)) hrest
      refine ⟨last, hlast, hgrow.trans hgrow', ?_, ?_⟩
      · intro q hq
        rcases hbound' q hq with hq | ⟨other, hother, rfl⟩
        · rcases Set.mem_insert_iff.mp (hbound hq) with rfl | hq
          · exact .inr ⟨path, List.mem_cons_self, rfl⟩
          · exact .inl hq
        · exact .inr ⟨other, List.mem_cons_of_mem _ hother, rfl⟩
      · intro other hother hpresent
        rcases List.mem_cons.mp hother with rfl | hother
        · obtain ⟨q, hq, hbegins⟩ := hfound hpresent
          exact ⟨q, hgrow' hq, hbegins⟩
        · exact hfound' other hother hpresent

end masks

/-! ## What only protects -/

/-- Every place shows what it has shown, and what was read-only stays so. -/
structure Protects (c c' : Contents) : Prop where
  follows : Follows c c'
  shown : ∀ place, c'.shown place = c.shown place
  readonly : ∀ place, c.readonlyAt place = true → c'.readonlyAt place = true

section protects
variable {host : Host} {c c' : Contents} {path : String} {leads : List Component → List Name}

theorem Protects.refl (c : Contents) : Protects c c :=
  ⟨Follows.refl c, fun _ => rfl, fun _ h => h⟩

theorem Protects.trans {c'' : Contents} (h : Protects c c') (h' : Protects c' c'') :
    Protects c c'' where
  follows := h.follows.trans h'.follows
  shown place := (h'.shown place).trans (h.shown place)
  readonly place hplace := h'.readonly place (h.readonly place hplace)

theorem remount_protects {call : Call} (h : c.mount leads call = some c')
    (hremount : contains call.flags MS_REMOUNT = true)
    (hro : contains call.flags MS_RDONLY = true) :
    Protects c c' ∧ c'.readonlyAt (leads call.target) = true := by
  obtain ⟨hfollows, hshown, hreadonly⟩ := remount_spec h hremount
  exact ⟨⟨hfollows, hshown, (hreadonly hro).2⟩, (hreadonly hro).1⟩

/-- What a path names is read-only when its turn is over, if it was there. -/
theorem readonlyOne_protects (hplain : host.Plain (components path)) (htidy : Tidy c.layers)
    (h : readonlyOne host c path = .ok c') :
    Protects c c' ∧
      (host.find c path ≠ none → c'.readonlyAt (c.locate (components path)) = true) := by
  unfold readonlyOne at h
  split at h
  next hfind =>
    cases h
    exact ⟨Protects.refl _, fun hpresent => absurd hfind hpresent⟩
  next =>
    obtain ⟨middle, hbind, hremount⟩ := bind_eq_ok.mp h
    obtain ⟨hfollows, hlook⟩ := bindSelf_spec htidy (mount_ok hbind)
    obtain ⟨hprotects, hreadonly⟩ := remount_protects (mount_ok hremount)
      (show contains (MS_BIND ||| MS_REC ||| MS_REMOUNT ||| MS_RDONLY ||| MS_NOSUID ||| MS_NODEV |||
        MS_NOEXEC) MS_REMOUNT = true by decide)
      (show contains (MS_BIND ||| MS_REC ||| MS_REMOUNT ||| MS_RDONLY ||| MS_NOSUID ||| MS_NODEV |||
        MS_NOEXEC) MS_RDONLY = true by decide)
    have hbound : Protects c middle := by
      refine ⟨hfollows, ?_, ?_⟩
      · intro place
        rw [Contents.shown, hlook]
        rfl
      · intro place hplace
        rw [Contents.readonlyAt, hlook]
        exact hplace
    have hplace : host.leads middle (Pivot.remountSelf path).target =
        c.locate (components path) := (hplain middle).1.trans (hfollows.locate _)
    rw [hplace] at hreadonly
    exact ⟨hbound.trans hprotects, fun _ => hreadonly⟩

theorem readonlyPaths_protects {paths : List String}
    (hplain : ∀ path ∈ paths, host.Plain (components path)) (htidy : Tidy c.layers)
    (h : readonlyPaths host paths c = .ok c') :
    Protects c c' ∧ ∀ path ∈ paths, host.find c path ≠ none →
      c'.readonlyAt (c.locate (components path)) = true := by
  induction paths generalizing c with
  | nil =>
      cases h
      exact ⟨Protects.refl _, fun path hpath => absurd hpath List.not_mem_nil⟩
  | cons path rest ih =>
      obtain ⟨middle, hone, hrest⟩ := foldlM_cons_eq_ok.mp h
      obtain ⟨hfirst, hreadonly⟩ :=
        readonlyOne_protects (hplain path List.mem_cons_self) htidy hone
      have hplain' : ∀ other ∈ rest, host.Plain (components other) :=
        fun other hother => hplain other (List.mem_cons_of_mem _ hother)
      obtain ⟨hlater, hothers⟩ := ih hplain' (hfirst.follows.tidy htidy) hrest
      refine ⟨hfirst.trans hlater, ?_⟩
      intro other hother hpresent
      rcases List.mem_cons.mp hother with rfl | hother
      · exact hlater.readonly _ (hreadonly hpresent)
      · have hsame : host.find middle other = host.find c other := by
          rw [find_of_plain (hplain' other hother), find_of_plain (hplain' other hother),
            hfirst.follows.locate, hfirst.shown]
        have hdone := hothers other hother (hsame ▸ hpresent)
        rwa [hfirst.follows.locate] at hdone

theorem remountOne_protects {specMount : Spec.Mount} (h : remountOne host c specMount = .ok c') :
    Protects c c' := by
  unfold remountOne at h
  split at h
  next =>
    cases h
    exact Protects.refl _
  next hasks =>
    split at h
    next =>
      cases h
      exact Protects.refl _
    next =>
      have hasks :
          contains (Mounts.parseOptions (specMount.options.getD [])).flags MS_RDONLY = true := by
        simpa using hasks
      obtain ⟨hremount, hro⟩ :=
        Harden.remountCall_flags specMount ((Mounts.parseOptions_readonly _).mp hasks)
      exact (remount_protects (mount_ok h) hremount hro).1

theorem remountReadonlyMounts_protects {mounts : List Spec.Mount}
    (h : remountReadonlyMounts host mounts c = .ok c') : Protects c c' := by
  induction mounts generalizing c with
  | nil =>
      cases h
      exact Protects.refl _
  | cons specMount rest ih =>
      obtain ⟨middle, hone, hrest⟩ := foldlM_cons_eq_ok.mp h
      exact (remountOne_protects hone).trans (ih hrest)

theorem readonlyRootfs_protects (hplain : host.Plain (components "/"))
    (h : readonlyRootfs host c = .ok c') :
    Protects c c' ∧ c'.readonlyAt (c.locate (components "/")) = true := by
  have hroot : host.leads c Pivot.readonlyRootfs.target = c.locate (components "/") :=
    (hplain c).1
  rw [← hroot]
  exact remount_protects (mount_ok h)
    (show contains (MS_BIND ||| MS_REMOUNT ||| MS_RDONLY) MS_REMOUNT = true by decide)
    (show contains (MS_BIND ||| MS_REMOUNT ||| MS_RDONLY) MS_RDONLY = true by decide)

end protects

/-! ## The whole -/

/-- What a container finds of the paths that its document hides and protects. -/
structure Hardened (host : Host) (plan : Pivot.Plan) (c c' : Contents) : Prop where
  masked : ∀ path ∈ plan.maskedPaths, host.find c path ≠ none →
    ∀ place, c.locate (components path) <+: place → Masked c c' place
  readonly : ∀ path ∈ plan.readonlyPaths, host.find c path ≠ none →
    Masked c c' (c.locate (components path)) ∨ c'.readonlyAt (c.locate (components path)) = true
  rootfs : plan.readonlyRootfs = true → c'.readonlyAt (c.locate (components "/")) = true
  others : ∀ place, (∀ path ∈ plan.maskedPaths, ¬ c.locate (components path) <+: place) →
    c'.shown place = c.shown place

def demoHost : Host where
  metadata := fun dir => some (dir.fs = 0 ∧ dir.path.length ≤ 1)
  leads := fun c path => c.locate path
  names := fun c path => c.locate path
  refuses := fun _ => false

def demoPlan : Pivot.Plan where
  rootfs := "/r"
  overlay := none
  mounts := [{ destination := "/tmp", typ := some "tmpfs", source := none, options := some ["ro"] }]
  devices := []
  rootfsPropagation := none
  console := false
  maskedPaths := ["/sys", "/proc/kcore", "/sys/firmware"]
  readonlyPaths := ["/proc/sys", "/proc", "/sys/fs"]
  readonlyRootfs := true
  userNamespace := false
  host := { unifiedCgroup := true, leads := fun k path => k.locate path,
            isFile := fun _ => false, pathExists := fun _ => true,
            linkExists := fun _ => false, fails := fun _ => false, refuses := fun _ => false }

def demoContents : Contents where
  root := []
  cwd := []
  layers := [
    { mnt := { place := [⟨"tmp", by decide⟩], flags := 0 }, root := { fs := 1, path := [] } },
    { mnt := { place := [], flags := 0 }, root := { fs := 0, path := [] } }]
  next := 2

end Mars.Hardening
