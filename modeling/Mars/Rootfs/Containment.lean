import Mars.Core.Transition
import Mars.Rootfs.Populate

/-! # Filling the rootfs touches nothing outside it

A destination is confined to the rootfs as text, and then walked from the root of
the host, through whatever links the image holds. So what is touched lies inside
where no link is on the way, and else exactly where the links lead inside.
-/

namespace Mars.Populate
open UnixPath Spec MountTable FileTree

variable {setup : Setup} {root : Place} {shows : Place → Tree} {t : Tree}

/-! ## Where links may lead -/

/-- The path of names below the rootfs. -/
def below (setup : Setup) (names : List Name) : List Component :=
  components setup.rootfs ++ names.map .normal

/-- The path of the rootfs leads to its directory. -/
def Rooted (setup : Setup) (root : Place) (t : Tree) : Prop :=
  ∃ k, lead t (components setup.rootfs) = .dir k root

/-- The path goes on from that of the rootfs with names on which no link stands. -/
def Straight (setup : Setup) (root : Place) (t : Tree) (path : List Component) : Prop :=
  Rooted setup root t ∧ ∃ names, path = below setup names ∧ t.Straight root names

/-- Where a file made at the end of the path, or a layer laid over it, comes to lie. -/
def Covered (t : Tree) (path : List Component) (layer : Except Errno Layer) (place : Place) : Prop :=
  lead t path = .missing place [] ∨ Lies t path layer place

def GrowsInside (root : Place) (t : Tree) (path : List Component) : Prop :=
  ∀ place ∈ (grow t path).places, root <+: place

/-- The tree with all directories of the path made. -/
def Grown (t : Tree) (path : List Component) (t' : Tree) : Prop :=
  (grow t path).stop.isSome = true ∧ t' = (grow t path).tree

def ParentGrowsInside (root : Place) (t : Tree) (path : List Component) : Prop :=
  ∀ dir, parent path = some dir → GrowsInside root t dir

def ParentGrown (t : Tree) (path : List Component) (t' : Tree) : Prop :=
  match parent path with
  | some dir => Grown t dir t'
  | none => t' = t

/-- A bound file and the directories it needs, or the directory of any other mount. -/
def MountStays (setup : Setup) (root : Place) (t : Tree) (specMount : Mount) : Prop :=
  let destination := below setup (Mounts.fromRoot specMount.destination)
  let source := specMount.source.getD "none"
  let flags := (Mounts.parseOptions (specMount.options.getD [])).flags
  if contains flags MS_BIND && isFile t setup.cwd (components source) then
    ParentGrowsInside root t destination ∧
      ∀ t', ParentGrown t destination t' →
        ∀ place, Covered t' destination (layer setup.cwd flags source t') place → root <+: place
  else
    GrowsInside root t destination ∧
      ∀ t', Grown t destination t' →
        ∀ place, Lies t' destination (layer setup.cwd flags source t') place → root <+: place

def LinkStays (root : Place) (t : Tree) (path : List Component) : Prop :=
  ∀ place, Free t path place → root <+: place

def PtmxStays (root : Place) (t : Tree) (ptmx : List Component) : Prop :=
  if entryExists t ptmx then
    ∀ old, Removable t ptmx old → root <+: old ∧ LinkStays root (t.put old none) ptmx
  else LinkStays root t ptmx

def BindStays (setup : Setup) (root : Place) (t : Tree) (path : List Component) (host : String) :
    Prop :=
  pathExists t setup.cwd (components host) = true →
    ∀ place, Covered t path (layer setup.cwd MS_BIND host t) place → root <+: place

def NodeStays (setup : Setup) (root : Place) (t : Tree) (path : List Component) (host : String) :
    Prop :=
  entryExists t path = false →
    ParentGrowsInside root t path ∧
      ∀ t', ParentGrown t path t' →
        if setup.userNamespace then BindStays setup root t' path host else LinkStays root t' path

/-- Where a link stands on the way of a turn's path, from the rootfs on, the way leads inside. -/
def TurnStays (setup : Setup) (root : Place) (t : Tree) : Turn → Prop
  | .mount specMount =>
      ¬ Straight setup root t (below setup (Mounts.fromRoot specMount.destination)) →
        MountStays setup root t specMount
  | .ptmx =>
      ¬ Straight setup root t (components (join setup.rootfs "dev")) →
        PtmxStays root t (components (join setup.rootfs "dev/ptmx"))
  | .defaultDevice device =>
      let path := components (join setup.rootfs device.1)
      ¬ Straight setup root t path → NodeStays setup root t path (join "/" device.1)
  | .link pair =>
      let path := components (join setup.rootfs pair.2)
      ¬ Straight setup root t path → entryExists t path = false → LinkStays root t path
  | .extra device =>
      let path := below setup (Mounts.fromRoot device.path)
      ¬ Straight setup root t path → NodeStays setup root t path device.path

/-! ## One turn -/

/-- What is logged is inside, whatever the host refuses. -/
def LogInside {ε : Type} (root : Place) (shows : Place → Tree) (f : Host → Outcome ε) : Prop :=
  ∀ refuse, ∀ place ∈ (f ⟨refuse, shows⟩).1, root <+: place

/-- It is enough to look at a host that refuses nothing. -/
theorem logInside_iff {ε : Type} {f : Host → Outcome ε} (hf : Steady shows f) :
    LogInside root shows f ↔ ∀ place ∈ (f ⟨fun _ => none, shows⟩).1, root <+: place :=
  ⟨fun h => h _, fun h refuse place hmem => h place (hf.log refuse place hmem)⟩

theorem steady_createParent (t : Tree) (path : List Component) :
    Steady shows fun host => createParent host t path := by
  unfold createParent
  cases parent path with
  | none => exact steady_const _
  | some dir => exact (steady_createDirAll t dir).mapError _

theorem mem_createParent {host : Host} {path : List Component} {place : Place}
    (hhost : host.Willing) : place ∈ (createParent host t path).1 ↔
      ∃ dir, parent path = some dir ∧ place ∈ (grow t dir).places := by
  unfold createParent
  cases parent path with
  | none => simp
  | some dir =>
      simp only [Option.some.injEq, exists_eq_left']
      exact mem_createDirAll hhost

theorem createParent_ok {host : Host} {path : List Component} {t' : Tree} (hhost : host.Willing) :
    (createParent host t path).2 = .ok t' ↔ ParentGrown t path t' := by
  unfold createParent ParentGrown
  cases parent path with
  | none => exact ⟨fun h => (Except.ok.inj h).symm, fun h => congrArg Except.ok h.symm⟩
  | some dir => exact mapError_ok.trans (createDirAll_ok hhost)

theorem inside_andThen {ε : Type} {outcome : Outcome ε} {next : Tree → Outcome ε} :
    (∀ place ∈ (outcome.andThen next).1, root <+: place) ↔
      (∀ place ∈ outcome.1, root <+: place) ∧
        ∀ t, outcome.2 = .ok t → ∀ place ∈ (next t).1, root <+: place := by
  constructor
  · intro h
    refine ⟨fun place hmem => h place (mem_andThen.mpr (Or.inl hmem)), ?_⟩
    intro t hok place hmem
    exact h place (mem_andThen.mpr (Or.inr ⟨t, hok, hmem⟩))
  · rintro ⟨hfirst, hnext⟩ place hmem
    rcases mem_andThen.mp hmem with hmem | ⟨t, hok, hmem⟩
    · exact hfirst place hmem
    · exact hnext t hok place hmem

/-- A steady part first, then one that touches no more where a host refuses. -/
theorem logInside_andThen {ε : Type} {f : Host → Outcome ε} {next : Host → Tree → Outcome ε}
    (hf : Steady shows f)
    (hnext : ∀ t refuse, ∀ place ∈ (next ⟨refuse, shows⟩ t).1,
      place ∈ (next ⟨fun _ => none, shows⟩ t).1) :
    LogInside root shows (fun host => (f host).andThen (next host)) ↔
      (∀ place ∈ (f ⟨fun _ => none, shows⟩).1, root <+: place) ∧
        ∀ t', (f ⟨fun _ => none, shows⟩).2 = .ok t' →
          LogInside root shows fun host => next host t' := by
  constructor
  · intro h
    obtain ⟨hfirst, hrest⟩ := inside_andThen.mp (h fun _ => none)
    exact ⟨hfirst, fun t' hok refuse place hmem => hrest t' hok place (hnext t' refuse place hmem)⟩
  · rintro ⟨hfirst, hrest⟩ refuse place hmem
    rcases mem_andThen.mp hmem with hmem | ⟨t', hok, hmem⟩
    · exact hfirst place (hf.log refuse place hmem)
    · exact hrest t' (hf.ok refuse t' hok) refuse place hmem

theorem createParent_inside {host : Host} {path : List Component} (hhost : host.Willing) :
    (∀ place ∈ (createParent host t path).1, root <+: place) ↔ ParentGrowsInside root t path := by
  simp only [mem_createParent hhost, ParentGrowsInside, GrowsInside]
  constructor
  · intro h dir hdir place hmem
    exact h place ⟨dir, hdir, hmem⟩
  · rintro h place ⟨dir, hdir, hmem⟩
    exact h dir hdir place hmem

section layOver
variable {path : List Component} {layer : Tree → Except Errno Layer} {create mount : String}

/-- A file where there is none, and a mount on it. -/
def layOver (host : Host) (t : Tree) (path : List Component) (layer : Tree → Except Errno Layer)
    (create mount : String) : Outcome Error :=
  (io (ensureFile host t path) create).andThen fun t => nix (mountOn host t path (layer t)) mount

theorem steady_layOver : Steady shows fun host => layOver host t path layer create mount :=
  ((steady_ensureFile t path).mapError _).andThen fun t =>
    (steady_mountOn t path (layer t)).mapError _

theorem layOver_inside {host : Host} (hhost : host.Willing) :
    (∀ place ∈ (layOver host t path layer create mount).1, root <+: place) ↔
      ∀ place, Covered t path (layer t) place → root <+: place := by
  have hmem : ∀ place, place ∈ (layOver host t path layer create mount).1 ↔
      Covered t path (layer t) place := by
    intro place
    rw [Covered, ← mem_layOver hhost]
    exact mem_andThen_mapError
  simp only [hmem]

end layOver

theorem steady_mounted {specMount : Mount} :
    Steady shows fun host => mounted setup host t specMount := by
  refine Steady.andThen ?_ fun t => (steady_mountOn t _ _).mapError _
  unfold target
  split
  next => exact (steady_createParent t _).andThen fun t => (steady_ensureFile t _).mapError _
  next => exact (steady_createDirAll t _).mapError _

theorem resolve_below {destination : String} :
    Mounts.resolve setup.rootfs destination = below setup (Mounts.fromRoot destination) :=
  Mounts.resolve_eq setup.rootfs destination

theorem mounted_inside {specMount : Mount} :
    LogInside root shows (fun host => mounted setup host t specMount) ↔
      MountStays setup root t specMount := by
  refine (logInside_iff steady_mounted).trans ?_
  simp only [mounted, target, MountStays, resolve_below]
  split
  next =>
    rw [andThen_assoc, inside_andThen]
    refine and_congr (createParent_inside willing_none) ?_
    refine forall_congr' fun t' => imp_congr (createParent_ok willing_none) ?_
    exact layOver_inside willing_none
  next =>
    rw [inside_andThen]
    refine and_congr ?_ ?_
    · exact forall_congr' fun place => imp_congr_left (mem_createDirAll willing_none)
    · refine forall_congr' fun t' => imp_congr (mapError_ok.trans (createDirAll_ok willing_none)) ?_
      exact forall_congr' fun place =>
        imp_congr_left ⟨mem_mountOn, fun hlies => hlies.mem willing_none⟩

theorem symlink_inside {host : Host} {source path : List Component} (hhost : host.Willing) :
    (∀ place ∈ (symlink host t source path).1, root <+: place) ↔ LinkStays root t path :=
  forall_congr' fun _ => imp_congr_left (mem_make hhost)

theorem steady_linkPtmx : Steady shows fun host => linkPtmx setup host t := by
  refine Steady.andThen ?_ fun t => (steady_make t _ _ _).mapError _
  split
  next => exact (steady_removeFile t _).mapError _
  next => exact steady_const _

theorem linkPtmx_inside :
    LogInside root shows (fun host => linkPtmx setup host t) ↔
      PtmxStays root t (components (join setup.rootfs "dev/ptmx")) := by
  refine (logInside_iff steady_linkPtmx).trans ?_
  simp only [linkPtmx, PtmxStays]
  split
  next =>
    refine (forall_congr' fun place => imp_congr_left
      (mem_andThen_mapError.trans (mem_replace willing_none))).trans ?_
    constructor
    · intro h old hold
      have hlink := fun place hmem => h place ⟨old, hold, Or.inr hmem⟩
      exact ⟨h old ⟨old, hold, Or.inl rfl⟩, (symlink_inside willing_none).mp hlink⟩
    · rintro h place ⟨old, hold, hplace⟩
      obtain ⟨hinside, hlink⟩ := h old hold
      rcases hplace with rfl | hmem
      · exact hinside
      · exact (symlink_inside willing_none).mpr hlink place hmem
  next =>
    rw [inside_andThen]
    constructor
    · rintro ⟨-, hlink⟩
      exact (symlink_inside willing_none).mp (hlink t rfl)
    · intro hlink
      refine ⟨by nofun, ?_⟩
      rintro t' heq
      obtain rfl := Except.ok.inj heq
      exact (symlink_inside willing_none).mpr hlink

theorem steady_bind {device : Device} : Steady shows fun host => bind setup host t device := by
  unfold bind
  split
  next => exact steady_layOver
  next => exact steady_const _

theorem bind_inside {device : Device} :
    LogInside root shows (fun host => bind setup host t device) ↔
      BindStays setup root t device.target device.host := by
  refine (logInside_iff steady_bind).trans ?_
  simp only [bind, BindStays]
  split
  next hexists =>
    simp only [hexists, forall_const]
    exact layOver_inside willing_none
  next hexists =>
    constructor
    · intro _ h
      exact absurd h hexists
    · nofun

theorem not_mem_change {host : Host} {call : FileTree.Call} {place : Place} {f : Errno → Error} :
    place ∉ ((change host t call).mapError f).1 := by
  unfold change
  split <;> nofun

theorem makeNode_free {host : Host} {device : Device} {place : Place}
    (hfree : Free t device.target place)
    (hhost : host.Willing) : place ∈ (makeNode setup host t device).1 := by
  simp only [makeNode, make_free hfree, hhost _]
  exact List.mem_append_left _ (List.mem_singleton.mpr rfl)

/-- A layer over a free place needs a file made there first. -/
theorem mem_bind_free {host : Host} {device : Device} {place made : Place}
    (hfree : Free t device.target place) (hmem : made ∈ (bind setup host t device).1) :
    made = place := by
  unfold bind at hmem
  split at hmem
  next =>
    have hcovered : Covered t device.target (layer setup.cwd MS_BIND device.host t) made :=
      (mem_layOver willing_none).mp
        (mem_andThen_mapError.mp (steady_layOver.log host.refuse made hmem))
    have hlead := hfree.lead
    rcases hcovered with hmissing | ⟨found, -, hover⟩
    · rw [hlead] at hmissing
      cases hmissing
      rfl
    · rw [hlead] at hover
      cases found <;> cases hover
  next => cases hmem

/-- A node that may not be made is bound over a file that is made in its place. -/
theorem mem_makeNode {host : Host} {device : Device} {place : Place}
    (hmem : place ∈ (makeNode setup host t device).1) : Free t device.target place := by
  by_cases hfree : ∃ loc, Free t device.target loc
  · obtain ⟨loc, hloc⟩ := hfree
    rw [makeNode, make_free hloc] at hmem
    cases hrefuse : host.refuse (.mknod device.target device.kind device.mode device.major
        device.minor) with
    | none =>
        rw [hrefuse] at hmem
        rcases mem_andThen.mp hmem with hmem | ⟨t', -, hmem⟩
        · obtain rfl := List.mem_singleton.mp hmem
          exact hloc
        · exact absurd hmem not_mem_change
    | some error =>
        rw [hrefuse] at hmem
        simp only at hmem
        split at hmem
        next =>
          rw [mem_bind_free hloc hmem]
          exact hloc
        next => cases hmem
  · obtain ⟨error, herror, hperm, hoverflow⟩ := make_taken fun loc hloc => hfree ⟨loc, hloc⟩
    rw [makeNode, herror] at hmem
    simp [hperm, hoverflow] at hmem

theorem makeNode_inside {device : Device} :
    LogInside root shows (fun host => makeNode setup host t device) ↔
      LinkStays root t device.target := by
  constructor
  · intro h place hfree
    exact h (fun _ => none) place (makeNode_free hfree willing_none)
  · intro h refuse place hmem
    exact h place (mem_makeNode hmem)

/-- The node without the directories it needs. -/
theorem provided_inside {device : Device} :
    LogInside root shows (fun host =>
        if setup.userNamespace then bind setup host t device else makeNode setup host t device) ↔
      if setup.userNamespace then BindStays setup root t device.target device.host
      else LinkStays root t device.target := by
  cases setup.userNamespace with
  | true => exact bind_inside
  | false => exact makeNode_inside

theorem node_inside {device : Device} :
    LogInside root shows (fun host => node setup host t device) ↔
      NodeStays setup root t device.target device.host := by
  unfold node NodeStays
  cases hexists : entryExists t device.target with
  | true => simp [LogInside]
  | false =>
      simp only [Bool.false_eq_true, ↓reduceIte, forall_const]
      refine (logInside_andThen (steady_createParent t _) ?_).trans ?_
      · intro t' refuse place hmem
        cases huser : setup.userNamespace with
        | true =>
            simp only [huser, ↓reduceIte] at hmem ⊢
            exact steady_bind.log refuse place hmem
        | false =>
            simp only [huser, Bool.false_eq_true, ↓reduceIte] at hmem ⊢
            exact makeNode_free (mem_makeNode hmem) willing_none
      · refine and_congr (createParent_inside willing_none) ?_
        exact forall_congr' fun t' => imp_congr (createParent_ok willing_none) provided_inside

theorem linkOne_inside {pair : String × String} :
    LogInside root shows (fun host => linkOne setup host t pair) ↔
      (entryExists t (components (join setup.rootfs pair.2)) = false →
        LinkStays root t (components (join setup.rootfs pair.2))) := by
  simp only [linkOne]
  cases hexists : entryExists t (components (join setup.rootfs pair.2)) with
  | true => simp [LogInside]
  | false =>
      simp only [Bool.false_eq_true, ↓reduceIte, forall_const]
      refine (logInside_iff ((steady_make t _ _ _).mapError _)).trans ?_
      exact symlink_inside willing_none

theorem extraOne_inside {device : LinuxDevice} :
    LogInside root shows (fun host => extraOne setup host t device) ↔
      NodeStays setup root t (below setup (Mounts.fromRoot device.path)) device.path := by
  have hmem : ∀ host place, place ∈ (extraOne setup host t device).1 ↔
      place ∈ (node setup host t (extraDevice setup device)).1 := by
    intro host place
    rw [extraOne, mem_andThen, or_iff_left]
    rintro ⟨t', -, hmem⟩
    split at hmem
    next => exact not_mem_change hmem
    next => cases hmem
  simp only [LogInside, hmem, ← resolve_below]
  exact node_inside

/-! ## Where no link is on the way -/

section straight
variable {path : List Component} {names : List Name} {layer : Except Errno Layer} {place : Place}

theorem inside_of_spells {cur : Place} {reach : Reach} (h : reach.Spells cur names)
    (hroot : root <+: cur) (hplace : reach.place = some place) : root <+: place := by
  cases reach with
  | dir k loc =>
      obtain rfl := Option.some.inj hplace
      exact h ▸ hroot.trans (List.prefix_append _ _)
  | leaf k loc =>
      obtain rfl := Option.some.inj hplace
      exact h ▸ hroot.trans (List.prefix_append _ _)
  | missing loc rest =>
      obtain rfl := Option.some.inj hplace
      obtain ⟨below, -, -, rfl⟩ := h
      exact hroot.trans (List.prefix_append _ _)
  | blocked => cases hplace

theorem Covered.reached (h : Covered t path layer place) : (lead t path).place = some place := by
  rcases h with hmissing | hlies
  · rw [hmissing]
    rfl
  · exact hlies.reached

theorem lead_below (hroot : Rooted setup root t) (hstraight : t.Straight root names) :
    (lead t (below setup names)).Spells root names := by
  obtain ⟨k, hlead⟩ := hroot
  rw [below, lead, follow_append, ← lead, hlead]
  exact follow_straight hstraight

theorem below_concat {front : List Name} {name : Name} :
    below setup (front ++ [name]) = below setup front ++ [.normal name] := by
  simp [below]

theorem parent_below {front : List Name} {name : Name} :
    parent (below setup (front ++ [name])) = some (below setup front) := by
  have hsome : ¬ (below setup front ++ [Component.normal name] = [] ∨
      below setup front ++ [Component.normal name] = [.rootDir]) := by
    rintro (hnil | hroot)
    · simp at hnil
    · cases (List.append_inj' (hroot.trans (List.nil_append _).symm) rfl).2
  rw [below_concat, parent, if_neg hsome, List.dropLast_concat]

/-- The directories on the way to the rootfs are there. -/
theorem grow_parent (hroot : Rooted setup root t) {dir : List Component}
    (hdir : parent (components setup.rootfs) = some dir) :
    ∃ j cur, grow t dir = ⟨[], t, some (j, cur)⟩ := by
  obtain ⟨k, hlead⟩ := hroot
  unfold parent at hdir
  split at hdir
  next => cases hdir
  next hsome =>
    obtain rfl := Option.some.inj hdir
    have hne : components setup.rootfs ≠ [] := fun hnil => hsome (.inl hnil)
    rw [← List.dropLast_concat_getLast hne, lead_concat] at hlead
    cases hup : lead t (components setup.rootfs).dropLast with
    | dir j cur => exact ⟨j, cur, grow_of_dir hup⟩
    | leaf j cur => rw [hup] at hlead; simp [Reach.andThen] at hlead
    | missing loc rest => rw [hup] at hlead; cases hlead
    | blocked => rw [hup] at hlead; cases hlead

/-- The directories are made inside, and the layer lies on the last. -/
theorem Straight.directory (h : Straight setup root t path) : GrowsInside root t path ∧
    ∀ t', Grown t path t' → ∀ layer place, Lies t' path layer place → root <+: place := by
  obtain ⟨⟨k, hlead⟩, names, rfl, hstraight⟩ := h
  have hgrows : (grow t (below setup names)).Spells t root names := grow_names hlead hstraight
  refine ⟨hgrows.places, ?_⟩
  rintro t' ⟨hsome, rfl⟩ layer place hlies
  obtain ⟨⟨j, cur⟩, hstop⟩ := Option.isSome_iff_exists.mp hsome
  have hplace := hlies.reached
  rw [lead_grow hstop, hgrows.stop j cur hstop] at hplace
  obtain rfl := Option.some.inj hplace
  exact List.prefix_append _ _

/-- The directories are made inside, and what covers the last name lies there. -/
theorem Straight.file (h : Straight setup root t path) : ParentGrowsInside root t path ∧
    ∀ t', ParentGrown t path t' → ∀ place, (lead t' path).place = some place → root <+: place := by
  obtain ⟨hroot, names, rfl, hstraight⟩ := h
  rcases List.eq_nil_or_concat' names with rfl | ⟨front, name, rfl⟩
  · have hpath : below setup [] = components setup.rootfs := List.append_nil _
    rw [hpath]
    constructor
    · intro dir hdir
      obtain ⟨j, cur, hgrow⟩ := grow_parent hroot hdir
      rw [GrowsInside, hgrow]
      nofun
    · intro t' hgrown place hplace
      have hsame : t' = t := by
        unfold ParentGrown at hgrown
        split at hgrown
        next dir hdir =>
          obtain ⟨j, cur, hgrow⟩ := grow_parent hroot hdir
          rw [hgrown.2, hgrow]
        next => exact hgrown
      obtain ⟨k, hlead⟩ := hroot
      rw [hsame, hlead] at hplace
      exact Option.some.inj hplace ▸ List.prefix_rfl
  · obtain ⟨k, hlead⟩ := hroot
    have hfront := hstraight.front (List.prefix_append front [name])
    have hgrows : (grow t (below setup front)).Spells t root front := grow_names hlead hfront
    constructor
    · intro dir hdir
      rw [parent_below] at hdir
      obtain rfl := Option.some.inj hdir
      exact hgrows.places
    · intro t' hgrown place hplace
      rw [ParentGrown, parent_below] at hgrown
      obtain ⟨hsome, rfl⟩ := hgrown
      obtain ⟨⟨j, cur⟩, hstop⟩ := Option.isSome_iff_exists.mp hsome
      obtain rfl := hgrows.stop j cur hstop
      rw [below_concat, lead_concat_dir (lead_grow hstop)] at hplace
      have hlast : (grow t (below setup front)).tree.Straight (root ++ front) [name] := by
        intro more hne hbegins target hlink
        rw [List.append_assoc] at hlink
        exact hstraight (front ++ more) (by simp [hne])
          ((List.prefix_append_right_inj front).mpr hbegins) target (hgrows.links _ target hlink)
      exact inside_of_spells (follow_straight hlast) (List.prefix_append _ _) hplace

/-- A device that is not there is made or bound inside. -/
theorem Straight.node (h : Straight setup root t path) {host : String} :
    NodeStays setup root t path host := by
  intro _
  obtain ⟨hgrows, hcovers⟩ := h.file
  refine ⟨hgrows, ?_⟩
  intro t' hgrown
  split
  next =>
    intro _ place hcovered
    exact hcovers t' hgrown place hcovered.reached
  next =>
    intro place hfree
    exact hcovers t' hgrown place (by rw [hfree.lead]; rfl)

theorem Straight.link (h : Straight setup root t path) : LinkStays root t path := by
  obtain ⟨hroot, names, rfl, hstraight⟩ := h
  intro place hfree
  exact inside_of_spells (lead_below hroot hstraight) List.prefix_rfl (by rw [hfree.lead]; rfl)

theorem Straight.mount {specMount : Mount}
    (h : Straight setup root t (below setup (Mounts.fromRoot specMount.destination))) :
    MountStays setup root t specMount := by
  simp only [MountStays]
  split
  next =>
    obtain ⟨hgrows, hcovers⟩ := h.file
    exact ⟨hgrows, fun t' hgrown place hcovered => hcovers t' hgrown place hcovered.reached⟩
  next =>
    obtain ⟨hgrows, hlies⟩ := h.directory
    exact ⟨hgrows, fun t' hgrown => hlies t' hgrown _⟩

/-- An entry of a directory that a straight path leads to, in a tree that has no more entries. -/
theorem Straight.slot (h : Straight setup root t path) {t' : Tree} {name : Name}
    (hmore : ∀ place node, t' place = some node → t place = some node)
    (hslot : slot t' (path ++ [.normal name]) = .ok place) : root <+: place := by
  obtain ⟨hroot, names, rfl, hstraight⟩ := h
  cases hlead : lead t' (below setup names) with
  | dir k cur =>
      rw [slot_concat hlead] at hslot
      obtain rfl := Except.ok.inj hslot
      have hspells := lead_below hroot hstraight
      rw [lead, follow_mono hmore hlead] at hspells
      rw [hspells, List.append_assoc]
      exact List.prefix_append _ _
  | leaf k cur => simp [FileTree.slot, hlead] at hslot
  | missing cur rest => simp [FileTree.slot, hlead] at hslot
  | blocked => simp [FileTree.slot, hlead] at hslot

theorem Straight.ptmx (h : Straight setup root t path) {name : Name} :
    PtmxStays root t (path ++ [.normal name]) := by
  unfold PtmxStays
  split
  next =>
    rintro old ⟨hslot, -⟩
    refine ⟨h.slot (fun _ _ => id) hslot, ?_⟩
    intro place hfree
    exact h.slot (fun _ _ hnode => put_more (by nofun) hnode) hfree.1
  next =>
    intro place hfree
    exact h.slot (fun _ _ => id) hfree.1

end straight

/-! ## Every turn -/

/-- One turn touches nothing outside exactly if its links lead inside. -/
theorem turn_inside (item : Turn) :
    LogInside root shows (fun host => turn setup host t item) ↔ TurnStays setup root t item := by
  have hunless : ∀ {straight stays : Prop}, (straight → stays) → (stays ↔ (¬ straight → stays)) :=
    fun hstraight =>
      ⟨fun h _ => h, fun h => by_contra fun hnot => hnot (h fun hs => hnot (hstraight hs))⟩
  cases item with
  | mount specMount => exact mounted_inside.trans (hunless Straight.mount)
  | ptmx =>
      have hptmx : components (join setup.rootfs "dev/ptmx") =
          components (join setup.rootfs "dev") ++ [.normal ⟨"ptmx", by decide⟩] := by
        have hdev : components "dev" = [(⟨"dev", by decide⟩ : Name)].map .normal := by decide
        have hboth : components "dev/ptmx" =
            [(⟨"dev", by decide⟩ : Name), ⟨"ptmx", by decide⟩].map .normal := by decide
        rw [components_join_names _ hdev, components_join_names _ hboth]
        simp
      refine linkPtmx_inside.trans (hunless fun hstraight => ?_)
      rw [hptmx]
      exact hstraight.ptmx
  | defaultDevice device =>
      exact node_inside.trans (hunless fun hstraight => Straight.node hstraight)
  | link pair => exact linkOne_inside.trans (hunless fun hstraight _ => hstraight.link)
  | extra device =>
      exact extraOne_inside.trans (hunless fun hstraight => Straight.node hstraight)

/-- The answers of the first turn and those of the turns after it. -/
def answers {α : Type} (first : α) (rest : Nat → α) : Nat → α
  | 0 => first
  | n + 1 => rest n

/-! ## Runs -/

/-- A turn that does not fail leads from tree to tree. -/
def step (setup : Setup) (t : Tree) (e : Turn × Host) : Option Tree :=
  (turn setup e.2 t e.1).2.toOption

def Careful (setup : Setup) (root : Place) (t : Tree) (e : Turn × Host) : Prop :=
  TurnStays setup root t e.1

def events (hosts : Nat → Host) : List Turn → List (Turn × Host)
  | [] => []
  | first :: rest => (first, hosts 0) :: events (fun n => hosts (n + 1)) rest

theorem mem_run {hosts : Nat → Host} {first : Turn} {rest : List Turn} {place : Place} :
    place ∈ (run setup hosts t (first :: rest)).1 ↔
      place ∈ (turn setup (hosts 0) t first).1 ∨
        ∃ t', (turn setup (hosts 0) t first).2 = .ok t' ∧
          place ∈ (run setup (fun n => hosts (n + 1)) t' rest).1 := by
  rw [run, mem_andThen]

theorem step_eq_some {e : Turn × Host} {t' : Tree} :
    step setup t e = some t' ↔ (turn setup e.2 t e.1).2 = .ok t' := by
  unfold step
  cases (turn setup e.2 t e.1).2 <;> simp [Except.toOption]

theorem run_inside (items : List Turn) (shows : Nat → Place → Tree) (t : Tree) :
    (∀ refusals : Nat → FileTree.Call → Option Errno,
      ∀ place ∈ (run setup (fun n => ⟨refusals n, shows n⟩) t items).1, root <+: place) ↔
        ∀ refusals : Nat → FileTree.Call → Option Errno,
          Transition.Along (step setup) (Careful setup root) t
            (events (fun n => ⟨refusals n, shows n⟩) items) := by
  induction items generalizing shows t with
  | nil => simp [run, events, Transition.Along]
  | cons first rest ih =>
      constructor
      · intro h refusals
        refine ⟨(turn_inside first).mp fun refuse place hmem =>
          h (fun _ => refuse) place (mem_run.mpr (Or.inl hmem)), ?_⟩
        split
        next t' hstep =>
          refine (ih _ t').mp (fun later place hmem => ?_) fun n => refusals (n + 1)
          exact h (answers (refusals 0) later) place
            (mem_run.mpr (Or.inr ⟨t', step_eq_some.mp hstep, hmem⟩))
        next => trivial
      · intro h refusals place hmem
        rcases mem_run.mp hmem with hmem | ⟨t', hok, hmem⟩
        · exact (turn_inside first).mpr (h refusals).1 (refusals 0) place hmem
        · refine (ih _ t').mpr (fun later => ?_) (fun n => refusals (n + 1)) place hmem
          have hlater := (h (answers (refusals 0) later)).2
          rw [step_eq_some.mpr hok] at hlater
          exact hlater

/-! ## The rootfs as a whole -/

/-- Whatever the host refuses, everything touched lies in the directory that the path
of the rootfs leads to. -/
def Contained (setup : Setup) (shows : Nat → Place → Tree) (t : Tree) (mounts : List Mount)
    (extra : List LinuxDevice) : Prop :=
  ∀ k root, lead t (components setup.rootfs) = .dir k root →
    ∀ refusals : Nat → FileTree.Call → Option Errno,
      ∀ place ∈ (populate setup (fun n => ⟨refusals n, shows n⟩) t mounts extra).1, root <+: place

/-- Nothing is touched outside exactly if before every turn, in the tree as it stands then, what
links are on the way to its entry lead inside. -/
theorem populate_contained_iff (setup : Setup) (shows : Nat → Place → Tree) (t : Tree)
    (mounts : List Mount) (extra : List LinuxDevice) :
    Contained setup shows t mounts extra ↔
      ∀ k root, lead t (components setup.rootfs) = .dir k root →
        ∀ refusals : Nat → FileTree.Call → Option Errno,
          Transition.Along (step setup) (Careful setup root) t
            (events (fun n => ⟨refusals n, shows n⟩) (turns setup mounts extra)) :=
  forall_congr' fun _ => forall_congr' fun _ => imp_congr_right fun _ => run_inside _ shows t

/-- An image at `/r` whose `dev` is a link to a directory of the host. -/
def linkedImage : Tree := fun place =>
  [(["r"], .dir), (["r", "dev"], .link (components "/srv")), (["srv"], .dir)].lookup
    (place.map (·.text))

def plainSetup : Setup := { rootfs := "/r", cwd := [], userNamespace := false, unifiedHost := true }

/-- A default device is made in the directory of the host. -/
theorem node_made_outside :
    ¬ Contained plainSetup (fun _ _ _ => none) linkedImage [] [] := by
  intro h
  have hmade : [⟨"srv", by decide⟩, ⟨"null", by decide⟩] ∈
      (populate plainSetup (fun _ => ⟨fun _ => none, fun _ _ => none⟩) linkedImage [] []).1 :=
    mem_run.mpr (Or.inl (by decide +kernel))
  have hinside : [(⟨"r", by decide⟩ : Name)] <+: [⟨"srv", by decide⟩, ⟨"null", by decide⟩] :=
    h MAXSYMLINKS [⟨"r", by decide⟩] (by decide +kernel) (fun _ _ => none) _ hmade
  revert hinside
  decide

end Mars.Populate
