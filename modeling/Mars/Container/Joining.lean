import Mars.Container.Placement
import Mars.Core.Namespaces

/-! # Entering namespaces

Which namespaces a container's init gets from the list in its spec, in which order
those with a path are entered, and which ones a process of `exec` ends up in.
-/

namespace Mars.Joining
open Spec Namespace Protocol Namespaces

/-! ## The list and its layout -/

/-- The type and path of a namespace that is joined. -/
def joined (ns : LinuxNamespace) : Option (LinuxNamespaceType × String) :=
  match ns.path with
  | some path => if path = "" then none else some (ns.typ, path)
  | none => none

def Joined (namespaces : List LinuxNamespace) (kind : LinuxNamespaceType) : Prop :=
  kind ∈ (namespaces.filterMap joined).map Prod.fst

instance (namespaces : List LinuxNamespace) (kind : LinuxNamespaceType) :
    Decidable (Joined namespaces kind) :=
  inferInstanceAs (Decidable (_ ∈ _))

/-- Every path that is given leads to something. -/
def PathsExist (pathExists : String → Bool) (namespaces : List LinuxNamespace) : Prop :=
  ∀ entry ∈ namespaces.filterMap joined, pathExists entry.2 = true

instance (pathExists : String → Bool) (namespaces : List LinuxNamespace) :
    Decidable (PathsExist pathExists namespaces) :=
  inferInstanceAs (Decidable (∀ entry ∈ _, _))

def createFlags (flags : CloneFlags) (namespaces : List LinuxNamespace) : CloneFlags :=
  namespaces.foldl (fun flags ns => if (joined ns).isSome then flags else flags ||| flagFor ns.typ)
    flags

section layout
variable {pathExists : String → Bool} {namespaces : List LinuxNamespace}

theorem layoutStep_eq {found : Layout} {ns : LinuxNamespace}
    (h : ∀ entry, joined ns = some entry → pathExists entry.2 = true) :
    layoutStep pathExists found ns = .ok
      { create := if (joined ns).isSome then found.create else found.create ||| flagFor ns.typ
        join := found.join ++ (joined ns).toList } := by
  unfold layoutStep
  cases hpath : ns.path with
  | none => simp [joined, hpath]
  | some path =>
      by_cases hempty : path = ""
      · simp [joined, hpath, hempty]
      · have hexists : pathExists path = true := h (ns.typ, path) (by simp [joined, hpath, hempty])
        simp [joined, hpath, hempty, hexists]

theorem foldlM_layoutStep (found : Layout) (h : PathsExist pathExists namespaces) :
    namespaces.foldlM (layoutStep pathExists) found = .ok
      { create := createFlags found.create namespaces
        join := found.join ++ namespaces.filterMap joined } := by
  induction namespaces generalizing found with
  | nil => simp [createFlags, pure, Except.pure]
  | cons ns rest ih =>
      have hstep : layoutStep pathExists found ns = _ := layoutStep_eq fun entry hentry =>
        h entry (List.mem_filterMap.mpr ⟨ns, List.mem_cons_self, hentry⟩)
      have hrest : PathsExist pathExists rest := fun entry hentry => by
        obtain ⟨ns', hmem, hjoined⟩ := List.mem_filterMap.mp hentry
        exact h entry (List.mem_filterMap.mpr ⟨ns', List.mem_cons_of_mem ns hmem, hjoined⟩)
      rw [List.foldlM_cons, hstep]
      show List.foldlM (layoutStep pathExists) _ rest = _
      rw [ih _ hrest]
      cases hjoined : joined ns <;> simp [createFlags, hjoined]

/-- What is created, and what is joined in the order of the table. -/
theorem layout_eq (h : PathsExist pathExists namespaces) :
    layout pathExists namespaces = .ok
      { create := createFlags 0 namespaces
        join := (namespaces.filterMap joined).insertionSort fun a b =>
          joinRank a.1 ≤ joinRank b.1 } := by
  unfold layout
  rw [foldlM_layoutStep _ h]
  rfl

theorem namespaceTypes_nodup {seen types : List LinuxNamespaceType}
    (h : namespaces.foldlM insertType seen = .ok types) :
    (namespaces.map LinuxNamespace.typ).Nodup ∧
      ∀ kind ∈ namespaces.map LinuxNamespace.typ, kind ∉ seen := by
  induction namespaces generalizing seen with
  | nil => simp
  | cons ns rest ih =>
      rw [List.foldlM_cons, insertType] at h
      by_cases hseen : ns.typ ∈ seen
      · rw [if_pos hseen] at h
        cases h
      · rw [if_neg hseen] at h
        obtain ⟨hrest, hnew⟩ := ih h
        refine ⟨?_, ?_⟩
        · rw [List.map_cons, List.nodup_cons]
          exact ⟨fun hmem => hnew ns.typ hmem List.mem_cons_self, hrest⟩
        · intro kind hmem
          rcases List.mem_cons.mp hmem with rfl | hmem
          · exact hseen
          · exact fun hkind => hnew kind hmem (List.mem_cons_of_mem ns.typ hkind)

theorem joined_typ {ns : LinuxNamespace} {entry : LinuxNamespaceType × String}
    (h : joined ns = some entry) : entry.1 = ns.typ := by
  unfold joined at h
  split at h
  next =>
    split at h
    next => cases h
    next => cases h; rfl
  next => cases h

theorem joined_nodup (h : (namespaces.map LinuxNamespace.typ).Nodup) :
    ((namespaces.filterMap joined).map Prod.fst).Nodup := by
  have hsub : ((namespaces.filterMap joined).map Prod.fst).Sublist
      (namespaces.map LinuxNamespace.typ) := by
    induction namespaces with
    | nil => simp
    | cons ns rest ih =>
        have hrest := ih (List.nodup_cons.mp h).2
        cases hjoined : joined ns with
        | none =>
            rw [List.filterMap_cons_none hjoined]
            exact hrest.cons ns.typ
        | some entry =>
            rw [List.filterMap_cons_some hjoined, List.map_cons, List.map_cons, joined_typ hjoined]
            exact hrest.cons_cons ns.typ
  exact hsub.nodup h

end layout

/-! ## The order of joining -/

def UserFirst (join : List (LinuxNamespaceType × String)) : Prop :=
  .user ∈ join.map Prod.fst → (join.map Prod.fst).head? = some .user

def MountLast (join : List (LinuxNamespaceType × String)) : Prop :=
  .mount ∈ join.map Prod.fst → (join.map Prod.fst).getLast? = some .mount

/-- No path is opened once the process has entered another mount namespace. -/
def OpensBefore (ops : List IntermediateOp) : Prop :=
  ∀ front path back, ops = front ++ .openNamespace path :: back →
    ∀ entered, IntermediateOp.setns .mount entered ∉ front

section order
variable {join : List (LinuxNamespaceType × String)}

theorem userFirst_of_sorted (hsorted : join.Pairwise fun a b => joinRank a.1 ≤ joinRank b.1) :
    UserFirst join := by
  intro hmem
  cases join with
  | nil => cases hmem
  | cons first rest =>
      obtain ⟨entry, hentry, huser⟩ := List.mem_map.mp hmem
      have hrank : joinRank first.1 ≤ joinRank entry.1 := by
        rcases List.mem_cons.mp hentry with rfl | hrest
        · exact le_rfl
        · exact (List.pairwise_cons.mp hsorted).1 entry hrest
      have hfirst : first.1 = .user := by
        have hmin : ∀ kind, joinRank kind ≤ joinRank .user → kind = .user := by
          intro kind
          cases kind <;> decide
        exact hmin first.1 (huser ▸ hrank)
      simp [hfirst]

/-- The last entry has the greatest rank. -/
theorem rank_le_last (hsorted : join.Pairwise fun a b => joinRank a.1 ≤ joinRank b.1)
    {last : LinuxNamespaceType} (hlast : (join.map Prod.fst).getLast? = some last)
    {kind : LinuxNamespaceType} (hmem : kind ∈ join.map Prod.fst) :
    joinRank kind ≤ joinRank last := by
  rw [← List.pairwise_map (R := fun a b => joinRank a ≤ joinRank b)] at hsorted
  rcases List.eq_nil_or_concat (join.map Prod.fst) with hnil | ⟨front, final, hkinds⟩
  · rw [hnil] at hmem
    cases hmem
  · rw [List.concat_eq_append] at hkinds
    rw [hkinds, List.getLast?_concat] at hlast
    obtain rfl := Option.some.inj hlast
    rw [hkinds] at hmem hsorted
    rcases List.mem_append.mp hmem with hfront | hfinal
    · exact (List.pairwise_append.mp hsorted).2.2 kind hfront final (List.mem_singleton.mpr rfl)
    · exact (List.mem_singleton.mp hfinal) ▸ le_rfl

/-- A type that the table does not list goes behind the mount namespace. -/
theorem mountLast_iff (hsorted : join.Pairwise fun a b => joinRank a.1 ≤ joinRank b.1) :
    MountLast join ↔ ¬ (.mount ∈ join.map Prod.fst ∧ .time ∈ join.map Prod.fst) := by
  constructor
  · rintro hlast ⟨hmount, htime⟩
    exact absurd (rank_le_last hsorted (hlast hmount) htime) (by decide)
  · intro hnot hmount
    obtain ⟨last, hlast⟩ := Option.ne_none_iff_exists'.mp
      (mt List.getLast?_eq_none_iff.mp (List.ne_nil_of_mem hmount))
    have hrank := rank_le_last hsorted hlast hmount
    have hmax : ∀ kind, joinRank .mount ≤ joinRank kind → kind = .mount ∨ kind = .time := by
      intro kind
      cases kind <;> decide
    rcases hmax last hrank with rfl | rfl
    · exact hlast
    · exact absurd ⟨hmount, List.mem_of_getLast? hlast⟩ hnot

theorem opensBefore_of_mountLast (hdistinct : (join.map Prod.fst).Nodup) (hlast : MountLast join) :
    OpensBefore (join.flatMap fun entry => [.openNamespace entry.2, .setns entry.1 entry.2]) := by
  induction join with
  | nil =>
      intro front path back heq
      cases front <;> cases heq
  | cons first rest ih =>
      obtain ⟨hnew, hrest⟩ := List.nodup_cons.mp hdistinct
      have hlater : .mount ∈ rest.map Prod.fst → (rest.map Prod.fst).getLast? = some .mount := by
        intro hmem
        have hthere := hlast (List.mem_cons_of_mem first.1 hmem)
        rwa [List.map_cons, List.getLast?_cons_of_ne_nil (List.ne_nil_of_mem hmem)] at hthere
      intro front path back heq entered hmem
      match front, heq with
      | [], _ => cases hmem
      | [_], heq => cases heq
      | _ :: _ :: front, heq =>
          simp only [List.flatMap_cons, List.cons_append, List.nil_append, List.cons.injEq] at heq
          obtain ⟨rfl, rfl, heq⟩ := heq
          rcases List.mem_cons.mp hmem with hopen | hmem
          · cases hopen
          · rcases List.mem_cons.mp hmem with hsetns | hmem
            · -- something is opened behind it, so it is not the last
              have hmount : first.1 = .mount := by
                simp only [IntermediateOp.setns.injEq] at hsetns
                exact hsetns.1.symm
              have hne : rest ≠ [] := by
                rintro rfl
                cases front <;> cases heq
              have hthere := hlast (by rw [List.map_cons, hmount]; exact List.mem_cons_self)
              have hmap : rest.map Prod.fst ≠ [] := by simpa using hne
              rw [List.map_cons, List.getLast?_cons_of_ne_nil hmap] at hthere
              exact hnew (hmount ▸ List.mem_of_getLast? hthere)
            · exact ih hrest hlater front path back heq entered hmem

end order

theorem pairwise_joinRank (entries : List (LinuxNamespaceType × String)) :
    (entries.insertionSort fun a b => joinRank a.1 ≤ joinRank b.1).Pairwise
      fun a b => joinRank a.1 ≤ joinRank b.1 := by
  have htotal : Std.Total fun a b : LinuxNamespaceType × String => joinRank a.1 ≤ joinRank b.1 :=
    ⟨fun a b => Nat.le_total (joinRank a.1) (joinRank b.1)⟩
  have htrans : IsTrans (LinuxNamespaceType × String) fun a b => joinRank a.1 ≤ joinRank b.1 :=
    ⟨fun _ _ _ => Nat.le_trans⟩
  exact List.pairwise_insertionSort _ entries

/-- The plan that `create` makes from the list. -/
def Planned (pathExists : String → Bool) (namespaces : List LinuxNamespace) (plan : Plan) : Prop :=
  ∃ found, layout pathExists namespaces = .ok found ∧ plan.join = found.join ∧
    plan.unshareFlags = without found.create CLONE_NEWCGROUP ∧
      plan.cgroupNs = contains found.create CLONE_NEWCGROUP

/-- The user namespace is entered first, the mount namespace last, and whatever has a
path is opened before that. -/
def Ordered (plan : Plan) : Prop :=
  UserFirst plan.join ∧ MountLast plan.join ∧ OpensBefore (joinExisting plan)

theorem planned_kinds {pathExists : String → Bool} {namespaces : List LinuxNamespace} {plan : Plan}
    (hexist : PathsExist pathExists namespaces) (hplan : Planned pathExists namespaces plan) :
    (plan.join.map Prod.fst).Perm ((namespaces.filterMap joined).map Prod.fst) := by
  obtain ⟨found, hlayout, hjoin, -⟩ := hplan
  rw [layout_eq hexist] at hlayout
  obtain rfl := Except.ok.inj hlayout
  rw [hjoin]
  exact (List.perm_insertionSort _ _).map Prod.fst

theorem join_order_iff {pathExists : String → Bool} {namespaces : List LinuxNamespace}
    {types : List LinuxNamespaceType} {plan : Plan}
    (hvalid : namespaceTypes namespaces = .ok types) (hexist : PathsExist pathExists namespaces)
    (hplan : Planned pathExists namespaces plan) :
    Ordered plan ↔ ¬ (Joined namespaces .mount ∧ Joined namespaces .time) := by
  have hperm := planned_kinds hexist hplan
  have hkinds : ∀ kind, kind ∈ plan.join.map Prod.fst ↔ Joined namespaces kind :=
    fun kind => hperm.mem_iff
  have hdistinct : (plan.join.map Prod.fst).Nodup :=
    hperm.nodup_iff.mpr (joined_nodup (namespaceTypes_nodup hvalid).1)
  obtain ⟨found, hlayout, hjoin, -⟩ := hplan
  rw [layout_eq hexist] at hlayout
  obtain rfl := Except.ok.inj hlayout
  have hsorted : plan.join.Pairwise fun a b => joinRank a.1 ≤ joinRank b.1 := by
    rw [hjoin]
    exact pairwise_joinRank _
  have hmount := mountLast_iff hsorted
  rw [hkinds, hkinds] at hmount
  constructor
  · rintro ⟨-, hlast, -⟩
    exact hmount.mp hlast
  · intro hnot
    have hlast := hmount.mpr hnot
    exact ⟨userFirst_of_sorted hsorted, hlast, opensBefore_of_mountLast hdistinct hlast⟩

def threePaths : List LinuxNamespace :=
  [⟨.mount, some "/proc/7/ns/mnt"⟩, ⟨.pid, some "/proc/7/ns/pid"⟩, ⟨.user, some "/proc/7/ns/user"⟩]

def timeAndMount : List LinuxNamespace :=
  [⟨.mount, some "/proc/7/ns/mnt"⟩, ⟨.time, some "/proc/7/ns/time"⟩]

def planOf (found : Layout) : Plan :=
  { Placement.userPlan with
    unshareFlags := without found.create CLONE_NEWCGROUP
    join := found.join
    cgroupNs := contains found.create CLONE_NEWCGROUP }

theorem planned_planOf {pathExists : String → Bool} {namespaces : List LinuxNamespace}
    (h : PathsExist pathExists namespaces) : Planned pathExists namespaces
      (planOf ⟨createFlags 0 namespaces, (namespaces.filterMap joined).insertionSort fun a b =>
        joinRank a.1 ≤ joinRank b.1⟩) :=
  ⟨_, layout_eq h, rfl, rfl, rfl⟩

def threePlan : Plan :=
  planOf ⟨createFlags 0 threePaths, (threePaths.filterMap joined).insertionSort
    fun a b => joinRank a.1 ≤ joinRank b.1⟩

/-- Without a time namespace among them the three are joined in order. -/
theorem join_order_iff_three :
    (Ordered threePlan ↔ ¬ (Joined threePaths .mount ∧ Joined threePaths .time)) ∧
      Ordered threePlan := by
  have hvalid : namespaceTypes threePaths = .ok [.user, .pid, .mount] := by decide
  have hexist : PathsExist (fun _ => true) threePaths := by decide
  have hiff := join_order_iff hvalid hexist (planned_planOf hexist)
  exact ⟨hiff, hiff.mpr (by decide)⟩

def lateTime : Plan := planOf ⟨0, [(.mount, "/proc/7/ns/mnt"), (.time, "/proc/7/ns/time")]⟩

/-- The path of the time namespace is opened in the mount namespace that was joined. -/
theorem time_opened_after_mount :
    namespaceTypes timeAndMount = .ok [.time, .mount] ∧ PathsExist (fun _ => true) timeAndMount ∧
      Planned (fun _ => true) timeAndMount lateTime ∧
        ¬ MountLast lateTime.join ∧ ¬ OpensBefore (joinExisting lateTime) := by
  refine ⟨by decide, by decide, ⟨_, layout_eq (by decide), rfl, by decide, by decide⟩, ?_, ?_⟩
  · exact fun hlast => absurd (hlast (by decide)) (by decide)
  · intro h
    exact h [.openNamespace "/proc/7/ns/mnt", .setns .mount "/proc/7/ns/mnt"] "/proc/7/ns/time"
      [.setns .time "/proc/7/ns/time"] rfl "/proc/7/ns/mnt" (by decide)

/-! ## The namespaces of init -/

def NS_NAMES : List (String × LinuxNamespaceType) := [
  ("user", .user),
  ("mnt", .mount),
  ("uts", .uts),
  ("ipc", .ipc),
  ("pid", .pid),
  ("net", .network),
  ("time", .time),
  ("cgroup", .cgroup)]

/-- The namespaces that paths lead to in a mount namespace, and those that are made. -/
structure Host where
  opens : Nat → String → Nat
  fresh : LinuxNamespaceType → Nat

abbrev Spaces := Namespaces.Spaces LinuxNamespaceType

def setnsDelayed (kind : LinuxNamespaceType) : Bool := kind = .pid

def unshareDelayed (kind : LinuxNamespaceType) : Bool := kind = .pid || kind = .time

/-- What a step does to the namespaces of the process, and the handle opened last. -/
def effect (host : Host) : Spaces × Nat → IntermediateOp → Spaces × Nat
  | (s, _), .openNamespace path => (s, host.opens (s.own .mount) path)
  | (s, handle), .setns kind _ => (s.enter setnsDelayed kind handle, handle)
  | (s, handle), .unshare name =>
      match NS_NAMES.lookup name with
      | some kind => (s.enter unshareDelayed kind (host.fresh kind), handle)
      | none => (s, handle)
  | state, _ => state

/-- Init's namespaces when everything that concerns them has gone through. The
intermediate is a child of the runtime, init one of the intermediate's, and the
cgroup namespace is made by init itself. -/
def initSpaces (host : Host) (plan : Plan) (runtime : Spaces) : Spaces :=
  let s := ((stageOne plan).foldl (effect host) (runtime.fork, 0)).1.fork
  if plan.cgroupNs then s.enter unshareDelayed .cgroup (host.fresh .cgroup) else s

/-- The kind whose namespace a step changes. -/
def changes : IntermediateOp → Option LinuxNamespaceType
  | .setns kind _ => some kind
  | .unshare name => NS_NAMES.lookup name
  | _ => none

section spaces
variable {host : Host} {ops : List IntermediateOp} {st : Spaces × Nat} {kind : LinuxNamespaceType}

theorem children_effect {op : IntermediateOp} (h : changes op ≠ some kind) :
    (effect host st op).1.children kind = st.1.children kind := by
  cases op with
  | setns other path =>
      have hne : kind ≠ other := fun heq => h (congrArg some heq.symm)
      exact Spaces.children_enter_other hne
  | unshare name =>
      simp only [effect]
      split
      next other hname =>
        have hne : kind ≠ other := fun heq => h (hname.trans (congrArg some heq.symm))
        exact Spaces.children_enter_other hne
      next => rfl
  | _ => rfl

theorem children_effects (h : ∀ op ∈ ops, changes op ≠ some kind) :
    (ops.foldl (effect host) st).1.children kind = st.1.children kind := by
  induction ops generalizing st with
  | nil => rfl
  | cons op rest ih =>
      rw [List.foldl_cons, ih fun o ho => h o (List.mem_cons_of_mem op ho)]
      exact children_effect (h op List.mem_cons_self)

/-- A kind that is only made, and made somewhere, is fresh in the end. -/
theorem children_effects_fresh {name : String} (hname : NS_NAMES.lookup name = some kind)
    (hmem : .unshare name ∈ ops)
    (honly : ∀ op ∈ ops, changes op = some kind → op = .unshare name) :
    (ops.foldl (effect host) st).1.children kind = host.fresh kind := by
  induction ops generalizing st with
  | nil => cases hmem
  | cons op rest ih =>
      rw [List.foldl_cons]
      have hrest : ∀ o ∈ rest, changes o = some kind → o = .unshare name :=
        fun o ho => honly o (List.mem_cons_of_mem op ho)
      by_cases hlater : .unshare name ∈ rest
      · exact ih hlater hrest
      · have hop : op = .unshare name := by
          rcases List.mem_cons.mp hmem with heq | hmem
          · exact heq.symm
          · exact absurd hmem hlater
        rw [children_effects fun o ho hchanges => hlater (hrest o ho hchanges ▸ ho), hop]
        simp only [effect, hname, Spaces.children_enter_self]

end spaces

/-- A namespace that the list has without a path. -/
def Created (namespaces : List LinuxNamespace) (kind : LinuxNamespaceType) : Prop :=
  ∃ ns ∈ namespaces, ns.typ = kind ∧ joined ns = none

section created
variable {pathExists : String → Bool} {namespaces : List LinuxNamespace} {plan : Plan}
  {kind : LinuxNamespaceType} {host : Host} {runtime : Spaces}

theorem created_cons {ns : LinuxNamespace} {rest : List LinuxNamespace} :
    Created (ns :: rest) kind ↔ (ns.typ = kind ∧ joined ns = none) ∨ Created rest kind := by
  simp [Created]

theorem contains_createFlags (flags : CloneFlags) :
    contains (createFlags flags namespaces) (flagFor kind) = true ↔
      contains flags (flagFor kind) = true ∨ Created namespaces kind := by
  induction namespaces generalizing flags with
  | nil => simp [createFlags, Created]
  | cons ns rest ih =>
      show contains (createFlags _ rest) (flagFor kind) = true ↔ _
      rw [ih, created_cons]
      cases hjoined : joined ns with
      | some entry => simp [hjoined]
      | none =>
          have hflag : contains (flags ||| flagFor ns.typ) (flagFor kind) = true ↔
              contains flags (flagFor kind) = true ∨ ns.typ = kind := by
            rw [contains_or, Bool.or_eq_true, decide_eq_true_eq, @eq_comm _ kind]
          simp only [hjoined, Option.isSome_none, Bool.false_eq_true, ↓reduceIte, hflag, or_assoc,
            and_true]

theorem planned_flags (hexist : PathsExist pathExists namespaces)
    (hplan : Planned pathExists namespaces plan) (kind : LinuxNamespaceType) :
    (contains plan.unshareFlags (flagFor kind) = true ↔ kind ≠ .cgroup ∧ Created namespaces kind) ∧
      (plan.cgroupNs = true ↔ Created namespaces .cgroup) := by
  obtain ⟨found, hlayout, -, hunshare, hcgroup⟩ := hplan
  rw [layout_eq hexist] at hlayout
  obtain rfl := Except.ok.inj hlayout
  have hflags : ∀ kind, contains (createFlags 0 namespaces) (flagFor kind) = true ↔
      Created namespaces kind := by
    intro kind
    have hnone : contains 0 (flagFor kind) = false := by
      cases kind <;> decide
    rw [contains_createFlags, hnone]
    simp
  refine ⟨?_, ?_⟩
  · rw [hunshare]
    show contains (without (createFlags 0 namespaces) (flagFor .cgroup)) (flagFor kind) = true ↔ _
    rw [contains_without, Bool.and_eq_true, hflags]
    simp [and_comm]
  · rw [hcgroup]
    exact hflags .cgroup

/-- The table of `unshare` has the flag of each type under its name. -/
theorem unshareOrder_flags : ∀ entry ∈ unshareOrder,
    (NS_NAMES.lookup entry.1).map flagFor = some entry.2 := by
  decide

/-- The steps of the intermediate that change a namespace are those of the list. -/
theorem stageOne_changes {op : IntermediateOp} (hop : op ∈ stageOne plan)
    (hchanges : changes op = some kind) : kind ∈ plan.join.map Prod.fst ∨
      ∃ name, op = .unshare name ∧ (name, flagFor kind) ∈ unshareOrder ∧
        contains plan.unshareFlags (flagFor kind) = true := by
  simp only [stageOne, List.cons_append, List.mem_cons, List.mem_append, List.not_mem_nil,
    or_false] at hop
  rcases hop with rfl | ((hjoin | hunshare) | hmap) | rfl | rfl | rfl
  · cases hchanges
  · left
    obtain ⟨entry, hentry, hmem⟩ := List.mem_flatMap.mp hjoin
    rcases List.mem_cons.mp hmem with rfl | hmem
    · cases hchanges
    · obtain rfl := List.mem_singleton.mp hmem
      obtain rfl := Option.some.inj hchanges
      exact List.mem_map_of_mem hentry
  · right
    obtain ⟨entry, hentry, hmem⟩ := List.mem_flatMap.mp hunshare
    unfold ifTrue at hmem
    split at hmem
    next hflag =>
      rcases List.mem_cons.mp hmem with rfl | hmem
      · have hentryFlag := unshareOrder_flags entry hentry
        rw [show NS_NAMES.lookup entry.1 = some kind from hchanges, Option.map_some,
          Option.some.injEq] at hentryFlag
        exact ⟨entry.1, rfl, hentryFlag ▸ hentry, hentryFlag ▸ hflag⟩
      · split at hmem
        next =>
          obtain rfl := List.mem_singleton.mp hmem
          cases hchanges
        next => cases hmem
    next => cases hmem
  · unfold mapUser ifTrue at hmap
    split at hmap
    next =>
      simp only [List.mem_cons, List.not_mem_nil, or_false] at hmap
      rcases hmap with rfl | rfl | rfl | rfl <;> cases hchanges
    next => cases hmap
  · cases hchanges
  · cases hchanges
  · cases hchanges

theorem unshareOrder_distinct : ∀ a ∈ unshareOrder, ∀ b ∈ unshareOrder, a.2 = b.2 → a.1 = b.1 := by
  decide

/-- Every type but the cgroup's has an entry. -/
theorem unshareOrder_complete (hkind : kind ≠ .cgroup) :
    ∃ name, (name, flagFor kind) ∈ unshareOrder ∧ NS_NAMES.lookup name = some kind := by
  cases kind with
  | mount => exact ⟨"mnt", by decide, by decide⟩
  | cgroup => exact absurd rfl hkind
  | uts => exact ⟨"uts", by decide, by decide⟩
  | ipc => exact ⟨"ipc", by decide, by decide⟩
  | user => exact ⟨"user", by decide, by decide⟩
  | pid => exact ⟨"pid", by decide, by decide⟩
  | network => exact ⟨"net", by decide, by decide⟩
  | time => exact ⟨"time", by decide, by decide⟩

theorem not_joined_of_created (hdistinct : (namespaces.map LinuxNamespace.typ).Nodup)
    (hcreated : Created namespaces kind) : ¬ Joined namespaces kind := by
  intro hjoined
  obtain ⟨ns, hmem, hkind, hnone⟩ := hcreated
  obtain ⟨entry, hentry, hentryKind⟩ := List.mem_map.mp hjoined
  obtain ⟨other, hother, hsome⟩ := List.mem_filterMap.mp hentry
  have hsame : other.typ = ns.typ := by
    rw [hkind, ← hentryKind, joined_typ hsome]
  rw [List.inj_on_of_nodup_map hdistinct hother hmem hsame, hnone] at hsome
  cases hsome

/-- Outside the cgroup namespace, init has what the intermediate's children get. -/
theorem own_initSpaces (hkind : kind ≠ .cgroup ∨ plan.cgroupNs = false) :
    (initSpaces host plan runtime).own kind =
      ((stageOne plan).foldl (effect host) (runtime.fork, 0)).1.children kind := by
  unfold initSpaces
  cases hcgroup : plan.cgroupNs with
  | false => rfl
  | true =>
      rcases hkind with hkind | hkind
      · show Function.update _ _ _ kind = _
        rw [Function.update_of_ne hkind]
        rfl
      · rw [hcgroup] at hkind
        cases hkind

/-- Init has a new namespace of each kind that is listed without a path, and the
runtime's of each kind that is not listed. -/
theorem initSpaces_own {types : List LinuxNamespaceType}
    (hvalid : namespaceTypes namespaces = .ok types)
    (hexist : PathsExist pathExists namespaces) (hplan : Planned pathExists namespaces plan)
    (kind : LinuxNamespaceType) (host : Host) (runtime : Spaces) :
    (Created namespaces kind → (initSpaces host plan runtime).own kind = host.fresh kind) ∧
      (¬ Created namespaces kind → ¬ Joined namespaces kind →
        (initSpaces host plan runtime).own kind = runtime.children kind) := by
  have hflags := planned_flags hexist hplan
  have hcgroup := (hflags kind).2
  have hflag := (hflags kind).1
  have hjoin : kind ∈ plan.join.map Prod.fst ↔ Joined namespaces kind :=
    (planned_kinds hexist hplan).mem_iff
  constructor
  · intro hcreated
    by_cases hkind : kind = .cgroup
    · subst hkind
      rw [initSpaces, if_pos (hcgroup.mpr hcreated)]
      simp [Spaces.enter, unshareDelayed]
    · rw [own_initSpaces (Or.inl hkind)]
      obtain ⟨name, horder, hname⟩ := unshareOrder_complete hkind
      apply children_effects_fresh hname
      · have hall : IntermediateOp.unshare name ∈ unshareAll plan := by
          refine List.mem_flatMap.mpr ⟨_, horder, ?_⟩
          rw [ifTrue, if_pos (hflag.mpr ⟨hkind, hcreated⟩)]
          exact List.mem_cons_self
        simp [stageOne, hall]
      · intro op hop hchanges
        rcases stageOne_changes hop hchanges with hjoined | ⟨other, rfl, hother, -⟩
        · have hnot := not_joined_of_created (namespaceTypes_nodup hvalid).1 hcreated
          exact absurd (hjoin.mp hjoined) hnot
        · exact congrArg IntermediateOp.unshare (unshareOrder_distinct _ hother _ horder rfl)
  · intro hcreated hjoined
    have hkind : kind ≠ .cgroup ∨ plan.cgroupNs = false := by
      by_cases hkind : kind = .cgroup
      · right
        rw [Bool.eq_false_iff]
        exact fun h => hcreated (hkind ▸ hcgroup.mp h)
      · exact Or.inl hkind
    rw [own_initSpaces hkind, children_effects]
    · rfl
    · intro op hop hchanges
      rcases stageOne_changes hop hchanges with hmem | ⟨-, -, -, hcontains⟩
      · exact hjoined (hjoin.mp hmem)
      · exact hcreated (hflag.mp hcontains).2

end created

end Mars.Joining

/-! ## Entering the container's namespaces -/

namespace Mars.ExecJoin
open Spec Namespaces Joining Protocol
open Namespace (CLONE_NEWTIME CLONE_NEWUTS)

/-- What is entered, each with the flag of its type. -/
def JOIN_ORDER : List (String × LinuxNamespaceType) := [
  ("user", .user),
  ("ipc", .ipc),
  ("uts", .uts),
  ("net", .network),
  ("pid", .pid),
  ("cgroup", .cgroup),
  ("mnt", .mount)]

/-- What the runtime gets to know about `/proc/<init>/ns` and `/proc/self/ns`. -/
structure Probe where
  theirsExists : String → Bool
  readsOurs : String → Bool
  readsTheirs : String → Bool
  opens : String → Bool

/-- The namespaces are compared as long as both links can be read. -/
def skips (probe : Probe) (self init : Spaces) (entry : String × LinuxNamespaceType) : Bool :=
  !probe.theirsExists entry.1 ||
    probe.readsOurs entry.1 && probe.readsTheirs entry.1 && self.own entry.2 == init.own entry.2

def nsPath (pid : Int) (name : String) : String :=
  "/proc/" ++ toString pid ++ "/ns/" ++ name

def collectStep (probe : Probe) (pid : Int) (self init : Spaces)
    (joins : List (LinuxNamespaceType × Nat)) (entry : String × LinuxNamespaceType) :
    Except Error (List (LinuxNamespaceType × Nat)) :=
  if skips probe self init entry then .ok joins
  else if probe.opens entry.1 then .ok (joins ++ [(entry.2, init.own entry.2)])
  else .error (.nix ("open " ++ nsPath pid entry.1))

def collect (probe : Probe) (pid : Int) (self init : Spaces) :
    Except Error (List (LinuxNamespaceType × Nat)) :=
  JOIN_ORDER.foldlM (collectStep probe pid self init) []

def enterOne (refuses : LinuxNamespaceType → Bool) (pid : Int) (s : Spaces)
    (entry : LinuxNamespaceType × Nat) : Except Error Spaces :=
  if refuses entry.1 then
    let name := (JOIN_ORDER.find? (·.2 = entry.1)).elim "" Prod.fst
    .error (.nix ("setns into the container's " ++ name ++ " namespace (" ++ nsPath pid name ++ ")"))
  else .ok (s.enter setnsDelayed entry.1 entry.2)

/-- The process that `exec` forks once it has entered everything it collected. -/
def exec (probe : Probe) (refuses : LinuxNamespaceType → Bool) (pid : Int) (self init : Spaces) :
    Except Error Spaces :=
  match collect probe pid self init with
  | .error error => .error error
  | .ok joins => (joins.foldlM (enterOne refuses pid) self).map Spaces.fork

section exec
variable {probe : Probe} {refuses : LinuxNamespaceType → Bool} {pid : Int} {self init child : Spaces}

/-- What is collected, if nothing fails. -/
def wanted (probe : Probe) (self init : Spaces) (order : List (String × LinuxNamespaceType)) :
    List (LinuxNamespaceType × Nat) :=
  (order.filter fun entry => !skips probe self init entry).map fun entry =>
    (entry.2, init.own entry.2)

theorem collect_fold {order : List (String × LinuxNamespaceType)}
    {front joins : List (LinuxNamespaceType × Nat)}
    (h : order.foldlM (collectStep probe pid self init) front = .ok joins) :
    joins = front ++ wanted probe self init order := by
  induction order generalizing front with
  | nil =>
      obtain rfl := Except.ok.inj h
      simp [wanted]
  | cons entry rest ih =>
      rw [List.foldlM_cons, collectStep] at h
      cases hskip : skips probe self init entry with
      | true =>
          rw [hskip, if_pos rfl] at h
          rw [ih h]
          simp [wanted, hskip]
      | false =>
          rw [hskip, if_neg Bool.false_ne_true] at h
          split at h
          next =>
            rw [ih h]
            simp [wanted, hskip]
          next => cases h

theorem enterAll_fold {entries : List (LinuxNamespaceType × Nat)} {s s' : Spaces}
    (h : entries.foldlM (enterOne refuses pid) s = .ok s') :
    s' = s.enterAll setnsDelayed entries := by
  induction entries generalizing s with
  | nil => exact (Except.ok.inj h).symm
  | cons entry rest ih =>
      rw [List.foldlM_cons, enterOne] at h
      split at h
      next => cases h
      next => exact ih h

theorem exec_ok (h : exec probe refuses pid self init = .ok child) :
    child = (self.enterAll setnsDelayed (wanted probe self init JOIN_ORDER)).fork := by
  unfold exec at h
  split at h
  next => cases h
  next joins hcollect =>
    have hjoins : joins = wanted probe self init JOIN_ORDER := collect_fold hcollect
    cases henter : joins.foldlM (enterOne refuses pid) self with
    | error error =>
        rw [henter] at h
        cases h
    | ok s =>
        rw [henter] at h
        obtain rfl := Except.ok.inj h
        rw [← hjoins, ← enterAll_fold henter]

/-- A host that lets everything through. -/
theorem exec_willing (hopens : ∀ name, probe.opens name = true) :
    exec probe (fun _ => false) pid self init =
      .ok (self.enterAll setnsDelayed (wanted probe self init JOIN_ORDER)).fork := by
  have hcollect : ∀ (order : List (String × LinuxNamespaceType)) front,
      order.foldlM (collectStep probe pid self init) front =
        .ok (front ++ wanted probe self init order) := by
    intro order
    induction order with
    | nil => intro front; simp [wanted, pure, Except.pure]
    | cons entry rest ih =>
        intro front
        rw [List.foldlM_cons, collectStep]
        cases hskip : skips probe self init entry with
        | true =>
            rw [if_pos rfl]
            show List.foldlM _ front rest = _
            rw [ih]
            simp [wanted, hskip]
        | false =>
            rw [if_neg Bool.false_ne_true, if_pos (hopens entry.1)]
            show List.foldlM _ _ rest = _
            rw [ih]
            simp [wanted, hskip]
  have henter : ∀ (entries : List (LinuxNamespaceType × Nat)) (s : Spaces),
      entries.foldlM (enterOne (fun _ => false) pid) s = .ok (s.enterAll setnsDelayed entries) := by
    intro entries
    induction entries with
    | nil => exact fun s => rfl
    | cons entry rest ih =>
        intro s
        rw [List.foldlM_cons]
        exact ih _
  rw [exec, collect, hcollect, List.nil_append]
  simp only [henter]
  rfl

/-- The name under which the namespace of a kind is looked up. -/
def nsName (kind : LinuxNamespaceType) : String :=
  ((NS_NAMES.find? (·.2 = kind)).map Prod.fst).getD ""

theorem join_order_mem (entry : String × LinuxNamespaceType) :
    entry ∈ JOIN_ORDER ↔ entry.1 = nsName entry.2 ∧ entry.2 ≠ .time := by
  obtain ⟨name, kind⟩ := entry
  cases kind <;> simp [JOIN_ORDER, nsName, NS_NAMES]

/-- The namespaces of the child are those of init where they are entered. -/
theorem own_child (kind : LinuxNamespaceType) :
    (self.enterAll setnsDelayed (wanted probe self init JOIN_ORDER)).fork.own kind =
      if kind ≠ .time ∧ skips probe self init (nsName kind, kind) = false then init.own kind
      else self.children kind := by
  have hmem : kind ∈ (wanted probe self init JOIN_ORDER).map Prod.fst ↔
      kind ≠ .time ∧ skips probe self init (nsName kind, kind) = false := by
    simp only [wanted, List.map_map, List.mem_map, List.mem_filter, Function.comp]
    constructor
    · rintro ⟨entry, ⟨horder, hskip⟩, rfl⟩
      obtain ⟨hname, htime⟩ := (join_order_mem entry).mp horder
      rw [← hname]
      exact ⟨htime, by simpa using hskip⟩
    · rintro ⟨htime, hskip⟩
      exact ⟨(nsName kind, kind), ⟨(join_order_mem _).mpr ⟨rfl, htime⟩, by simp [hskip]⟩, rfl⟩
  show (self.enterAll setnsDelayed (wanted probe self init JOIN_ORDER)).children kind = _
  by_cases hentered : kind ∈ (wanted probe self init JOIN_ORDER).map Prod.fst
  · rw [if_pos (hmem.mp hentered)]
    apply Spaces.children_enterAll hentered
    intro entry hentry hkind
    obtain ⟨pair, -, rfl⟩ := List.mem_map.mp hentry
    rw [← hkind]
  · rw [if_neg (fun h => hentered (hmem.mpr h))]
    exact Spaces.children_enterAll_not_mem hentered

end exec

/-! ## Being where init is -/

/-- Whatever the host refuses, and whichever links can be read, a process that comes
to run is in init's namespace of the kind. -/
def Enters (visible : String → Bool) (pid : Int) (self init : Spaces) (kind : LinuxNamespaceType) :
    Prop :=
  ∀ probe : Probe, probe.theirsExists = visible → ∀ refuses child,
    exec probe refuses pid self init = .ok child → child.own kind = init.own kind

theorem enters_iff (visible : String → Bool) (pid : Int) (self init : Spaces)
    (kind : LinuxNamespaceType) : Enters visible pid self init kind ↔
      self.children kind = init.own kind ∨
        kind ≠ .time ∧ visible (nsName kind) = true ∧ self.own kind ≠ init.own kind := by
  constructor
  · intro h
    have hchild := h ⟨visible, fun _ => true, fun _ => true, fun _ => true⟩ rfl (fun _ => false) _
      (exec_willing fun _ => rfl)
    rw [own_child] at hchild
    split at hchild
    next hentered =>
      right
      obtain ⟨htime, hskip⟩ := hentered
      simp only [skips, Bool.or_eq_false_iff, Bool.not_eq_false', Bool.true_and, beq_eq_false_iff_ne,
        ne_eq] at hskip
      exact ⟨htime, hskip⟩
    next => exact Or.inl hchild
  · rintro h probe rfl refuses child hexec
    rw [exec_ok hexec, own_child]
    split
    next => rfl
    next hnot =>
      rcases h with hsame | ⟨htime, hvisible, hother⟩
      · exact hsame
      · have hskip : skips probe self init (nsName kind, kind) = false := by
          simp [skips, hvisible, hother]
        exact absurd ⟨htime, hskip⟩ hnot

def EntersAll (visible : String → Bool) (pid : Int) (self init : Spaces) : Prop :=
  ∀ kind, Enters visible pid self init kind

/-- Of each kind, the runtime's children are where init is, or the kind is in the table,
its file can be seen, and the runtime itself is elsewhere. -/
theorem exec_enters_iff (visible : String → Bool) (pid : Int) (self init : Spaces) :
    EntersAll visible pid self init ↔
      ∀ kind, self.children kind = init.own kind ∨
        kind ≠ .time ∧ visible (nsName kind) = true ∧ self.own kind ≠ init.own kind :=
  forall_congr' (enters_iff visible pid self init)

/-- For a runtime that is where its children are, entering a container it has made
itself comes down to the time namespace. -/
theorem created_enters_iff {pathExists : String → Bool} {namespaces : List LinuxNamespace}
    {types : List LinuxNamespaceType} {plan : Plan} {host : Host} {runtime : Spaces} {pid : Int}
    (hvalid : Namespace.namespaceTypes namespaces = .ok types)
    (hexist : PathsExist pathExists namespaces) (hplan : Planned pathExists namespaces plan)
    (hsettled : ∀ kind, runtime.children kind = runtime.own kind)
    (hfresh : host.fresh .time ≠ runtime.own .time) (htime : ¬ Joined namespaces .time) :
    EntersAll (fun _ => true) pid runtime (initSpaces host plan runtime) ↔
      ¬ Created namespaces .time := by
  have hown := initSpaces_own hvalid hexist hplan .time host runtime
  constructor
  · intro h hcreated
    rcases (enters_iff _ _ _ _ _).mp (h .time) with hsame | ⟨hnot, -⟩
    · rw [hsettled, hown.1 hcreated] at hsame
      exact hfresh hsame.symm
    · exact hnot rfl
  · intro hnot kind
    rw [enters_iff, hsettled]
    by_cases hsame : runtime.own kind = (initSpaces host plan runtime).own kind
    · exact Or.inl hsame
    · right
      refine ⟨?_, rfl, hsame⟩
      rintro rfl
      rw [hown.2 hnot htime, hsettled] at hsame
      exact hsame rfl

/-! ## A container with a time namespace of its own -/

def timeOnly : List LinuxNamespace := [⟨.time, none⟩, ⟨.uts, none⟩]

/-- Every namespace of the host is the first of its kind, and new ones are the second. -/
def demoHost : Host where
  opens := fun _ _ => 1
  fresh := fun _ => 2

def hostSpaces : Spaces where
  own := fun _ => 1
  children := fun _ => 1

def timePlan : Plan := planOf ⟨CLONE_NEWTIME ||| CLONE_NEWUTS, []⟩

def seeing : Probe where
  theirsExists := fun _ => true
  readsOurs := fun _ => true
  readsTheirs := fun _ => true
  opens := fun _ => true

/-- The process comes into the container's UTS namespace, but stays in the host's time
namespace. -/
theorem exec_misses_time :
    Planned (fun _ => true) timeOnly timePlan ∧
      ¬ EntersAll (fun _ => true) 7 hostSpaces (initSpaces demoHost timePlan hostSpaces) ∧
      (exec seeing (fun _ => false) 7 hostSpaces
        (initSpaces demoHost timePlan hostSpaces)).toOption.any (fun child =>
          child.own .uts = (initSpaces demoHost timePlan hostSpaces).own .uts ∧
          child.own .time = hostSpaces.own .time ∧
          child.own .time ≠ (initSpaces demoHost timePlan hostSpaces).own .time) = true := by
  have hvalid : Namespace.namespaceTypes timeOnly = .ok [.uts, .time] := by decide
  have hexist : PathsExist (fun _ => true) timeOnly := by decide
  have hplan : Planned (fun _ => true) timeOnly timePlan :=
    ⟨_, layout_eq hexist, by decide, by decide, by decide⟩
  refine ⟨hplan, ?_, by decide +kernel⟩
  rw [created_enters_iff hvalid hexist hplan (fun _ => rfl) (by decide) (by decide)]
  exact not_not_intro ⟨⟨.time, none⟩, by decide, rfl, rfl⟩

end Mars.ExecJoin
