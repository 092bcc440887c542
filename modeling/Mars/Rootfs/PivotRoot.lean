import Mars.Core.MountLayers
import Mars.Rootfs.MountIsolation

/-! # The old root is gone

Where nothing but init takes mounts away, the rootfs leads to a new mount from the
moment it has been mounted, so the root that init turns to is new; what was
inherited comes to lie below the old root on it, and goes with that root.
-/

namespace Mars.Pivot
open UnixPath MountSpace Transition
open MountTable (MS_BIND MS_REC MS_REMOUNT PROPAGATION contains)

/-! ## Calls -/

/-- The acts around the pivot: calls by path, and what only moves init. -/
def Act.plain : Act → Bool
  | .call _ => true
  | .either _ => true
  | .chdir _ => true
  | .fail => true
  | .hooks => true
  | .bindConsole => true
  | _ => false

section calls
variable {w w' : World} {answer : Answer} {plan : Plan}

theorem asks_additive {p : Process} {s : Space} {made : Dir} {call : MountTable.Call} {op : Op}
    (h : p.asks s made call = some (some op)) : op.additive = true := by
  unfold Process.asks at h
  dsimp only at h
  split at h
  · cases h
  · split at h
    · obtain ⟨source, -, hop⟩ := Option.map_eq_some_iff.mp h
      obtain rfl := Option.some.inj hop
      rfl
    · split at h
      · obtain ⟨change, -, hop⟩ := Option.map_eq_some_iff.mp h
        obtain rfl := Option.some.inj hop
        rfl
      · obtain rfl := Option.some.inj (Option.some.inj h)
        rfl

theorem moved_additive {op : Op} (h : op.additive = true) (p : Process) (ns : Nat) :
    p.moved ns op = p := by
  cases op <;> first | rfl | cases h

/-- An absolute path leads through the same names wherever init is. -/
theorem names_absolute {path : String} (h : isAbsolute path) (p : Process) :
    p.names (components path) = Mounts.fromRoot path := by
  rw [Process.names, Mounts.fromRoot, MountTable.walk_components, MountTable.walk_components,
    if_pos h, if_pos h]

/-- The call mounts something at the rootfs. -/
def Lands (rootfs : String) (call : MountTable.Call) : Prop :=
  ∀ (p : Process) (s : Space) (made : Dir), ∃ op, p.asks s made call = some (some op) ∧
    MountsAt (p.locate s (components rootfs)) op

theorem lands_of_bind {rootfs source : String} {call : MountTable.Call}
    (hsource : call.source = some source) (htarget : call.target = components rootfs)
    (hremount : contains call.flags MS_REMOUNT = false)
    (hbind : contains call.flags MS_BIND = true) : Lands rootfs call := by
  intro p s made
  refine ⟨.bind (p.locate s (components source)) (p.locate s (components rootfs))
    (contains call.flags MS_REC), ?_, .bind _ _⟩
  simp [Process.asks, hremount, hbind, hsource, htarget]

theorem lands_of_create {rootfs : String} {call : MountTable.Call}
    (htarget : call.target = components rootfs) (hremount : contains call.flags MS_REMOUNT = false)
    (hbind : contains call.flags MS_BIND = false)
    (htype : PROPAGATION.any (contains call.flags) = false) : Lands rootfs call := by
  intro p s made
  refine ⟨.create (p.locate s (components rootfs)) made, ?_, .create _⟩
  unfold Process.asks
  rw [hremount, hbind, htype, htarget]
  rfl

theorem makeMountPoint_lands (rootfs : String) : Lands rootfs (makeMountPoint rootfs) := by
  have hremount : contains (MS_BIND ||| MS_REC) MS_REMOUNT = false := by decide
  have hbind : contains (MS_BIND ||| MS_REC) MS_BIND = true := by decide
  exact lands_of_bind rfl rfl hremount hbind

theorem overlayCall_lands (rootfs data : String) : Lands rootfs (overlayCall rootfs data) := by
  have hremount : contains 0 MS_REMOUNT = false := by decide
  have hbind : contains 0 MS_BIND = false := by decide
  have htype : PROPAGATION.any (contains 0) = false := by decide
  exact lands_of_create rfl hremount hbind htype

/-- What a plain act does. -/
structure PlainStep (w w' : World) : Prop where
  ns : w'.init.ns = w.init.ns
  root : w'.init.root = w.init.root
  oldroot : w'.init.oldroot = w.init.oldroot
  newroot : w'.init.newroot = w.init.newroot
  cwd : w'.init.cwd = w.init.cwd ∨
    ∃ names, w'.init.cwd = locate (w.space.view w.init.ns) w.init.root names
  ops : ∃ front, w'.ops = front ++ w.ops ∧ ∀ act ∈ front, act.plain = true
  done : w'.done = w.done
  since : w'.since = w.since
  mounts : w'.space = w.space ∨ ∃ op, op.additive = true ∧
    w.space.apply w.init.ns op = some w'.space

theorem call_plain {made : Dir} {call : MountTable.Call} (h : w.call made call = some w') :
    PlainStep w w' := by
  rcases call_cases h with ⟨-, rfl⟩ | ⟨op, hasked, happly⟩
  · exact ⟨rfl, rfl, rfl, rfl, .inl rfl, ⟨[], rfl, by simp⟩, rfl, rfl, .inl rfl⟩
  · have hop := asks_additive hasked
    obtain ⟨space, hspace, rfl⟩ := World.apply_eq_some.mp happly
    have hmoved := moved_additive hop w.init w.init.ns
    exact ⟨by rw [hmoved], by rw [hmoved], by rw [hmoved], by rw [hmoved], .inl (by rw [hmoved]),
      ⟨[], rfl, by simp⟩, rfl, rfl, .inr ⟨op, hop, hspace⟩⟩

theorem run_plain {act : Act} (hplain : act.plain = true) (h : act.run w answer = some w') :
    PlainStep w w' := by
  cases act with
  | call c => exact call_plain h
  | bindConsole => exact call_plain h
  | either alternatives =>
      obtain ⟨calls, -, rfl⟩ := Option.map_eq_some_iff.mp h
      refine ⟨rfl, rfl, rfl, rfl, .inl rfl, ⟨calls.map .call, rfl, ?_⟩, rfl, rfl, .inl rfl⟩
      intro act hact
      obtain ⟨c, -, rfl⟩ := List.mem_map.mp hact
      rfl
  | chdir path =>
      obtain rfl := Option.some.inj h
      exact ⟨rfl, rfl, rfl, rfl, .inr ⟨_, rfl⟩, ⟨[], rfl, by simp⟩, rfl, rfl, .inl rfl⟩
  | hooks =>
      obtain rfl := Option.some.inj h
      exact ⟨rfl, rfl, rfl, rfl, .inl rfl, ⟨[], rfl, by simp⟩, rfl, rfl, .inl rfl⟩
  | fail => cases h
  | _ => cases hplain

end calls

/-! ## The stages -/

/-- Before the root is turned over. -/
structure Before (n₀ : Nat) (v : List Mnt) (root : Place) : Prop where
  rooted : Rooted v root.mnt
  old : root.mnt < n₀
  layered : Layered n₀ v

/-- The rootfs leads to a new mount, or to the root itself. -/
def Landed (rootfs : String) (n₀ : Nat) (v : List Mnt) (root : Place) : Prop :=
  Mounts.fromRoot rootfs = [] ∨ n₀ ≤ (locate v root (Mounts.fromRoot rootfs)).mnt

/-- After the root has been turned over, with the old root at `old`. -/
structure Over (n₀ : Nat) (v : List Mnt) (root old : Place) : Prop where
  turned : Turned n₀ old.mnt root.mnt v
  old : old.mnt < n₀
  new : n₀ ≤ root.mnt

/-- What init has still to do while the old root is there. -/
inductive Stage (plan : Plan) (n₀ : Nat) (v : List Mnt) (p : Process) : List Act → Prop
  | mounting {front back : List Act} {call : MountTable.Call} :
      Before n₀ v p.root → (∀ act ∈ front, act.plain = true) → (∀ act ∈ back, act.plain = true) →
      Lands plan.rootfs call →
      Stage plan n₀ v p (front ++ .call call :: (back ++ (pivot plan.rootfs ++ settle plan)))
  | populating {front : List Act} :
      Before n₀ v p.root → (∀ act ∈ front, act.plain = true) → Landed plan.rootfs n₀ v p.root →
      Stage plan n₀ v p (front ++ (pivot plan.rootfs ++ settle plan))
  | opened {new : Place} :
      Before n₀ v p.root → p.oldroot = some p.root → p.newroot = some new →
      (new = p.root ∨ n₀ ≤ new.mnt) →
      Stage plan n₀ v p ((pivot plan.rootfs).drop 1 ++ settle plan)
  | entered :
      Before n₀ v p.root → p.oldroot = some p.root → (p.cwd = p.root ∨ n₀ ≤ p.cwd.mnt) →
      Stage plan n₀ v p ((pivot plan.rootfs).drop 2 ++ settle plan)
  | turned {old : Place} : p.oldroot = some old → Over n₀ v p.root old →
      Stage plan n₀ v p ((pivot plan.rootfs).drop 3 ++ settle plan)
  | back : Over n₀ v p.root p.cwd → Stage plan n₀ v p ((pivot plan.rootfs).drop 4 ++ settle plan)
  | apart : Over n₀ v p.root p.cwd → Stage plan n₀ v p ((pivot plan.rootfs).drop 5 ++ settle plan)
  | detached : Fresh n₀ v → n₀ ≤ p.root.mnt →
      Stage plan n₀ v p ((pivot plan.rootfs).drop 6 ++ settle plan)
  | failing {rest : List Act} : Stage plan n₀ v p (.fail :: rest)
  | stopped : Stage plan n₀ v p []

/-- What holds ever after. -/
structure Left (n₀ : Nat) (v : List Mnt) (p : Process) (ops : List Act) : Prop where
  fresh : Fresh n₀ v
  root : n₀ ≤ p.root.mnt
  cwd : n₀ ≤ p.cwd.mnt
  ops : ∀ act ∈ ops, act.plain = true

section stages
variable {plan : Plan} {n₀ n : Nat} {v v' new : List Mnt} {f : Mnt → Mnt} {p p' : Process}
  {ops : List Act}

theorem Before.varies {root : Place} (h : Before n₀ v root)
    (hvaries : Varies n v f new v') (hn : n₀ ≤ n) : Before n₀ v' root :=
  ⟨hvaries.rooted (Nat.lt_of_lt_of_le h.old hn) h.rooted, h.old, hvaries.layered hn h.layered⟩

theorem Landed.varies {rootfs : String} {root : Place} (h : Landed rootfs n₀ v root)
    (hvaries : Varies n v f new v') (hn : n₀ ≤ n) (hv : Layered n₀ v) :
    Landed rootfs n₀ v' root :=
  h.imp_right fun hnew => hvaries.locate_new hn hv hnew

theorem Over.varies {root old : Place} (h : Over n₀ v root old)
    (hvaries : Varies n v f new v') (hn : n₀ ≤ n) : Over n₀ v' root old :=
  ⟨hvaries.turned hn h.old h.turned, h.old, h.new⟩

/-- Others may mount what they like. -/
theorem Stage.varies (h : Stage plan n₀ v p ops)
    (hvaries : Varies n v f new v') (hn : n₀ ≤ n) : Stage plan n₀ v' p ops := by
  cases h with
  | mounting hbefore hfront hback hlands =>
      exact .mounting (hbefore.varies hvaries hn) hfront hback hlands
  | populating hbefore hfront hlanded =>
      exact .populating (hbefore.varies hvaries hn) hfront
        (hlanded.varies hvaries hn hbefore.layered)
  | opened hbefore hold hnew hplace => exact .opened (hbefore.varies hvaries hn) hold hnew hplace
  | entered hbefore hold hplace => exact .entered (hbefore.varies hvaries hn) hold hplace
  | turned hold hover => exact .turned hold (hover.varies hvaries hn)
  | back hover => exact .back (hover.varies hvaries hn)
  | apart hover => exact .apart (hover.varies hvaries hn)
  | detached hfresh hroot => exact .detached (hvaries.fresh hn hfresh) hroot
  | failing => exact .failing
  | stopped => exact .stopped

end stages

/-! ## What init does -/

section acts
variable {plan : Plan} {n₀ : Nat} {w w' : World} {answer : Answer}

/-- The mounts that init sees. -/
abbrev World.view (w : World) : List Mnt := w.space.view w.init.ns

theorem PlainStep.varies (h : PlainStep w w') (hns : w.init.ns ≠ w.space.next) :
    ∃ f new, Varies w.space.next w.view f new w'.view := by
  rw [World.view, World.view, h.ns]
  rcases h.mounts with hsame | ⟨op, hop, hspace⟩
  · rw [hsame]
    exact ⟨id, [], Varies.refl _ _⟩
  · exact apply_varies hspace hns hop

theorem plain_append {front back : List Act} (hfront : ∀ act ∈ front, act.plain = true)
    (hback : ∀ act ∈ back, act.plain = true) : ∀ act ∈ front ++ back, act.plain = true := by
  intro act hact
  rcases List.mem_append.mp hact with hact | hact
  · exact hfront act hact
  · exact hback act hact

/-- A plain act with what follows it. -/
theorem Stage.plain {act : Act} {rest front tail : List Act}
    (hrun : act.run { w with ops := rest } answer = some w') (hns : w.init.ns ≠ w.space.next)
    (hplain : act.plain = true) (hrest : rest = front ++ tail)
    (hfront : ∀ act ∈ front, act.plain = true) :
    ∃ front' f new, w'.ops = front' ++ tail ∧ (∀ act ∈ front', act.plain = true) ∧
      Varies w.space.next w.view f new w'.view ∧ w'.init.root = w.init.root := by
  have hstep := run_plain hplain hrun
  obtain ⟨f, new, hvaries⟩ := hstep.varies hns
  obtain ⟨pushed, hops, hpushed⟩ := hstep.ops
  refine ⟨pushed ++ front, f, new, ?_, plain_append hpushed hfront, hvaries, hstep.root⟩
  rw [hops, List.append_assoc]
  exact congrArg _ hrest

/-- The rootfs is mounted, and leads to the new mount. -/
theorem mount_rootfs {call : MountTable.Call} {rest : List Act} (habs : isAbsolute plan.rootfs)
    (hbefore : Before n₀ w.view w.init.root) (hlands : Lands plan.rootfs call)
    (hns : w.init.ns ≠ w.space.next) (hn : n₀ ≤ w.space.next)
    (hrun : (Act.call call).run { w with ops := rest } answer = some w') :
    Before n₀ w'.view w'.init.root ∧ Landed plan.rootfs n₀ w'.view w'.init.root ∧
      w'.ops = rest := by
  obtain ⟨op, hasked, hmounts⟩ := hlands w.init w.space answer.made
  have hadditive := asks_additive hasked
  have happly : World.apply { w with ops := rest } w.init.ns op = some w' := by
    rcases call_cases hrun with ⟨hnone, -⟩ | ⟨op', hasked', happly⟩
    · rw [hasked] at hnone
      cases hnone
    · rw [hasked] at hasked'
      exact Option.some.inj (Option.some.inj hasked') ▸ happly
  obtain ⟨space, hspace, rfl⟩ := World.apply_eq_some.mp happly
  have hmoved := moved_additive hadditive w.init w.init.ns
  obtain ⟨f, new, hvaries⟩ := apply_varies hspace hns hadditive
  have hplace : w.init.locate w.space (components plan.rootfs) =
      locate w.view w.init.root (Mounts.fromRoot plan.rootfs) := by
    rw [Process.locate, names_absolute habs]
  refine ⟨?_, ?_, rfl⟩
  · show Before n₀ (space.view (w.init.moved w.init.ns op).ns) (w.init.moved w.init.ns op).root
    rw [hmoved]
    exact hbefore.varies hvaries hn
  · by_cases hnil : Mounts.fromRoot plan.rootfs = []
    · exact .inl hnil
    · right
      show n₀ ≤ (locate (space.view (w.init.moved w.init.ns op).ns)
        (w.init.moved w.init.ns op).root (Mounts.fromRoot plan.rootfs)).mnt
      rw [hmoved]
      exact apply_lands hnil (hplace ▸ hmounts) hspace hn hbefore.layered

/-- Init turns to a new root. -/
theorem turn_root {rest : List Act} (hbefore : Before n₀ w.view w.init.root)
    (hplace : w.init.cwd = w.init.root ∨ n₀ ≤ w.init.cwd.mnt)
    (hrun : Act.pivotRoot.run { w with ops := rest } answer = some w') :
    Over n₀ w'.view w'.init.root w.init.root ∧ w'.init.oldroot = w.init.oldroot ∧
      w'.ops = rest := by
  obtain ⟨space, hspace, rfl⟩ := World.apply_eq_some.mp hrun
  have hspace : w.space.apply w.init.ns (.pivot w.init.root w.init.cwd) = some space := hspace
  have hne := pivot_ne hspace hbefore.rooted
  have hnew : n₀ ≤ w.init.cwd.mnt := by
    rcases hplace with heq | hnew
    · exact absurd (congrArg Place.mnt heq) hne
    · exact hnew
  have hmoved : (w.init.moved w.init.ns (.pivot w.init.root w.init.cwd)).root = w.init.cwd ∧
      (w.init.moved w.init.ns (.pivot w.init.root w.init.cwd)).oldroot = w.init.oldroot := by
    simp [Process.moved]
  refine ⟨?_, hmoved.2, rfl⟩
  show Over n₀ (space.view (w.init.moved w.init.ns _).ns) (w.init.moved w.init.ns _).root _
  rw [hmoved.1, moved_ns]
  exact ⟨pivot_turned hspace hbefore.rooted hbefore.layered hbefore.old hnew, hbefore.old, hnew⟩

theorem settle_plain (plan : Plan) : ∀ act ∈ settle plan, act.plain = true := by
  have hpropagation : ∀ act ∈ setPropagation plan.rootfsPropagation, act.plain = true := by
    unfold setPropagation
    split
    · simp
    · split <;> simp [Act.plain]
  have hremount : ∀ specMount, ∀ act ∈ remountOne specMount, act.plain = true := by
    intro specMount
    unfold remountOne
    split
    · simp
    · split <;> simp [Act.plain]
  have hmapped : ∀ {α : Type} (f : α → Act) (xs : List α), (∀ x, (f x).plain = true) →
      ∀ act ∈ xs.map f, act.plain = true := by
    intro α f xs hf act hact
    obtain ⟨x, -, rfl⟩ := List.mem_map.mp hact
    exact hf x
  refine plain_append (plain_append hpropagation ?_) (plain_append (plain_append (plain_append
    (hmapped _ _ fun _ => rfl) (hmapped _ _ fun _ => rfl)) ?_) ?_)
  · split <;> simp [Act.plain]
  · intro act hact
    obtain ⟨specMount, -, hact⟩ := List.mem_flatMap.mp hact
    exact hremount specMount act hact
  · split <;> simp [Act.plain]

/-- One act of init before the old root has been left. -/
theorem Stage.perform (h : Stage plan n₀ w.view w.init w.ops) (habs : isAbsolute plan.rootfs)
    (hns : w.init.ns ≠ w.space.next) (hn : n₀ ≤ w.space.next)
    (hperform : w.perform answer = some w') :
    ∃ act, w'.done = w.done ++ [act] ∧
      (act ≠ .leaveOld → Stage plan n₀ w'.view w'.init w'.ops) ∧
      (act = .leaveOld → Left n₀ w'.view w'.init w'.ops) := by
  obtain ⟨act, rest, next, hops, hrun, rfl⟩ := perform_eq_some.mp hperform
  refine ⟨act, by rw [run_done hrun], ?_⟩
  show (_ → Stage plan n₀ next.view next.init next.ops) ∧
    (_ → Left n₀ next.view next.init next.ops)
  have hstay : act ≠ .leaveOld → Stage plan n₀ next.view next.init next.ops →
      (act ≠ .leaveOld → Stage plan n₀ next.view next.init next.ops) ∧
        (act = .leaveOld → Left n₀ next.view next.init next.ops) :=
    fun hne hstage => ⟨fun _ => hstage, fun heq => absurd heq hne⟩
  rw [hops] at h
  generalize hacts : act :: rest = acts at h
  cases h with
  | @mounting front back call hbefore hfront hback hlands =>
      cases front with
      | nil =>
          obtain ⟨rfl, rfl⟩ := List.cons.inj hacts
          obtain ⟨hbefore, hlanded, hrest⟩ := mount_rootfs habs hbefore hlands hns hn hrun
          refine hstay (by simp) ?_
          rw [hrest]
          exact .populating hbefore hback hlanded
      | cons first front =>
          obtain ⟨rfl, hrest⟩ := List.cons.inj hacts
          obtain ⟨hplain, hfront⟩ := List.forall_mem_cons.mp hfront
          obtain ⟨front', f, new, hnext, hplain', hvaries, hroot⟩ :=
            Stage.plain hrun hns hplain hrest hfront
          refine hstay (by rintro rfl; cases hplain) ?_
          rw [hnext]
          exact .mounting (hroot ▸ hbefore.varies hvaries hn) hplain' hback hlands
  | @populating front hbefore hfront hlanded =>
      cases front with
      | nil =>
          obtain ⟨rfl, rfl⟩ := List.cons.inj hacts
          obtain rfl := Option.some.inj hrun
          refine hstay (by simp) ?_
          refine .opened hbefore rfl rfl ?_
          show w.init.locate w.space (components plan.rootfs) = w.init.root ∨ _
          rw [Process.locate, names_absolute habs]
          exact hlanded.imp_left fun hnil => by rw [hnil]; rfl
      | cons first front =>
          obtain ⟨rfl, hrest⟩ := List.cons.inj hacts
          obtain ⟨hplain, hfront⟩ := List.forall_mem_cons.mp hfront
          obtain ⟨front', f, new, hnext, hplain', hvaries, hroot⟩ :=
            Stage.plain hrun hns hplain hrest hfront
          refine hstay (by rintro rfl; cases hplain) ?_
          rw [hnext]
          exact .populating (hroot ▸ hbefore.varies hvaries hn) hplain'
            (hroot ▸ hlanded.varies hvaries hn hbefore.layered)
  | @opened new hbefore hold hnew hplace =>
      obtain ⟨rfl, rfl⟩ := List.cons.inj hacts
      obtain ⟨place, hopened, rfl⟩ := Option.map_eq_some_iff.mp hrun
      obtain rfl := Option.some.inj (hnew.symm.trans hopened)
      exact hstay (by simp) (.entered hbefore hold hplace)
  | entered hbefore hold hplace =>
      obtain ⟨rfl, rfl⟩ := List.cons.inj hacts
      obtain ⟨hover, hsame, hrest⟩ := turn_root hbefore hplace hrun
      refine hstay (by simp) ?_
      rw [hrest]
      exact .turned (hsame.trans hold) hover
  | @turned old hold hover =>
      obtain ⟨rfl, rfl⟩ := List.cons.inj hacts
      obtain ⟨place, hopened, rfl⟩ := Option.map_eq_some_iff.mp hrun
      obtain rfl := Option.some.inj (hold.symm.trans hopened)
      exact hstay (by simp) (.back hover)
  | back hover =>
      obtain ⟨rfl, rfl⟩ := List.cons.inj hacts
      obtain ⟨space, hspace, rfl⟩ := World.apply_eq_some.mp hrun
      obtain ⟨f, new, hvaries⟩ := apply_varies hspace hns rfl
      exact hstay (by simp) (.apart (hover.varies hvaries hn))
  | apart hover =>
      obtain ⟨rfl, rfl⟩ := List.cons.inj hacts
      obtain ⟨space, hspace, rfl⟩ := World.apply_eq_some.mp hrun
      exact hstay (by simp) (.detached (umount_fresh hspace hover.turned) hover.new)
  | detached hfresh hroot =>
      obtain ⟨rfl, rfl⟩ := List.cons.inj hacts
      obtain rfl := Option.some.inj hrun
      refine ⟨fun hne => absurd rfl hne, fun _ => ⟨hfresh, hroot, hroot, ?_⟩⟩
      exact settle_plain plan
  | failing =>
      obtain ⟨rfl, rfl⟩ := List.cons.inj hacts
      cases hrun
  | stopped => cases hacts

theorem Left.perform (h : Left n₀ w.view w.init w.ops) (hns : w.init.ns ≠ w.space.next)
    (hn : n₀ ≤ w.space.next) (hperform : w.perform answer = some w') :
    Left n₀ w'.view w'.init w'.ops := by
  obtain ⟨act, rest, next, hops, hrun, rfl⟩ := perform_eq_some.mp hperform
  have hplain := h.ops
  rw [hops] at hplain
  obtain ⟨hact, hrest⟩ := List.forall_mem_cons.mp hplain
  have hstep := run_plain hact hrun
  obtain ⟨f, new, hvaries⟩ := hstep.varies hns
  obtain ⟨pushed, hpops, hpushed⟩ := hstep.ops
  refine ⟨hvaries.fresh hn h.fresh, ?_, ?_, ?_⟩
  · show n₀ ≤ next.init.root.mnt
    rw [hstep.root]
    exact h.root
  · show n₀ ≤ next.init.cwd.mnt
    rcases hstep.cwd with hsame | ⟨names, hcwd⟩
    · rw [hsame]
      exact h.cwd
    · rw [hcwd]
      exact locate_fresh h.fresh.layered names h.root
  · show ∀ act ∈ next.ops, act.plain = true
    rw [hpops]
    exact plain_append hpushed hrest

/-- Whatever is called inside afterwards. -/
theorem Left.apply (h : Left n₀ w.view w.init w.ops) (hns : w.init.ns ≠ w.space.next)
    (hn : n₀ ≤ w.space.next) {caller : Nat} {op : Op} (happly : w.apply caller op = some w') :
    Left n₀ w'.view w'.init w'.ops := by
  obtain ⟨space, hspace, rfl⟩ := World.apply_eq_some.mp happly
  have hplaces : n₀ ≤ (w.init.moved caller op).root.mnt ∧
      n₀ ≤ (w.init.moved caller op).cwd.mnt := by
    by_cases hpivot : ∃ root new, caller = w.init.ns ∧ op = .pivot root new
    · obtain ⟨root, new, rfl, rfl⟩ := hpivot
      have hnew := (pivot_fresh hspace h.fresh).2
      simp only [Process.moved, if_true]
      constructor
      · split
        · exact hnew
        · exact h.root
      · split
        · exact hnew
        · exact h.cwd
    · have hsame : w.init.moved caller op = w.init := by
        cases op with
        | pivot root new => exact moved_other (fun heq => hpivot ⟨root, new, heq, rfl⟩) _
        | _ => rfl
      rw [hsame]
      exact ⟨h.root, h.cwd⟩
  refine ⟨?_, hplaces.1, hplaces.2, h.ops⟩
  show Fresh n₀ (space.view (w.init.moved caller op).ns)
  rw [moved_ns]
  exact apply_fresh hspace hns hn h.fresh

end acts

/-! ## Every run -/

structure Turning (plan : Plan) (w : World) : Prop where
  isolated : Isolated plan w
  early : w.since = none → w.done = []
  stage : ∀ n₀, w.since = some n₀ → n₀ ≤ w.space.next ∧
    if .leaveOld ∈ w.done then Left n₀ w.view w.init w.ops else Stage plan n₀ w.view w.init w.ops

/-- Until the old root has been left, nobody inside but init takes a mount away. -/
def TakesNothing (w : World) : Event → Prop
  | .inside _ op => op.additive = true ∨ .leaveOld ∈ w.done
  | _ => True

section runs
variable {plan : Plan} {w w' : World} {answer : Answer} {e : Event}

/-- The rest of the program, after the first call. -/
theorem stage_start {n₀ : Nat} {v : List Mnt} {p : Process} (h : Before n₀ v p.root) :
    Stage plan n₀ v p (program plan).tail := by
  have hpopulate : ∀ act ∈ populate plan, act.plain = true := by
    intro act hact
    simp only [populate, createDevices, node, List.mem_append, List.mem_map, List.mem_singleton]
      at hact
    rcases hact with (⟨_, -, rfl⟩ | ⟨_, -, rfl⟩ | ⟨_, -, rfl⟩) | rfl <;> rfl
  show Stage plan n₀ v p (mountRootfs plan ++ (populate plan ++ (pivot plan.rootfs ++ settle plan)))
  unfold mountRootfs
  split
  · have hlands := makeMountPoint_lands plan.rootfs
    exact @Stage.mounting plan n₀ v p [] _ _ h (by simp) hpopulate hlands
  · split
    · exact .failing
    · next data _ =>
        exact @Stage.mounting plan n₀ v p [] _ _ h (by simp) hpopulate
          (overlayCall_lands plan.rootfs data)
    · next data base _ =>
        exact @Stage.mounting plan n₀ v p [.chdir base.text] (.chdir "/" :: populate plan) _ h
          (by simp [Act.plain]) (List.forall_mem_cons.mpr ⟨rfl, hpopulate⟩)
          (overlayCall_lands plan.rootfs data)

theorem Turning.first (h : Turning plan w) (hsince : w.since = none)
    (hperform : w.perform answer = some w') : Turning plan w' := by
  have halone := h.isolated.alone hsince
  have hfirst := halone.first_call hsince hperform
  have hnamed := h.isolated.named
  have hle := hnamed.next_le hfirst.space
  refine ⟨h.isolated.first hsince hperform, ?_, ?_⟩
  · intro hnone
    rw [hfirst.since] at hnone
    cases hnone
  · intro n₀ hn
    obtain rfl := Option.some.inj (hfirst.since.symm.trans hn)
    refine ⟨Nat.le_refl _, ?_⟩
    rw [if_neg (by rw [hfirst.done, h.early hsince]; simp), hfirst.ops]
    obtain ⟨f, new, hvaries⟩ := apply_varies hfirst.space (Nat.ne_of_lt h.isolated.ns) rfl
    apply stage_start
    rw [World.view, hfirst.init]
    refine ⟨hvaries.rooted halone.root halone.rooted, Nat.lt_of_lt_of_le halone.root hle, ?_⟩
    intro m hm _ i hi
    exact ((hnamed.apply hfirst.space).mounts m (mem_view.mp hm).1).above i hi

/-- Nothing happens to init, and what it sees stays or grows. -/
theorem Turning.others (h : Turning plan w) {caller : Nat} {op : Op}
    (happly : w.apply caller op = some w') (hisolated : Isolated plan w')
    (hsame : .leaveOld ∉ w.done → w.init.moved caller op = w.init ∧
      ∀ n₀, w.since = some n₀ →
        ∃ f new, Varies w.space.next w.view f new (w'.space.view w.init.ns)) :
    Turning plan w' := by
  have hleft := happly
  obtain ⟨space, hspace, rfl⟩ := World.apply_eq_some.mp happly
  have hle := h.isolated.named.next_le hspace
  refine ⟨hisolated, h.early, ?_⟩
  intro n₀ hn
  obtain ⟨hnext, hstage⟩ := h.stage n₀ hn
  refine ⟨Nat.le_trans hnext hle, ?_⟩
  by_cases hdone : .leaveOld ∈ w.done
  · rw [if_pos hdone] at hstage ⊢
    exact hstage.apply (Nat.ne_of_lt h.isolated.ns) hnext hleft
  · rw [if_neg hdone] at hstage ⊢
    obtain ⟨hmoved, hvaries⟩ := hsame hdone
    obtain ⟨f, new, hvaries⟩ := hvaries n₀ hn
    show Stage plan n₀ (space.view (w.init.moved caller op).ns) (w.init.moved caller op) w.ops
    rw [hmoved]
    exact hstage.varies hvaries hnext

theorem Turning.perform (h : Turning plan w) (habs : isAbsolute plan.rootfs)
    (hperform : w.perform answer = some w') (hisolated : Isolated plan w') {n₀ : Nat}
    (hsince : w.since = some n₀) (hsame : w'.since = some n₀) (hle : w.space.next ≤ w'.space.next) :
    Turning plan w' := by
  obtain ⟨hnext, hstage⟩ := h.stage n₀ hsince
  have hns := Nat.ne_of_lt h.isolated.ns
  refine ⟨hisolated, (fun hnone => by simp [hsame] at hnone), ?_⟩
  intro n hn
  obtain rfl := Option.some.inj (hsame.symm.trans hn)
  refine ⟨Nat.le_trans hnext hle, ?_⟩
  by_cases hdone : .leaveOld ∈ w.done
  · rw [if_pos hdone] at hstage
    obtain ⟨act, rest, next, -, hrun, rfl⟩ := perform_eq_some.mp hperform
    rw [if_pos (by simp [run_done hrun, hdone])]
    exact hstage.perform hns hnext hperform
  · rw [if_neg hdone] at hstage
    obtain ⟨act, hacts, hstay, hleave⟩ := hstage.perform habs hns hnext hperform
    by_cases hact : act = .leaveOld
    · rw [if_pos (by simp [hacts, hact])]
      exact hleave hact
    · rw [if_neg (by simp [hacts, hdone, Ne.symm hact])]
      exact hstay hact

theorem perform_keeps (hnamed : w.space.Named) {n₀ : Nat} (hsince : w.since = some n₀)
    (hperform : w.perform answer = some w') :
    w'.since = some n₀ ∧ w.space.next ≤ w'.space.next := by
  obtain ⟨act, rest, next, -, hrun, rfl⟩ := perform_eq_some.mp hperform
  have hnext : next.since = some n₀ ∧ w.space.next ≤ next.space.next := by
    rcases run_cases hrun with hquiet | ⟨op, happly⟩
    · exact ⟨hquiet.since.trans hsince, Nat.le_of_eq (congrArg Space.next hquiet.space).symm⟩
    · obtain ⟨space, hspace, rfl⟩ := World.apply_eq_some.mp happly
      exact ⟨hsince, hnamed.next_le hspace⟩
  exact ⟨by simp [hnext.1], hnext.2⟩

theorem Turning.step (h : Turning plan w) (habs : isAbsolute plan.rootfs)
    (hquiet : TakesNothing w e) (hstep : w.step e = some w') : Turning plan w' := by
  have hisolated := h.isolated.step hstep
  cases e with
  | init answer =>
      cases hsince : w.since with
      | none => exact h.first hsince hstep
      | some n₀ =>
          obtain ⟨hsame, hle⟩ := perform_keeps h.isolated.named hsince hstep
          exact h.perform habs hstep hisolated hsince hsame hle
  | refused =>
      simp only [World.step] at hstep
      split at hstep
      · cases hstep
      · obtain rfl := Option.some.inj hstep
        refine ⟨hisolated, h.early, ?_⟩
        intro n₀ hn
        obtain ⟨hnext, hstage⟩ := h.stage n₀ hn
        refine ⟨hnext, ?_⟩
        by_cases hdone : .leaveOld ∈ w.done
        · rw [if_pos hdone] at hstage ⊢
          exact ⟨hstage.fresh, hstage.root, hstage.cwd, by simp⟩
        · rw [if_neg hdone]
          exact .stopped
  | inside caller op =>
      have happly : w.apply caller op = some w' := by
        simp only [World.step] at hstep
        split at hstep
        · exact hstep
        · cases hstep
      refine h.others happly hisolated fun hdone => ?_
      have hadditive : op.additive = true := hquiet.resolve_right hdone
      refine ⟨moved_additive hadditive _ _, fun n₀ hn => ?_⟩
      obtain ⟨space, hspace, rfl⟩ := World.apply_eq_some.mp happly
      exact apply_varies hspace (Nat.ne_of_lt h.isolated.ns) hadditive
  | outside caller op =>
      simp only [World.step] at hstep
      split at hstep
      · cases hstep
      · next houter =>
          refine h.others hstep hisolated fun _ => ⟨?_, fun n₀ hn => ?_⟩
          · refine moved_other ?_ op
            rintro rfl
            exact houter h.isolated.inside
          · refine ⟨id, [], ?_⟩
            have hview : w'.space.view w.init.ns = w.space.view w.init.ns := by
              refine h.isolated.view (by simp [hn]) hstep ?_
              obtain ⟨space, -, rfl⟩ := World.apply_eq_some.mp hstep
              show extend w.space.next w.inner (w.inner caller) w.init.ns ≠ w.inner caller
              rw [extend_old h.isolated.ns, h.isolated.inside]
              exact fun heq => houter heq.symm
            rw [hview]
            exact Varies.refl _ _

theorem turning_start {s : Space} {runtime : Process} (h : Whole s runtime) :
    Turning plan (start plan s runtime) where
  isolated := isolated_start h
  early := fun _ => rfl
  stage := by
    intro n₀ hn
    cases hn

/-- Unused names begin later and later, and the first call notes where. -/
theorem step_next (h : Isolated plan w) (hstep : w.step e = some w') :
    w.space.next ≤ w'.space.next ∧ (w'.since = w.since ∨ w'.since = some w'.space.next) := by
  have happly : ∀ {caller : Nat} {op : Op}, w.apply caller op = some w' →
      w.space.next ≤ w'.space.next ∧ (w'.since = w.since ∨ w'.since = some w'.space.next) := by
    intro caller op happly
    obtain ⟨space, hspace, rfl⟩ := World.apply_eq_some.mp happly
    exact ⟨h.named.next_le hspace, .inl rfl⟩
  cases e with
  | init answer =>
      cases hsince : w.since with
      | none =>
          have hfirst := (h.alone hsince).first_call hsince hstep
          exact ⟨h.named.next_le hfirst.space, .inr hfirst.since⟩
      | some n₀ =>
          obtain ⟨hsame, hle⟩ := perform_keeps h.named hsince hstep
          exact ⟨hle, .inl hsame⟩
  | refused =>
      simp only [World.step] at hstep
      split at hstep
      · cases hstep
      · obtain rfl := Option.some.inj hstep
        exact ⟨Nat.le_refl _, .inl rfl⟩
  | inside caller op =>
      simp only [World.step] at hstep
      split at hstep
      · exact happly hstep
      · cases hstep
  | outside caller op =>
      simp only [World.step] at hstep
      split at hstep
      · cases hstep
      · exact happly hstep

theorem run_since {w₁ : World} {events : List Event} (h : Isolated plan w₁)
    (hnone : w₁.since = none) (hrun : run World.step w₁ events = some w) {n₀ : Nat}
    (hn : w.since = some n₀) : w₁.space.next ≤ n₀ := by
  let Later (w : World) : Prop := Isolated plan w ∧ w₁.space.next ≤ w.space.next ∧
    ∀ n₀, w.since = some n₀ → w₁.space.next ≤ n₀
  have hlater : Later w := by
    refine run_invariant ?_ ⟨h, Nat.le_refl _, by simp [hnone]⟩ hrun
    rintro w e w' ⟨hisolated, hle, hsince⟩ hstep
    obtain ⟨hnext, hcases⟩ := step_next hisolated hstep
    refine ⟨hisolated.step hstep, Nat.le_trans hle hnext, fun n hn => ?_⟩
    rcases hcases with hsame | hnoted
    · exact hsince n (hsame ▸ hn)
    · obtain rfl := Option.some.inj (hnoted.symm.trans hn)
      exact Nat.le_trans hle hnext
  exact hlater.2.2 n₀ hn

end runs

end Mars.Pivot
