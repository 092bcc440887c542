import Mars.Core.MountRoots

/-! # Old and new mounts

A mount is new when its name is from `n₀` on. Old mounts lie on old ones only, so a
way that has reached a new mount stays on new ones, and one that leads to a place
where something new is mounted does so from then on. A root that is turned over
takes all old mounts with it.
-/

namespace MountSpace
open UnixPath

def Layered (n₀ : Nat) (v : List Mnt) : Prop := ∀ m ∈ v, m.id < n₀ → ∀ i ∈ m.above, i < n₀

def Fresh (n₀ : Nat) (v : List Mnt) : Prop := ∀ m ∈ v, n₀ ≤ m.id

section layers
variable {n₀ n : Nat} {v v' new : List Mnt} {f : Mnt → Mnt}

theorem Varies.layered (h : Varies n v f new v') (hn : n₀ ≤ n) (hv : Layered n₀ v) :
    Layered n₀ v' := by
  intro m hm hold
  rw [h.eq] at hm
  rcases List.mem_append.mp hm with hm | hm
  · obtain ⟨x, hx, rfl⟩ := List.mem_map.mp hm
    rw [shape_id (h.shape x)] at hold
    rw [shape_above (h.shape x)]
    exact hv x hx hold
  · have hnew := (h.new m hm).1
    omega

theorem Varies.fresh (h : Varies n v f new v') (hn : n₀ ≤ n) (hv : Fresh n₀ v) :
    Fresh n₀ v' := by
  intro m hm
  rw [h.eq] at hm
  rcases List.mem_append.mp hm with hm | hm
  · obtain ⟨x, hx, rfl⟩ := List.mem_map.mp hm
    rw [shape_id (h.shape x)]
    exact hv x hx
  · exact Nat.le_trans hn (h.new m hm).1

theorem Thins.fresh {gone : List Nat} (h : Thins v gone v') (hv : Fresh n₀ v) : Fresh n₀ v' := by
  intro m hm
  obtain ⟨x, hx, hid, -⟩ := h.left m hm
  exact hid ▸ hv x hx

theorem Fresh.layered (h : Fresh n₀ v) : Layered n₀ v := by
  intro m hm hold
  have := h m hm
  omega

/-! ## Ways -/

theorem climb_cons (m : Mnt) (v : List Mnt) (p : Place) :
    climb (m :: v) p = climb v (if m.sitsOn p then m.top else p) := rfl

theorem climb_append (v v' : List Mnt) (p : Place) :
    climb (v ++ v') p = climb v' (climb v p) := List.foldl_append

/-- From a new mount the way leads on to new ones. -/
theorem climb_new (hv : Layered n₀ v) {p : Place} (hp : n₀ ≤ p.mnt) :
    n₀ ≤ (climb v p).mnt := by
  induction v generalizing p with
  | nil => exact hp
  | cons m rest ih =>
      rw [climb_cons]
      refine ih (fun x hx => hv x (List.mem_cons_of_mem _ hx)) ?_
      split
      next hsits =>
        simp only [Mnt.sitsOn, decide_eq_true_eq] at hsits
        by_contra hold
        have hlast := hv m List.mem_cons_self (Nat.lt_of_not_le hold) p.mnt
          (List.mem_of_getLast? hsits.1)
        omega
      next => exact hp

theorem climb_fresh (hv : Fresh n₀ v) (p : Place) : climb v p = p ∨ n₀ ≤ (climb v p).mnt := by
  induction v generalizing p with
  | nil => exact .inl rfl
  | cons m rest ih =>
      have hrest : Fresh n₀ rest := fun x hx => hv x (List.mem_cons_of_mem _ hx)
      rw [climb_cons]
      split
      next => exact .inr (climb_new hrest.layered (hv m List.mem_cons_self))
      next => exact ih hrest p

theorem climb_sits (hv : Fresh n₀ v) {p : Place} (h : ∃ m ∈ v, m.sitsOn p = true) :
    n₀ ≤ (climb v p).mnt := by
  induction v with
  | nil => simp at h
  | cons m rest ih =>
      have hrest : Fresh n₀ rest := fun x hx => hv x (List.mem_cons_of_mem _ hx)
      rw [climb_cons]
      split
      next => exact climb_new hrest.layered (hv m List.mem_cons_self)
      next hnot =>
        obtain ⟨x, hx, hsits⟩ := h
        rcases List.mem_cons.mp hx with rfl | hx
        · exact absurd hsits hnot
        · exact ih hrest ⟨x, hx, hsits⟩

theorem locate_fresh (hv : Layered n₀ v) (names : List Name) {p : Place} (hp : n₀ ≤ p.mnt) :
    n₀ ≤ (locate v p names).mnt := by
  induction names generalizing p with
  | nil => exact hp
  | cons name rest ih => exact ih (climb_new hv hp)

theorem climb_map (hf : ∀ m, (f m).shape = m.shape) (p : Place) :
    climb (v.map f) p = climb v p := by
  unfold climb
  rw [List.foldl_map]
  congr 1
  funext q m
  rw [shape_sitsOn (hf m), shape_top (hf m)]

/-- Nothing goes away: a way leads where it led, or on to what is new. -/
theorem Varies.climb (h : Varies n v f new v') (hn : n₀ ≤ n) (p : Place) :
    MountSpace.climb v' p = MountSpace.climb v p ∨ n₀ ≤ (MountSpace.climb v' p).mnt := by
  have hnew : Fresh n₀ new := fun m hm => Nat.le_trans hn (h.new m hm).1
  rw [h.eq, climb_append, climb_map h.shape]
  exact climb_fresh hnew _

theorem Varies.enter (h : Varies n v f new v') (hn : n₀ ≤ n)
    (hv : Layered n₀ v) {p p' : Place} (hp : p' = p ∨ n₀ ≤ p'.mnt) (name : Name) :
    MountSpace.enter v' p' name = MountSpace.enter v p name ∨
      n₀ ≤ (MountSpace.enter v' p' name).mnt := by
  rcases hp with rfl | hp
  · exact h.climb hn _
  · exact .inr (climb_new (h.layered hn hv) hp)

theorem Varies.locate (h : Varies n v f new v') (hn : n₀ ≤ n)
    (hv : Layered n₀ v) (names : List Name) {p p' : Place} (hp : p' = p ∨ n₀ ≤ p'.mnt) :
    MountSpace.locate v' p' names = MountSpace.locate v p names ∨
      n₀ ≤ (MountSpace.locate v' p' names).mnt := by
  induction names generalizing p p' with
  | nil => exact hp
  | cons name rest ih => exact ih (h.enter hn hv hp name)

theorem Varies.locate_new (h : Varies n v f new v') (hn : n₀ ≤ n)
    (hv : Layered n₀ v) {names : List Name} {p : Place}
    (hnew : n₀ ≤ (MountSpace.locate v p names).mnt) :
    n₀ ≤ (MountSpace.locate v' p names).mnt := by
  rcases h.locate hn hv names (.inl rfl) with heq | hnew'
  · rwa [heq]
  · exact hnew'

/-- Where something new comes to lie, the way leads on to it. -/
theorem Varies.locate_lands (h : Varies n v f new v') (hn : n₀ ≤ n)
    (hv : Layered n₀ v) {names : List Name} (hne : names ≠ []) {p : Place}
    (hsits : ∃ m ∈ new, m.sitsOn (MountSpace.locate v p names) = true) :
    n₀ ≤ (MountSpace.locate v' p names).mnt := by
  have hnew : Fresh n₀ new := fun m hm => Nat.le_trans hn (h.new m hm).1
  -- only the last name leads onto the place itself
  have hstep : ∀ view, MountSpace.locate view p names =
      MountSpace.enter view (MountSpace.locate view p names.dropLast) (names.getLast hne) := by
    intro view
    conv_lhs => rw [← List.dropLast_concat_getLast hne]
    exact List.foldl_append
  rw [hstep] at hsits ⊢
  have hway : MountSpace.locate v' p names.dropLast = MountSpace.locate v p names.dropLast ∨
      n₀ ≤ (MountSpace.locate v' p names.dropLast).mnt := h.locate hn hv _ (.inl rfl)
  rcases hway with heq | hreached
  · rw [heq, MountSpace.enter, h.eq, climb_append, climb_map h.shape]
    exact climb_sits hnew hsits
  · exact climb_new (h.layered hn hv) hreached

end layers

/-! ## The calls -/

section calls
variable {s s' : Space} {ns n₀ : Nat}

/-- The calls that mount something at a target. -/
inductive MountsAt (target : Place) : Op → Prop
  | create (root : Dir) : MountsAt target (.create target root)
  | bind (source : Place) (recursive : Bool) : MountsAt target (.bind source target recursive)

theorem apply_lands {op : Op} {start : Place} {names : List Name} (hne : names ≠ [])
    (hop : MountsAt (locate (s.view ns) start names) op) (hs : s.apply ns op = some s')
    (hn : n₀ ≤ s.next) (hv : Layered n₀ (s.view ns)) :
    n₀ ≤ (locate (s'.view ns) start names).mnt := by
  have hattach : ∀ (tree : List Mnt) (p : Mnt), (∃ x ∈ tree, x.above = []) →
      s.find ns (locate (s.view ns) start names).mnt = some p →
      s' = s.attach 1 p (locate (s.view ns) start names).dir tree →
      n₀ ≤ (locate (s'.view ns) start names).mnt := by
    rintro tree p ⟨x, hx, habove⟩ hp rfl
    obtain ⟨new, hvaries, hlands⟩ := attach_varies (find_mem hp).1 (.inl rfl)
    obtain ⟨m, hm, hsits⟩ := hlands x hx habove (find_mem hp).2
    refine hvaries.locate_lands hn hv hne ⟨m, hm, ?_⟩
    have hid : p.id = (locate (s.view ns) start names).mnt := by
      simpa using List.find?_some hp
    rw [hid] at hsits
    exact hsits
  cases hop with
  | create root =>
      obtain ⟨p, hp, hs⟩ := create_eq_some.mp hs
      exact hattach _ p ⟨fresh root, List.mem_singleton_self _, rfl⟩ hp hs.symm
  | bind source recursive =>
      obtain ⟨m, -, p, hp, -, hs⟩ := bind_eq_some.mp hs
      exact hattach _ p ⟨_, List.mem_cons_self, rfl⟩ hp hs.symm

/-! ## Turning the root over -/

/-- The old root lies on the new one, and carries all old mounts. -/
structure Turned (n₀ r n : Nat) (v : List Mnt) : Prop where
  root : ∀ m ∈ v, m.id = r → m.above = [n]
  old : ∀ m ∈ v, m.id < n₀ → [n, r] <+: m.way

theorem Varies.turned {k r n : Nat} {v v' new : List Mnt} {f : Mnt → Mnt}
    (h : Varies k v f new v') (hk : n₀ ≤ k) (hr : r < n₀) (hv : Turned n₀ r n v) :
    Turned n₀ r n v' := by
  rw [h.eq]
  constructor
  · intro m hm hid
    rcases List.mem_append.mp hm with hm | hm
    · obtain ⟨x, hx, rfl⟩ := List.mem_map.mp hm
      rw [shape_id (h.shape x)] at hid
      rw [shape_above (h.shape x)]
      exact hv.root x hx hid
    · have hnew := (h.new m hm).1
      omega
  · intro m hm hold
    rcases List.mem_append.mp hm with hm | hm
    · obtain ⟨x, hx, rfl⟩ := List.mem_map.mp hm
      rw [shape_id (h.shape x)] at hold
      rw [shape_way (h.shape x)]
      exact hv.old x hx hold
    · have hnew := (h.new m hm).1
      omega

theorem mem_turn_view {r n m : Mnt} (hm : m ∈ (s.turn r n).view n.ns) :
    ∃ x ∈ s.view n.ns, m.id = x.id ∧
      (n.way <+: x.way ∧ m.above = x.above.drop n.above.length ∨
        ¬ n.way <+: x.way ∧ m.above = n.id :: x.above) := by
  obtain ⟨hm, hns⟩ := mem_view.mp hm
  rcases List.mem_append.mp hm with hm | hm
  · obtain ⟨x, hx, rfl⟩ := List.mem_map.mp hm
    obtain ⟨hmem, hkeep⟩ := List.mem_filter.mp hx
    have hxns : x.ns = n.ns := by
      split at hns
      · next h => exact h
      · exact hns
    refine ⟨x, mem_view.mpr ⟨hmem, hxns⟩, by rw [if_pos hxns], .inl ⟨?_, by rw [if_pos hxns]⟩⟩
    simpa [hxns] using hkeep
  · obtain ⟨x, hx, rfl⟩ := List.mem_map.mp hm
    obtain ⟨hview, hout⟩ := List.mem_filter.mp hx
    exact ⟨x, hview, rfl, .inr ⟨by simpa using hout, rfl⟩⟩

theorem pivot_fresh {root new : Place} (hs : s.apply ns (.pivot root new) = some s')
    (hv : Fresh n₀ (s.view ns)) : Fresh n₀ (s'.view ns) ∧ n₀ ≤ new.mnt := by
  obtain ⟨r, -, n, hn, p, -, -, rfl⟩ := pivot_eq_some.mp hs
  obtain ⟨hmem, hns, hid, -⟩ := mountPoint_mem hn
  refine ⟨?_, hid ▸ hv n (mem_view.mpr ⟨hmem, hns⟩)⟩
  intro m hm
  rw [← hns] at hm
  obtain ⟨x, hx, hsame, -⟩ := mem_turn_view hm
  rw [hsame]
  exact hv x (hns ▸ hx)

/-- Only a mount that lies on another one can be turned to. -/
theorem pivot_ne {root new : Place} (hs : s.apply ns (.pivot root new) = some s')
    (hroot : Rooted (s.view ns) root.mnt) : new.mnt ≠ root.mnt := by
  obtain ⟨r, -, n, hn, p, hp, -⟩ := pivot_eq_some.mp hs
  obtain ⟨hmem, hns, hid, -⟩ := mountPoint_mem hn
  intro heq
  have hnil := hroot.bottom n (mem_view.mpr ⟨hmem, hns⟩) (hid.trans heq)
  rw [Space.beneath, hnil] at hp
  cases hp

theorem pivot_turned {root new : Place} (hs : s.apply ns (.pivot root new) = some s')
    (hroot : Rooted (s.view ns) root.mnt) (hv : Layered n₀ (s.view ns)) (hold : root.mnt < n₀)
    (hnew : n₀ ≤ new.mnt) : Turned n₀ root.mnt new.mnt (s'.view ns) := by
  obtain ⟨r, -, n, hn, p, -, -, hturned⟩ := pivot_eq_some.mp hs
  obtain ⟨hmem, hns, hid, -⟩ := mountPoint_mem hn
  -- an old mount does not lie on the new root
  have hout : ∀ x ∈ s.view ns, x.id < n₀ → ¬ n.way <+: x.way := by
    intro x hx hxold hbegins
    have hmem : n.id ∈ x.way := hbegins.subset (by simp [Mnt.way])
    rcases List.mem_append.mp hmem with habove | hself
    · have := hv x hx hxold n.id habove
      omega
    · have := List.mem_singleton.mp hself
      omega
  have hlies : ∀ m ∈ s'.view ns, m.id < n₀ → ∃ x ∈ s.view ns, m.id = x.id ∧
      m.above = new.mnt :: x.above := by
    intro m hm hlt
    rw [← hturned, ← hns] at hm
    obtain ⟨x, hx, hsame, hcases⟩ := mem_turn_view hm
    rw [hns] at hx
    rcases hcases with ⟨hbegins, -⟩ | ⟨-, habove⟩
    · exact absurd hbegins (hout x hx (hsame ▸ hlt))
    · exact ⟨x, hx, hsame, hid ▸ habove⟩
  constructor
  · intro m hm heq
    obtain ⟨x, hx, hsame, habove⟩ := hlies m hm (heq ▸ hold)
    rw [habove, hroot.bottom x hx (hsame.symm.trans heq)]
  · intro m hm hlt
    obtain ⟨x, hx, hsame, habove⟩ := hlies m hm hlt
    have hway : m.way = new.mnt :: x.way := by simp [Mnt.way, habove, hsame]
    obtain ⟨rest, hrest⟩ := List.head?_eq_some_iff.mp (hroot.head x hx)
    rw [hway, hrest]
    exact ⟨rest, rfl⟩

/-- With the old root all old mounts go. -/
theorem umount_fresh {old : Place} {n : Nat} {lost : List Nat}
    (hs : s.apply ns (.umount old lost) = some s')
    (hv : Turned n₀ old.mnt n (s.view ns)) : Fresh n₀ (s'.view ns) := by
  obtain ⟨m, hm, -, rfl⟩ := umount_eq_some.mp hs
  obtain ⟨hmem, hns, hid, -⟩ := mountPoint_mem hm
  have hway : m.way = [n, old.mnt] := by
    rw [Mnt.way, hv.root m (mem_view.mpr ⟨hmem, hns⟩) hid, hid]
    rfl
  intro y hy
  obtain ⟨hy, hyns⟩ := mem_view.mp hy
  obtain ⟨x, hx, rfl⟩ := List.mem_map.mp hy
  obtain ⟨hxmem, hkept⟩ := List.mem_filter.mp hx
  have hxns : x.ns = ns := hyns
  by_contra hold
  have hbegins := hv.old x (mem_view.mpr ⟨hxmem, hxns⟩) (Nat.lt_of_not_le hold)
  have hcovers : m.covers true x = true := by
    simp [Mnt.covers, hxns, hns, hway, hbegins]
  simp [Space.goes, hcovers] at hkept

/-- Moved mounts keep their names. -/
theorem move_fresh {source target : Place} (hs : s.apply ns (.move source target) = some s')
    (hv : Fresh n₀ (s.view ns)) : Fresh n₀ (s'.view ns) := by
  obtain ⟨m, hm, p, -, n, -, -, rfl⟩ := move_eq_some.mp hs
  have hns := (mountPoint_mem hm).2.1
  intro y hy
  obtain ⟨hy, hyns⟩ := mem_view.mp hy
  rw [Space.move, attach_eq] at hy
  rcases List.mem_append.mp hy with hy | hy
  · exact hv y (mem_view.mpr ⟨(List.mem_filter.mp hy).1, hyns⟩)
  · obtain ⟨at', -, hy⟩ := List.mem_flatMap.mp hy
    obtain ⟨z, hz, rfl⟩ := List.mem_map.mp hy
    obtain ⟨x, hx, rfl⟩ := List.mem_map.mp hz
    have hx := hv x (hns ▸ (List.mem_filter.mp hx).1)
    exact Nat.le_trans hx (Nat.le_add_left _ _)

/-- Once all mounts are new, they stay so. -/
theorem apply_fresh {caller : Nat} {op : Op} (hs : s.apply caller op = some s')
    (hns : ns ≠ s.next) (hn : n₀ ≤ s.next) (hv : Fresh n₀ (s.view ns)) :
    Fresh n₀ (s'.view ns) := by
  by_cases hcaller : caller = ns
  · subst hcaller
    cases op with
    | move source target => exact move_fresh hs hv
    | umount target lost =>
        obtain ⟨gone, hthins⟩ := umount_thins hs
        exact hthins.fresh hv
    | pivot root new => exact (pivot_fresh hs hv).1
    | _ =>
        obtain ⟨f, new, hvaries⟩ := apply_varies hs hns rfl
        exact hvaries.fresh hn hv
  · rcases apply_elsewhere hs hns hcaller with ⟨f, new, hvaries⟩ | ⟨gone, hthins⟩
    · exact hvaries.fresh hn hv
    · exact hthins.fresh hv

end calls

end MountSpace
