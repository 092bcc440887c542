import Mars.Core.MountSides

/-! # What lies on a root

How a call changes the mounts of one namespace: some go, some change their type, and
new ones come to lie on old ones. A root stays one, and what is found on a new mount
is found on a new mount ever after.
-/

namespace MountSpace
open UnixPath

/-- All that a change of the type leaves. -/
def Mnt.shape (m : Mnt) : Nat × Nat × List Nat × Dir × Dir :=
  (m.id, m.ns, m.above, m.point, m.root)

/-- `v'` is `v` with types changed, and then what is new lies on mounts of `v`. -/
structure Varies (n : Nat) (v : List Mnt) (f : Mnt → Mnt) (new v' : List Mnt) : Prop where
  eq : v' = v.map f ++ new
  shape : ∀ m, (f m).shape = m.shape
  new : ∀ m ∈ new, n ≤ m.id ∧ ∃ q ∈ v, q.way <+: m.above

/-- `v'` is left of `v`, without any mount that is gone, and no root is gone. -/
structure Thins (v : List Mnt) (gone : List Nat) (v' : List Mnt) : Prop where
  left : ∀ m ∈ v', ∃ x ∈ v, m.id = x.id ∧ m.above = x.above.filter (· ∉ gone)
  roots : ∀ i ∈ gone, ∃ x ∈ v, x.id = i ∧ x.above ≠ []

section shape
variable {m m' : Mnt}

theorem shape_id (h : m'.shape = m.shape) : m'.id = m.id := congrArg (·.1) h

theorem shape_ns (h : m'.shape = m.shape) : m'.ns = m.ns := congrArg (·.2.1) h

theorem shape_above (h : m'.shape = m.shape) : m'.above = m.above := congrArg (·.2.2.1) h

theorem shape_way (h : m'.shape = m.shape) : m'.way = m.way := by
  rw [Mnt.way, Mnt.way, shape_above h, shape_id h]

theorem shape_point (h : m'.shape = m.shape) : m'.point = m.point := congrArg (·.2.2.2.1) h

theorem shape_root (h : m'.shape = m.shape) : m'.root = m.root := congrArg (·.2.2.2.2) h

theorem shape_top (h : m'.shape = m.shape) : m'.top = m.top := by
  rw [Mnt.top, Mnt.top, shape_id h, shape_root h]

theorem shape_sitsOn (h : m'.shape = m.shape) (p : Place) : m'.sitsOn p = m.sitsOn p := by
  rw [Mnt.sitsOn, Mnt.sitsOn, shape_above h, shape_point h]

theorem shape_change (m : Mnt) (fresh : Nat) (change : Change) :
    (m.change fresh change).shape = m.shape := by
  cases change <;> rfl

end shape

/-! ## The mounts of one namespace after a call -/

section views
variable {s s' : Space} {n ns : Nat} {v v' : List Mnt}

theorem mem_view {m : Mnt} : m ∈ s.view ns ↔ m ∈ s.mounts ∧ m.ns = ns := by simp [Space.view]

theorem Varies.refl (n : Nat) (v : List Mnt) : Varies n v id [] v where
  eq := by simp
  shape := fun _ => rfl
  new := by simp

/-- Unless it keeps its names, all of a tree that is laid out is new; and elsewhere in any case. -/
theorem attach_varies {p : Mnt} (hp : p ∈ s.mounts) {first : Nat}
    (hfirst : first = 1 ∨ p.ns ≠ ns) {dir : Dir} {tree : List Mnt} :
    ∃ new, Varies s.next (s.view ns) id new ((s.attach first p dir tree).view ns) ∧
      ∀ x ∈ tree, x.above = [] → p.ns = ns → ∃ m ∈ new, m.sitsOn ⟨p.id, dir⟩ = true := by
  refine ⟨((p :: s.receivers p dir).zipIdx.flatMap fun target =>
    tree.map ((s.layout p dir).copy target.1 dir (s.next * (target.2 + first)))).filter
      fun m => m.ns = ns, ⟨?_, fun _ => rfl, ?_⟩, ?_⟩
  · rw [Space.view, attach_eq, List.filter_append, List.map_id, Space.view]
  · intro m hm
    obtain ⟨hm, hns⟩ := List.mem_filter.mp hm
    obtain ⟨target, htarget, hm⟩ := List.mem_flatMap.mp hm
    obtain ⟨x, -, rfl⟩ := List.mem_map.mp hm
    have htargets : target.1 ∈ p :: s.receivers p dir := List.fst_mem_of_mem_zipIdx htarget
    have hns : target.1.ns = ns := of_decide_eq_true hns
    have hshift : 0 < target.2 + first := by
      rcases hfirst with rfl | hother
      · exact Nat.succ_pos _
      · cases hindex : target.2 with
        | zero =>
            obtain ⟨hlt, hget⟩ := List.mem_zipIdx' htarget
            simp only [hindex, List.getElem_cons_zero] at hget
            exact absurd (hget ▸ hns) hother
        | succ i => omega
    refine ⟨?_, target.1, mem_view.mpr ⟨?_, hns⟩, ?_⟩
    · exact Nat.le_trans (Nat.le_mul_of_pos_right _ hshift) (Nat.le_add_right _ _)
    · rcases List.mem_cons.mp htargets with heq | hmem
      · exact heq ▸ hp
      · exact (List.mem_filter.mp hmem).1
    · exact List.prefix_append _ _
  · intro x hx habove hns
    have hmem : (p, 0) ∈ (p :: s.receivers p dir).zipIdx := by simp
    refine ⟨_, List.mem_filter.mpr ⟨List.mem_flatMap.mpr ⟨_, hmem, List.mem_map_of_mem hx⟩,
      decide_eq_true hns⟩, ?_⟩
    simp [Mnt.sitsOn, Layout.copy, habove, Mnt.way]

theorem change_varies (s : Space) (ns : Nat) (m : Mnt) (change : Change) (recursive : Bool) :
    ∃ f, Varies s.next (s.view ns) f [] ((s.change m change recursive).view ns) := by
  have hshape : ∀ x : Mnt, (if m.covers recursive x then x.change (s.next + x.id) change
      else x).shape = x.shape := by
    intro x
    split
    · exact shape_change x _ _
    · rfl
  refine ⟨_, ?_, hshape, by simp⟩
  rw [Space.view, Space.change, List.filter_map, List.append_nil]
  congr 1
  rw [Space.view]
  apply List.filter_congr
  intro x _
  simp [Function.comp, shape_ns (hshape x)]

/-- In another namespace only copies of a moved tree are new. -/
theorem move_varies {m n : Mnt} (hn : n ∈ s.mounts) (hmn : m.ns = n.ns) (hout : ¬ m.way <+: n.way)
    (hother : n.ns ≠ ns) {dir : Dir} :
    ∃ new, Varies s.next (s.view ns) id new ((s.move m n dir).view ns) := by
  let rest : Space := { s with mounts := s.mounts.filter fun x => !m.covers true x }
  have hstays : n ∈ rest.mounts :=
    List.mem_filter.mpr ⟨hn, by simp [Mnt.covers, hout]⟩
  have hview : rest.view ns = s.view ns := by
    rw [Space.view, Space.view, List.filter_filter]
    apply List.filter_congr
    intro x _
    by_cases hx : x.ns = ns
    · have hne : ¬ x.ns = m.ns := fun heq => hother (by rw [← hmn, ← heq, hx])
      have hcovers : m.covers true x = false := by simp [Mnt.covers, hne]
      simp [hx, hcovers]
    · simp [hx]
  obtain ⟨new, hvaries, -⟩ := attach_varies hstays (.inr hother)
  exact ⟨new, hview ▸ hvaries⟩

theorem detach_thins (s : Space) (ns : Nat) {m : Mnt} (hm : m.above ≠ []) (lost : List Nat) :
    Thins (s.view ns) (s.gone m lost ns) ((s.detach m lost).view ns) where
  left := by
    intro y hy
    obtain ⟨hy, hns⟩ := mem_view.mp hy
    obtain ⟨x, hx, rfl⟩ := List.mem_map.mp hy
    have hns : x.ns = ns := hns
    exact ⟨x, mem_view.mpr ⟨(List.mem_filter.mp hx).1, hns⟩, rfl, by rw [← hns]; rfl⟩
  roots := by
    intro i hi
    obtain ⟨x, hx, rfl⟩ := List.mem_map.mp hi
    obtain ⟨hview, hgoes⟩ := List.mem_filter.mp hx
    refine ⟨x, hview, rfl, ?_⟩
    simp only [Space.goes, Bool.or_eq_true, decide_eq_true_eq] at hgoes
    rcases hgoes with hcovers | ⟨-, habove, -⟩
    · simp only [Mnt.covers, decide_eq_true_eq] at hcovers
      obtain ⟨-, rest, hway⟩ := hcovers
      intro hnil
      obtain ⟨first, others, habove⟩ := List.exists_cons_of_ne_nil hm
      have hlength := congrArg List.length hway
      simp [Mnt.way, hnil, habove] at hlength
    · exact habove

theorem change_view_other {m : Mnt} (hns : m.ns ≠ ns) (change : Change) (recursive : Bool) :
    (s.change m change recursive).view ns = s.view ns := by
  obtain ⟨f, hf⟩ : ∃ f : Mnt → Mnt, (s.change m change recursive).view ns = (s.view ns).map f ∧
      ∀ x : Mnt, x.ns = ns → f x = x := by
    refine ⟨fun x => if m.covers recursive x then x.change (s.next + x.id) change else x, ?_, ?_⟩
    · rw [Space.view, Space.change, List.filter_map, Space.view]
      congr 1
      apply List.filter_congr
      intro x _
      by_cases hx : m.covers recursive x
      · simp [Function.comp, hx, shape_ns (shape_change x _ _)]
      · simp [Function.comp, hx]
    · intro x hx
      refine if_neg fun hcovers => hns ?_
      simp only [Mnt.covers, decide_eq_true_eq] at hcovers
      exact hcovers.1.symm.trans hx
  calc _ = (s.view ns).map f := hf.1
    _ = (s.view ns).map id := List.map_congr_left fun x hx => hf.2 x (mem_view.mp hx).2
    _ = s.view ns := List.map_id _

theorem turn_view_other {r n : Mnt} (hns : n.ns ≠ ns) : (s.turn r n).view ns = s.view ns := by
  have hsame : ∀ x : Mnt, x.ns = ns → ¬ x.ns = n.ns := by
    intro x hx hn
    exact hns (hn.symm.trans hx)
  rw [Space.view, Space.turn, List.filter_append]
  have hnone : (((s.view n.ns).filter fun x => ¬ n.way <+: x.way).map fun x =>
      { x with
        above := n.id :: x.above
        point := if x.id = r.id then n.root else x.point }).filter (fun m => m.ns = ns) = [] := by
    apply List.filter_eq_nil_iff.mpr
    intro y hy
    obtain ⟨x, hx, rfl⟩ := List.mem_map.mp hy
    have hview := mem_view.mp (List.mem_filter.mp hx).1
    simpa [hview.2] using hns
  rw [hnone, List.append_nil, List.filter_map, List.filter_filter]
  have hfilter : (s.mounts.filter fun x =>
      (decide
          ((if x.ns = n.ns then { x with above := x.above.drop n.above.length } else x).ns = ns) &&
        !decide (x.ns = n.ns ∧ ¬ n.way <+: x.way))) = s.view ns := by
    apply List.filter_congr
    intro x _
    by_cases hx : x.ns = ns
    · simp [hx, Ne.symm hns]
    · have hkeep : (if x.ns = n.ns then { x with above := x.above.drop n.above.length } else x).ns
          ≠ ns := by
        split <;> exact hx
      simp [hx, hkeep]
  calc _ = (s.view ns).map fun x =>
        if x.ns = n.ns then { x with above := x.above.drop n.above.length } else x := by
        rw [← hfilter]
        rfl
    _ = (s.view ns).map id := by
        apply List.map_congr_left
        intro x hx
        exact if_neg (hsame x (mem_view.mp hx).2)
    _ = s.view ns := List.map_id _

theorem fork_view_other {from' : Nat} {otherOwner : Bool} (hns : ns ≠ s.next) :
    (s.fork from' otherOwner).view ns = s.view ns := by
  rw [Space.view, Space.fork, List.filter_append]
  have hnone : ∀ f : Mnt → Mnt, (∀ x, (f x).ns = s.next) →
      ((s.view from').map f).filter (fun m => m.ns = ns) = [] := by
    intro f hf
    apply List.filter_eq_nil_iff.mpr
    intro y hy
    obtain ⟨x, -, rfl⟩ := List.mem_map.mp hy
    simpa [hf] using Ne.symm hns
  rw [hnone _ fun _ => rfl, List.append_nil, Space.view]

/-- Nothing goes away. -/
def Op.additive : Op → Bool
  | .move _ _ => false
  | .umount _ _ => false
  | .pivot _ _ => false
  | _ => true

theorem apply_varies {caller : Nat} {op : Op} (hs : s.apply caller op = some s')
    (hns : ns ≠ s.next) (hop : op.additive = true) :
    ∃ f new, Varies s.next (s.view ns) f new (s'.view ns) := by
  cases op with
  | create target root =>
      obtain ⟨p, hp, rfl⟩ := create_eq_some.mp hs
      obtain ⟨new, hnew, -⟩ := attach_varies (find_mem hp).1 (.inl rfl)
      exact ⟨_, new, hnew⟩
  | bind source target recursive =>
      obtain ⟨m, -, p, hp, -, rfl⟩ := bind_eq_some.mp hs
      obtain ⟨new, hnew, -⟩ := attach_varies (find_mem hp).1 (.inl rfl)
      exact ⟨_, new, hnew⟩
  | change target change recursive =>
      obtain ⟨m, -, rfl⟩ := change_eq_some.mp hs
      obtain ⟨f, hf⟩ := change_varies s ns m change recursive
      exact ⟨f, _, hf⟩
  | unshare otherOwner =>
      obtain rfl := unshare_eq_some.mp hs
      refine ⟨id, [], ?_⟩
      rw [fork_view_other hns]
      exact Varies.refl _ _
  | move source target => cases hop
  | umount target lost => cases hop
  | pivot root new => cases hop

theorem umount_thins {caller : Nat} {target : Place} {lost : List Nat}
    (hs : s.apply caller (.umount target lost) = some s') :
    ∃ gone, Thins (s.view ns) gone (s'.view ns) := by
  obtain ⟨m, -, ⟨p, hp⟩, rfl⟩ := umount_eq_some.mp hs
  have hm : m.above ≠ [] := by
    intro hnil
    rw [Space.beneath, hnil] at hp
    cases hp
  exact ⟨_, detach_thins s ns hm lost⟩

/-- What a call from another namespace does to the mounts of this one. -/
theorem apply_elsewhere {caller : Nat} {op : Op} (hs : s.apply caller op = some s')
    (hns : ns ≠ s.next) (hcaller : caller ≠ ns) :
    (∃ f new, Varies s.next (s.view ns) f new (s'.view ns)) ∨
      ∃ gone, Thins (s.view ns) gone (s'.view ns) := by
  cases op with
  | move source target =>
      obtain ⟨m, hm, p, -, n, hn, ⟨-, hout, -⟩, rfl⟩ := move_eq_some.mp hs
      obtain ⟨hmem, htarget⟩ := find_mem hn
      have hsource := (mountPoint_mem hm).2.1
      obtain ⟨new, hnew⟩ := @move_varies s ns m n hmem (hsource.trans htarget.symm) hout
        (htarget ▸ hcaller) target.dir
      exact .inl ⟨_, new, hnew⟩
  | umount target lost => exact .inr (umount_thins hs)
  | pivot root new =>
      obtain ⟨r, -, n, hn, p, -, -, rfl⟩ := pivot_eq_some.mp hs
      have hother : n.ns ≠ ns := (mountPoint_mem hn).2.1 ▸ hcaller
      refine .inl ⟨id, [], ?_⟩
      rw [turn_view_other hother]
      exact Varies.refl _ _
  | _ => exact .inl (apply_varies hs hns rfl)

end views

/-! ## Roots -/

/-- All mounts lie on one of them. -/
structure Rooted (v : List Mnt) (r : Nat) : Prop where
  head : ∀ m ∈ v, m.way.head? = some r
  bottom : ∀ m ∈ v, m.id = r → m.above = []

theorem head_of_prefix {a b : List Nat} {r : Nat} (h : a <+: b) (ha : a.head? = some r) :
    b.head? = some r := by
  obtain ⟨rest, rfl⟩ := h
  rw [List.head?_append, ha]
  rfl

theorem Varies.rooted {n r : Nat} {v v' new : List Mnt} {f : Mnt → Mnt}
    (h : Varies n v f new v') (hr : r < n) (hroot : Rooted v r) : Rooted v' r := by
  rw [h.eq]
  constructor
  · intro m hm
    rcases List.mem_append.mp hm with hm | hm
    · obtain ⟨x, hx, rfl⟩ := List.mem_map.mp hm
      rw [shape_way (h.shape x)]
      exact hroot.head x hx
    · obtain ⟨-, q, hq, hbegins⟩ := h.new m hm
      exact head_of_prefix (hbegins.trans (List.prefix_append _ _)) (hroot.head q hq)
  · intro m hm hid
    rcases List.mem_append.mp hm with hm | hm
    · obtain ⟨x, hx, rfl⟩ := List.mem_map.mp hm
      rw [shape_above (h.shape x)]
      exact hroot.bottom x hx ((shape_id (h.shape x)).symm.trans hid)
    · have hnew := (h.new m hm).1
      omega

theorem Thins.rooted {r : Nat} {v v' : List Mnt} {gone : List Nat} (h : Thins v gone v')
    (hroot : Rooted v r) : Rooted v' r := by
  have hstays : r ∉ gone := by
    intro hr
    obtain ⟨x, hx, hid, habove⟩ := h.roots r hr
    exact habove (hroot.bottom x hx hid)
  constructor
  · intro m hm
    obtain ⟨x, hx, hid, habove⟩ := h.left m hm
    have hhead := hroot.head x hx
    rw [Mnt.way, habove, hid]
    cases hlies : x.above with
    | nil => simpa [Mnt.way, hlies] using hhead
    | cons first rest =>
        have hfirst : first = r := by simpa [Mnt.way, hlies] using hhead
        simp [hfirst, hstays]
  · intro m hm hr
    obtain ⟨x, hx, hid, habove⟩ := h.left m hm
    rw [habove, hroot.bottom x hx (hid.symm.trans hr)]
    rfl

section roots
variable {s s' : Space} {ns r : Nat}

theorem Space.Named.view_new (h : s.Named) {from' : Nat} {otherOwner : Bool} {m : Mnt}
    (hm : m ∈ (s.fork from' otherOwner).view s.next) :
    ∃ x ∈ s.view from', m.id = s.next + x.id ∧ m.above = x.above.map (s.next + ·) := by
  obtain ⟨hm, hns⟩ := mem_view.mp hm
  rcases List.mem_append.mp hm with hm | hm
  · have := (h.mounts m hm).ns
    omega
  · obtain ⟨x, hx, rfl⟩ := List.mem_map.mp hm
    exact ⟨x, hx, rfl, rfl⟩

/-- The copy of a root is a root of the copies. -/
theorem Rooted.fork (h : s.Named) {from' : Nat} (hroot : Rooted (s.view from') r)
    (otherOwner : Bool) : Rooted ((s.fork from' otherOwner).view s.next) (s.next + r) where
  head := by
    intro m hm
    obtain ⟨x, hx, hid, habove⟩ := h.view_new hm
    have hway : m.way = x.way.map (s.next + ·) := by simp [Mnt.way, hid, habove]
    rw [hway, List.head?_map, hroot.head x hx]
    rfl
  bottom := by
    intro m hm heq
    obtain ⟨x, hx, hid, habove⟩ := h.view_new hm
    rw [habove, hroot.bottom x hx (by omega), List.map_nil]

/-- From the root on, everything in the namespace becomes private. -/
theorem Rooted.makePrivate (hroot : Rooted (s.view ns) r) {dir : Dir}
    (hs : s.apply ns (.change ⟨r, dir⟩ .makePrivate true) = some s') :
    ∀ m ∈ s'.mounts, if m.ns = ns then m.group = none ∧ m.master = none else m ∈ s.mounts := by
  obtain ⟨root, hfind, rfl⟩ := change_eq_some.mp hs
  obtain ⟨hmem, hns, hid, -⟩ := mountPoint_mem hfind
  have hway : root.way = [r] := by
    rw [Mnt.way, hroot.bottom root (mem_view.mpr ⟨hmem, hns⟩) hid, hid]
    rfl
  intro m hm
  obtain ⟨x, hx, rfl⟩ := List.mem_map.mp hm
  by_cases hxns : x.ns = ns
  · have hcovers : root.covers true x = true := by
      have hhead := hroot.head x (mem_view.mpr ⟨hx, hxns⟩)
      obtain ⟨rest, hrest⟩ := List.head?_eq_some_iff.mp hhead
      simp [Mnt.covers, hxns, hns, hway, hrest]
    rw [if_pos hcovers]
    simp [Mnt.change, hxns]
  · have hcovers : ¬ root.covers true x = true := by
      intro hcovers
      simp only [Mnt.covers, decide_eq_true_eq] at hcovers
      exact hxns (hcovers.1.trans hns)
    rw [if_neg hcovers, if_neg hxns]
    exact hx

theorem Rooted.apart (h : s.Named) (hroot : Rooted (s.view ns) r) (hns : ns < s.next)
    {inner : Nat → Bool} (hinner : ∀ i < s.next, inner i = decide (i = ns)) {dir : Dir}
    (hs : s.apply ns (.change ⟨r, dir⟩ .makePrivate true) = some s') :
    ∃ own, Apart (extend s.next inner true) own s' := by
  have hprivate := hroot.makePrivate hs
  have hnamed := h.apply hs
  have hle := h.next_le hs
  have hold : ∀ m ∈ s'.mounts, m.ns < s.next ∧
      extend s.next inner true m.ns = decide (m.ns = ns) := by
    intro m hm
    have hlt : m.ns < s.next := by
      have hm := hprivate m hm
      split at hm
      next heq => rwa [heq]
      next => exact (h.mounts m hm).ns
    exact ⟨hlt, by rw [extend_old hlt, hinner m.ns hlt]⟩
  refine ⟨fun _ => false, ?_, hnamed.links⟩
  intro m hm
  obtain ⟨hlt, hside⟩ := hold m hm
  have hm' := hprivate m hm
  have hnames := hnamed.mounts m hm
  refine ⟨hnames.id, hnames.above, hnames.ns, rfl, ?_, ?_⟩
  · intro g hg
    refine ⟨(hnames.group g hg).1, ?_⟩
    split at hm'
    next => simp [hm'.1] at hg
    next hne => simp [hside, hne]
  · intro g hg
    refine ⟨(hnames.master g hg).1, ?_⟩
    split at hm'
    next => simp [hm'.2] at hg
    next hne => simp [hside, hne]

end roots

end MountSpace
