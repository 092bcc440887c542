import Mars.Core.MountSpace

/-! # Two sides of mount namespaces

Namespaces are on one of two sides, and so are groups. Where no mount has a group
of the other side, a call changes nothing on the other side, and this stays so:
whatever is new is on the side of the caller.
-/

namespace MountSpace

/-- Whatever is new is on one side. -/
def extend (n : Nat) (side : Nat → Bool) (b : Bool) : Nat → Bool :=
  fun i => if i < n then side i else b

theorem extend_old {n i : Nat} {side : Nat → Bool} {b : Bool} (h : i < n) :
    extend n side b i = side i := if_pos h

theorem extend_new {n i : Nat} {side : Nat → Bool} {b : Bool} (h : n ≤ i) :
    extend n side b i = b := if_neg (Nat.not_lt.mpr h)

/-- Names below `n`, and all groups on one side. -/
structure Belongs (side own : Nat → Bool) (n : Nat) (b : Bool) (m : Mnt) : Prop where
  id : m.id < n
  above : ∀ i ∈ m.above, i < n
  ns : m.ns < n
  side : side m.ns = b
  group : ∀ g, m.group = some g → g < n ∧ own g = b
  master : ∀ g, m.master = some g → g < n ∧ own g = b

def LinkBelongs (own : Nat → Bool) (n : Nat) (b : Bool) (link : Nat × Nat) : Prop :=
  link.1 < n ∧ link.2 < n ∧ own link.1 = b ∧ own link.2 = b

structure Apart (side own : Nat → Bool) (s : Space) : Prop where
  mounts : ∀ m ∈ s.mounts, Belongs side own s.next (side m.ns) m
  links : ∀ link ∈ s.links, LinkBelongs own s.next (own link.1) link

/-- The mounts of the other side. -/
def Space.across (s : Space) (side : Nat → Bool) (b : Bool) : List Mnt :=
  s.mounts.filter fun m => side m.ns ≠ b

/-! ## What a call may add -/

section kept
variable {side own : Nat → Bool} {s s' : Space} {b : Bool} {m : Mnt}

theorem Belongs.extend {n n' : Nat} {c : Bool} (h : Belongs side own n c m) (hle : n ≤ n') :
    Belongs (extend n side b) (extend n own b) n' c m where
  id := Nat.lt_of_lt_of_le h.id hle
  above := fun i hi => Nat.lt_of_lt_of_le (h.above i hi) hle
  ns := Nat.lt_of_lt_of_le h.ns hle
  side := by rw [extend_old h.ns, h.side]
  group := by
    intro g hg
    obtain ⟨hlt, hown⟩ := h.group g hg
    exact ⟨Nat.lt_of_lt_of_le hlt hle, by rw [extend_old hlt, hown]⟩
  master := by
    intro g hg
    obtain ⟨hlt, hown⟩ := h.master g hg
    exact ⟨Nat.lt_of_lt_of_le hlt hle, by rw [extend_old hlt, hown]⟩

theorem Belongs.way {n : Nat} {c : Bool} (h : Belongs side own n c m) : ∀ i ∈ m.way, i < n := by
  intro i hi
  rcases List.mem_append.mp hi with hi | hi
  · exact h.above i hi
  · exact List.mem_singleton.mp hi ▸ h.id

theorem LinkBelongs.extend {n n' : Nat} {c : Bool} {link : Nat × Nat}
    (h : LinkBelongs own n c link) (hle : n ≤ n') :
    LinkBelongs (extend n own b) n' c link := by
  obtain ⟨hfirst, hsecond, hown, hown'⟩ := h
  exact ⟨Nat.lt_of_lt_of_le hfirst hle, Nat.lt_of_lt_of_le hsecond hle,
    by rw [extend_old hfirst, hown], by rw [extend_old hsecond, hown']⟩

/-- What is there afterwards was there before or belongs to the caller. -/
structure Adds (side own : Nat → Bool) (b : Bool) (s s' : Space) : Prop where
  next : s.next ≤ s'.next
  mounts : ∀ m ∈ s'.mounts, m ∈ s.mounts ∨
    Belongs (extend s.next side b) (extend s.next own b) s'.next b m
  links : ∀ link ∈ s'.links, link ∈ s.links ∨
    LinkBelongs (extend s.next own b) s'.next b link

theorem Apart.adds (h : Apart side own s) (hadds : Adds side own b s s') :
    Apart (extend s.next side b) (extend s.next own b) s' where
  mounts := by
    intro m hm
    rcases hadds.mounts m hm with hold | hnew
    · have hbelongs := h.mounts m hold
      rw [extend_old hbelongs.ns]
      exact hbelongs.extend hadds.next
    · rw [hnew.side]
      exact hnew
  links := by
    intro link hlink
    rcases hadds.links link hlink with hold | hnew
    · have hbelongs := h.links link hold
      rw [extend_old hbelongs.1]
      exact hbelongs.extend hadds.next
    · rw [hnew.2.2.1]
      exact hnew

/-! ## Who hears of a call -/

theorem spread_own {links : List (Nat × Nat)} {n : Nat} {groups : List Nat}
    (hlinks : ∀ link ∈ links, own link.1 = own link.2) (hgroups : ∀ g ∈ groups, own g = b) :
    ∀ g ∈ spread links n groups, own g = b := by
  induction n generalizing groups with
  | zero => exact hgroups
  | succ n ih =>
      apply ih
      intro g hg
      rcases List.mem_append.mp hg with hg | hg
      · exact hgroups g hg
      · obtain ⟨link, hlink, rfl⟩ := List.mem_map.mp hg
        obtain ⟨hmem, hgroup⟩ := List.mem_filter.mp hlink
        rw [hlinks link hmem]
        exact hgroups link.2 (by simpa using hgroup)

theorem Apart.reached_own (h : Apart side own s) (hm : m ∈ s.mounts) :
    ∀ g ∈ s.reached m, own g = side m.ns := by
  apply spread_own
  · intro link hlink
    exact (h.links link hlink).2.2.2.symm
  · intro g hg
    exact ((h.mounts m hm).group g (by simpa using hg)).2

theorem Apart.receivers_side (h : Apart side own s) (hm : m ∈ s.mounts) {dir : Dir} {q : Mnt}
    (hq : q ∈ s.receivers m dir) : q ∈ s.mounts ∧ side q.ns = side m.ns := by
  obtain ⟨hmem, hhears⟩ := List.mem_filter.mp hq
  simp only [decide_eq_true_eq, Mnt.hears, Bool.or_eq_true, Option.any_eq_true] at hhears
  refine ⟨hmem, ?_⟩
  obtain ⟨-, hhears, -⟩ := hhears
  rcases hhears with ⟨g, hg, hreached⟩ | ⟨g, hg, hreached⟩
  · rw [← h.reached_own hm g (by simpa using hreached)]
    exact ((h.mounts q hmem).group g hg).2.symm
  · rw [← h.reached_own hm g (by simpa using hreached)]
    exact ((h.mounts q hmem).master g hg).2.symm

end kept

/-! ## Each call -/

section calls
variable {side own : Nat → Bool} {s s' : Space} {b : Bool} {m p : Mnt}

theorem find_mem {ns id : Nat} (h : s.find ns id = some m) : m ∈ s.mounts ∧ m.ns = ns := by
  have hview := List.mem_of_find?_eq_some h
  obtain ⟨hmem, hns⟩ := List.mem_filter.mp hview
  exact ⟨hmem, by simpa using hns⟩

theorem mountPoint_mem {ns : Nat} {at' : Place} (h : s.mountPoint ns at' = some m) :
    m ∈ s.mounts ∧ m.ns = ns ∧ m.id = at'.mnt ∧ at'.dir = m.root := by
  obtain ⟨hfind, hroot⟩ := Option.filter_eq_some_iff.mp h
  obtain ⟨hmem, hns⟩ := find_mem hfind
  exact ⟨hmem, hns, by simpa using List.find?_some hfind, by simpa using hroot⟩

theorem beneath_mem (h : s.beneath m = some p) : p ∈ s.mounts ∧ p.ns = m.ns := by
  obtain ⟨id, -, hfind⟩ := Option.bind_eq_some_iff.mp h
  exact find_mem hfind

/-- A mount of a tree that is laid out: its namespace does not count. -/
structure Fits (own : Nat → Bool) (n : Nat) (b : Bool) (x : Mnt) : Prop where
  id : x.id < n
  above : ∀ i ∈ x.above, i < n
  group : ∀ g, x.group = some g → g < n ∧ own g = b
  master : ∀ g, x.master = some g → g < n ∧ own g = b

theorem Belongs.fits {n : Nat} (h : Belongs side own n b m) : Fits own n b m :=
  ⟨h.id, h.above, h.group, h.master⟩

/-- The layout of a tree in a space. -/
def Space.layout (s : Space) (p : Mnt) (dir : Dir) : Layout where
  groups := s.reached p
  size := s.next
  base := s.next * ((p :: s.receivers p dir).length + 1)

theorem attach_eq (s : Space) (first : Nat) (p : Mnt) (dir : Dir) (tree : List Mnt) :
    s.attach first p dir tree =
      { mounts := s.mounts ++ (p :: s.receivers p dir).zipIdx.flatMap fun target =>
          tree.map ((s.layout p dir).copy target.1 dir (s.next * (target.2 + first)))
        links := s.links ++ tree.flatMap ((s.layout p dir).links s.links)
        next := (s.layout p dir).base + s.next * ((s.layout p dir).groups.length + 1) } := rfl

theorem next_le_base (s : Space) (p : Mnt) (dir : Dir) : s.next ≤ (s.layout p dir).base :=
  Nat.le_mul_of_pos_right _ (Nat.succ_pos _)

theorem base_lt_next {s : Space} {p x : Mnt} {dir : Dir} {tree : List Mnt} {i first : Nat}
    (hi : i ≤ (s.layout p dir).groups.length) (hx : x.id < s.next) :
    (s.layout p dir).base + s.next * i + x.id < (s.attach first p dir tree).next := by
  have hmul : s.next * (i + 1) ≤ s.next * ((s.layout p dir).groups.length + 1) :=
    Nat.mul_le_mul_left _ (Nat.succ_le_succ hi)
  have hsplit : s.next * (i + 1) = s.next * i + s.next := Nat.mul_succ _ _
  rw [attach_eq]
  show _ < (s.layout p dir).base + s.next * ((s.layout p dir).groups.length + 1)
  omega

theorem groupOf_belongs {dir : Dir} {tree : List Mnt} {x : Mnt} {g first : Nat}
    (hx : Fits own s.next b x) :
    (s.layout p dir).groupOf x g < (s.attach first p dir tree).next ∧
      extend s.next own b ((s.layout p dir).groupOf x g) = b := by
  have hbase := next_le_base s p dir
  have hlast : ∀ i, i ≤ (s.layout p dir).groups.length →
      (s.layout p dir).base + s.next * i + x.id < (s.attach first p dir tree).next :=
    fun i hi => base_lt_next hi hx.id
  unfold Layout.groupOf
  split
  · cases hgroup : x.group with
    | none =>
        have := hlast 0 (Nat.zero_le _)
        exact ⟨by simpa using this, extend_new (by simp; omega)⟩
    | some h =>
        obtain ⟨hlt, hown⟩ := hx.group h hgroup
        have := hlast 0 (Nat.zero_le _)
        refine ⟨?_, by simp [extend_old hlt, hown]⟩
        simp only [Option.getD_some]
        omega
  · refine ⟨hlast _ List.idxOf_le_length, extend_new ?_⟩
    omega

theorem Apart.attach (h : Apart side own s) (hp : p ∈ s.mounts) (hside : side p.ns = b)
    {dir : Dir} {tree : List Mnt} {first : Nat} (hfirst : first ≤ 1)
    (htree : ∀ x ∈ tree, Fits own s.next b x) :
    Adds side own b s (s.attach first p dir tree) ∧
      (s.attach first p dir tree).across (extend s.next side b) b = s.across side b := by
  have hbase := next_le_base s p dir
  have hle : s.next ≤ (s.attach first p dir tree).next := by
    rw [attach_eq]
    exact Nat.le_trans hbase (Nat.le_add_right _ _)
  have htarget : ∀ target ∈ (p :: s.receivers p dir).zipIdx,
      target.1 ∈ s.mounts ∧ side target.1.ns = b ∧
        target.2 < (p :: s.receivers p dir).length := by
    intro target htarget
    obtain ⟨q, i⟩ := target
    have hi := List.mem_zipIdx' htarget
    have hq : q ∈ p :: s.receivers p dir := hi.2 ▸ List.getElem_mem hi.1
    rcases List.mem_cons.mp hq with rfl | hq
    · exact ⟨hp, hside, hi.1⟩
    · obtain ⟨hmem, hsame⟩ := h.receivers_side hp hq
      exact ⟨hmem, hsame.trans hside, hi.1⟩
  have hcopy : ∀ target ∈ (p :: s.receivers p dir).zipIdx, ∀ x ∈ tree,
      Belongs (extend s.next side b) (extend s.next own b) (s.attach first p dir tree).next b
        ((s.layout p dir).copy target.1 dir (s.next * (target.2 + first)) x) := by
    intro target ht x hx
    obtain ⟨hmem, hsame, hlt⟩ := htarget target ht
    have hfits := htree x hx
    have hns := (h.mounts _ hmem).ns
    have hshift : ∀ i < s.next,
        s.next * (target.2 + first) + i < (s.attach first p dir tree).next := by
      intro i hi
      have hstep : s.next * (target.2 + first) + s.next ≤ (s.layout p dir).base := by
        rw [← Nat.mul_succ]
        exact Nat.mul_le_mul_left _ (by omega)
      have hend : (s.layout p dir).base ≤ (s.attach first p dir tree).next := by
        rw [attach_eq]
        exact Nat.le_add_right _ _
      omega
    refine ⟨hshift x.id hfits.id, ?_, Nat.lt_of_lt_of_le hns hle, ?_, ?_, ?_⟩
    · intro i hi
      rcases List.mem_append.mp hi with hi | hi
      · exact Nat.lt_of_lt_of_le ((h.mounts _ hmem).way i hi) hle
      · obtain ⟨j, hj, rfl⟩ := List.mem_map.mp hi
        exact hshift j (hfits.above j hj)
    · exact (extend_old hns).trans hsame
    · intro g hg
      simp only [Layout.copy] at hg
      split at hg
      · obtain ⟨hlt, hown⟩ := hfits.group g hg
        exact ⟨Nat.lt_of_lt_of_le hlt hle, (extend_old hlt).trans hown⟩
      · obtain ⟨old, -, rfl⟩ := Option.map_eq_some_iff.mp hg
        exact groupOf_belongs hfits
    · intro g hg
      simp only [Layout.copy] at hg
      split at hg
      · obtain ⟨hlt, hown⟩ := hfits.master g hg
        exact ⟨Nat.lt_of_lt_of_le hlt hle, (extend_old hlt).trans hown⟩
      · obtain ⟨old, -, rfl⟩ := Option.map_eq_some_iff.mp hg
        exact groupOf_belongs hfits
  constructor
  · refine ⟨hle, ?_, ?_⟩
    · intro m hm
      rw [attach_eq] at hm
      rcases List.mem_append.mp hm with hm | hm
      · exact .inl hm
      · obtain ⟨target, ht, hm⟩ := List.mem_flatMap.mp hm
        obtain ⟨x, hx, rfl⟩ := List.mem_map.mp hm
        exact .inr (hcopy target ht x hx)
    · intro link hlink
      rw [attach_eq] at hlink
      rcases List.mem_append.mp hlink with hlink | hlink
      · exact .inl hlink
      · right
        obtain ⟨x, hx, hlink⟩ := List.mem_flatMap.mp hlink
        have hfits := htree x hx
        rcases List.mem_append.mp hlink with hlink | hlink
        · obtain ⟨old, -, rfl⟩ := List.mem_map.mp hlink
          have hgroup := @groupOf_belongs own s b p dir tree x old.1 first hfits
          have hsecond := @groupOf_belongs own s b p dir tree x old.2 first hfits
          exact ⟨hgroup.1, hsecond.1, hgroup.2, hsecond.2⟩
        · split at hlink
          · obtain ⟨old, hold, rfl⟩ := List.mem_map.mp hlink
            obtain ⟨hlt, hown⟩ := hfits.master old (by simpa using hold)
            have hlast := @base_lt_next s p x dir tree 0 first (Nat.zero_le _) hfits.id
            refine ⟨by simpa using hlast, Nat.lt_of_lt_of_le hlt hle, extend_new ?_,
              (extend_old hlt).trans hown⟩
            omega
          · cases hlink
  · rw [attach_eq]
    unfold Space.across
    rw [List.filter_append]
    have hnone : ((p :: s.receivers p dir).zipIdx.flatMap fun target =>
        tree.map ((s.layout p dir).copy target.1 dir (s.next * (target.2 + first)))).filter
          (fun m => extend s.next side b m.ns ≠ b) = [] := by
      apply List.filter_eq_nil_iff.mpr
      intro m hm
      obtain ⟨target, ht, hm⟩ := List.mem_flatMap.mp hm
      obtain ⟨x, hx, rfl⟩ := List.mem_map.mp hm
      simp [(hcopy target ht x hx).side]
    rw [hnone, List.append_nil]
    apply List.filter_congr
    intro m hm
    rw [extend_old (h.mounts m hm).ns]

theorem Apart.clones_fit (h : Apart side own s) (hm : m ∈ s.mounts) (hside : side m.ns = b)
    {dir : Dir} {recursive : Bool} :
    ∀ x ∈ s.clones m dir recursive, Fits own s.next b x := by
  have hone := hside ▸ h.mounts m hm
  intro x hx
  rcases List.mem_cons.mp hx with rfl | hx
  · exact ⟨hone.id, by simp, hone.group, hone.master⟩
  · cases recursive with
    | false => cases hx
    | true =>
        obtain ⟨y, hy, rfl⟩ := List.mem_map.mp hx
        obtain ⟨hview, -⟩ := List.mem_filter.mp hy
        obtain ⟨hmem, hns⟩ := List.mem_filter.mp hview
        have hns : y.ns = m.ns := by simpa using hns
        have hy := h.mounts y hmem
        rw [hns, hside] at hy
        refine ⟨hy.id, ?_, hy.group, hy.master⟩
        intro i hi
        rcases List.mem_cons.mp hi with rfl | hi
        · exact hone.id
        · exact hy.above i (List.mem_of_mem_drop hi)

/-- A change of the mounts of one side, each in its place. -/
theorem across_map {f : Mnt → Mnt} {mounts : List Mnt}
    (hkeep : ∀ x ∈ mounts, side x.ns ≠ b → f x = x)
    (hside : ∀ x ∈ mounts, side x.ns = b → side (f x).ns = b) :
    (mounts.map f).filter (fun m => side m.ns ≠ b) = mounts.filter fun m => side m.ns ≠ b := by
  induction mounts with
  | nil => rfl
  | cons x rest ih =>
      have hrest := ih (fun y hy => hkeep y (List.mem_cons_of_mem _ hy))
        fun y hy => hside y (List.mem_cons_of_mem _ hy)
      by_cases hx : side x.ns = b
      · have hfx := hside x List.mem_cons_self hx
        rw [List.map_cons, List.filter_cons_of_neg (by simpa using hfx),
          List.filter_cons_of_neg (by simpa using hx), hrest]
      · have hfx := hkeep x List.mem_cons_self hx
        rw [List.map_cons, hfx, List.filter_cons_of_pos (by simpa using hx),
          List.filter_cons_of_pos (by simpa using hx), hrest]

/-- New names do not count on the other side. -/
theorem across_extend {n : Nat} {mounts : List Mnt} (hmounts : ∀ m ∈ mounts, m.ns < n) :
    mounts.filter (fun m => extend n side b m.ns ≠ b) =
      mounts.filter fun m => side m.ns ≠ b := by
  apply List.filter_congr
  intro m hm
  rw [extend_old (hmounts m hm)]

theorem Apart.change (h : Apart side own s) (hside : side m.ns = b) {change : Change}
    {recursive : Bool} :
    Adds side own b s (s.change m change recursive) ∧
      (s.change m change recursive).across (extend s.next side b) b = s.across side b := by
  have hns : ∀ x : Mnt, (x.change (s.next + x.id) change).ns = x.ns := by
    intro x
    cases change <;> rfl
  have hcovered : ∀ x ∈ s.mounts, m.covers recursive x = true →
      Belongs side own s.next b x := by
    intro x hx hcovers
    have hsame : x.ns = m.ns := by
      simp only [Mnt.covers, decide_eq_true_eq] at hcovers
      exact hcovers.1
    have hbelongs := h.mounts x hx
    rwa [hsame, hside] at hbelongs
  have hchanged : ∀ x, Belongs side own s.next b x →
      Belongs (extend s.next side b) (extend s.next own b) (s.next + s.next) b
        (x.change (s.next + x.id) change) := by
    intro x hx
    have hold : Belongs (extend s.next side b) (extend s.next own b) (s.next + s.next) b x :=
      hx.extend (Nat.le_add_right _ _)
    have hfresh : s.next + x.id < s.next + s.next ∧ extend s.next own b (s.next + x.id) = b :=
      ⟨Nat.add_lt_add_left hx.id _, extend_new (Nat.le_add_right _ _)⟩
    cases change with
    | makeShared =>
        refine ⟨hold.id, hold.above, hold.ns, hold.side, ?_, hold.master⟩
        intro g hg
        cases hgroup : x.group with
        | none =>
            simp only [Mnt.change, hgroup, Option.getD_none, Option.some.injEq] at hg
            exact hg ▸ hfresh
        | some old =>
            simp only [Mnt.change, hgroup, Option.getD_some, Option.some.injEq] at hg
            exact hg ▸ hold.group old hgroup
    | makeSlave =>
        refine ⟨hold.id, hold.above, hold.ns, hold.side, (fun g hg => by cases hg), ?_⟩
        intro g hg
        cases hgroup : x.group with
        | none =>
            simp only [Mnt.change, hgroup] at hg
            exact hold.master g hg
        | some old =>
            simp only [Mnt.change, hgroup] at hg
            exact Option.some.inj hg ▸ hold.group old hgroup
    | makePrivate =>
        refine ⟨hold.id, hold.above, hold.ns, hold.side, ?_, ?_⟩ <;> (intro g hg; cases hg)
    | makeUnbindable =>
        refine ⟨hold.id, hold.above, hold.ns, hold.side, ?_, ?_⟩ <;> (intro g hg; cases hg)
  constructor
  · refine ⟨Nat.le_add_right _ _, ?_, ?_⟩
    · intro y hy
      obtain ⟨x, hx, rfl⟩ := List.mem_map.mp hy
      by_cases hcovers : m.covers recursive x = true
      · rw [if_pos hcovers]
        exact .inr (hchanged x (hcovered x hx hcovers))
      · rw [if_neg hcovers]
        exact .inl hx
    · intro link hlink
      rcases List.mem_append.mp hlink with hlink | hlink
      · exact .inl hlink
      · right
        obtain ⟨x, hx, hlink⟩ := List.mem_flatMap.mp hlink
        obtain ⟨hmem, hcovers⟩ := List.mem_filter.mp hx
        have hbelongs := hcovered x hmem hcovers
        cases change with
        | makeShared =>
            simp only [Mnt.links] at hlink
            split at hlink
            · obtain ⟨old, hold, rfl⟩ := List.mem_map.mp hlink
              obtain ⟨hlt, hown⟩ := hbelongs.master old (by simpa using hold)
              exact ⟨Nat.add_lt_add_left hbelongs.id _, Nat.lt_of_lt_of_le hlt (Nat.le_add_right _ _),
                extend_new (Nat.le_add_right _ _), (extend_old hlt).trans hown⟩
            · cases hlink
        | _ => cases hlink
  · have hlt : ∀ y ∈ (s.change m change recursive).mounts, y.ns < s.next := by
      intro y hy
      obtain ⟨x, hx, rfl⟩ := List.mem_map.mp hy
      have hx := (h.mounts x hx).ns
      split
      · rwa [hns]
      · exact hx
    unfold Space.across
    rw [across_extend hlt]
    apply across_map
    · intro x hx hother
      refine if_neg fun hcovers => hother ?_
      exact (hcovered x hx hcovers).side
    · intro x hx hsame
      split
      · rwa [hns]
      · exact hsame

/-- What is moved stays on its side, as does where it comes to lie. -/
theorem Apart.move (h : Apart side own s) {n : Mnt} (hn : n ∈ s.mounts) (hns : m.ns = n.ns)
    (hout : ¬ m.way <+: n.way) (hside : side n.ns = b) {dir : Dir} :
    Adds side own b s (s.move m n dir) ∧
      (s.move m n dir).across (extend s.next side b) b = s.across side b := by
  let rest : Space := { s with mounts := s.mounts.filter fun x => !m.covers true x }
  have hcovered : ∀ x, m.covers true x = true → side x.ns = b := by
    intro x hcovers
    simp only [Mnt.covers, decide_eq_true_eq] at hcovers
    rw [hcovers.1, hns, hside]
  have hrest : Apart side own rest :=
    ⟨fun x hx => h.mounts x (List.mem_filter.mp hx).1, h.links⟩
  have hstays : n ∈ rest.mounts := by
    refine List.mem_filter.mpr ⟨hn, ?_⟩
    simp [Mnt.covers, hout]
  have htree : ∀ x ∈ ((s.view m.ns).filter (m.covers true)).map fun x =>
      { x with above := x.above.drop m.above.length }, Fits own rest.next b x := by
    intro y hy
    obtain ⟨x, hx, rfl⟩ := List.mem_map.mp hy
    obtain ⟨hview, hcovers⟩ := List.mem_filter.mp hx
    have hold := h.mounts x (List.mem_filter.mp hview).1
    rw [hcovered x hcovers] at hold
    exact ⟨hold.id, fun i hi => hold.above i (List.mem_of_mem_drop hi), hold.group, hold.master⟩
  obtain ⟨hadds, hacross⟩ := hrest.attach hstays hside (Nat.zero_le 1) htree
  constructor
  · refine ⟨hadds.next, fun x hx => ?_, hadds.links⟩
    exact (hadds.mounts x hx).imp_left fun hold => (List.mem_filter.mp hold).1
  · refine hacross.trans ?_
    unfold Space.across
    rw [List.filter_filter]
    apply List.filter_congr
    intro x _
    by_cases hx : side x.ns = b
    · simp [hx]
    · have hkept : m.covers true x = false :=
        Bool.eq_false_iff.mpr fun hcovers => hx (hcovered x hcovers)
      simp [hx, hkept]

/-- Who hears of an unmount is on the side where it happens. -/
theorem Apart.heard_side (h : Apart side own s) (hm : side m.ns = b) {ns : Nat}
    (hheard : s.heard m ns = true) : side ns = b := by
  simp only [Space.heard, List.any_eq_true, Option.any_eq_true, decide_eq_true_eq] at hheard
  obtain ⟨x, hx, p, hp, q, hq, rfl⟩ := hheard
  obtain ⟨-, hcovers⟩ := List.mem_filter.mp hx
  simp only [Mnt.covers, decide_eq_true_eq] at hcovers
  obtain ⟨hmem, hns⟩ := beneath_mem hp
  rw [(h.receivers_side hmem hq).2, hns, hcovers.1, hm]

theorem Apart.goes_side (h : Apart side own s) (hm : side m.ns = b) {lost : List Nat} {x : Mnt}
    (hgoes : s.goes m lost x = true) : side x.ns = b := by
  simp only [Space.goes, Bool.or_eq_true, decide_eq_true_eq] at hgoes
  rcases hgoes with hcovers | ⟨-, -, hheard⟩
  · simp only [Mnt.covers, decide_eq_true_eq] at hcovers
    rw [hcovers.1, hm]
  · exact h.heard_side hm hheard

theorem rehang_nil (s : Space) (x : Mnt) : s.rehang [] x = x := by
  have hnone : x.above.reverse.takeWhile (fun _ => false) = [] := by
    cases x.above.reverse <;> rfl
  simp [Space.rehang, hnone]

theorem Apart.detach (h : Apart side own s) (hm : side m.ns = b) {lost : List Nat} :
    Adds side own b s (s.detach m lost) ∧
      (s.detach m lost).across (extend s.next side b) b = s.across side b := by
  have hother : ∀ x, side x.ns ≠ b → s.rehang (s.gone m lost x.ns) x = x := by
    intro x hx
    have hnone : s.gone m lost x.ns = [] := by
      refine List.map_eq_nil_iff.mpr (List.filter_eq_nil_iff.mpr fun y hy hgoes => hx ?_)
      obtain ⟨-, hns⟩ := List.mem_filter.mp hy
      rw [← of_decide_eq_true hns]
      exact h.goes_side hm hgoes
    rw [hnone, rehang_nil]
  constructor
  · refine ⟨Nat.le_refl _, ?_, fun link hlink => .inl hlink⟩
    intro y hy
    obtain ⟨x, hx, rfl⟩ := List.mem_map.mp hy
    have hx := (List.mem_filter.mp hx).1
    by_cases hsame : side x.ns = b
    · have hold : Belongs (extend s.next side b) (extend s.next own b) s.next b x :=
        (hsame ▸ h.mounts x hx).extend (Nat.le_refl _)
      exact .inr ⟨hold.id, fun i hi => hold.above i (List.mem_filter.mp hi).1, hold.ns, hold.side,
        hold.group, hold.master⟩
    · rw [hother x hsame]
      exact .inl hx
  · have hlt : ∀ y ∈ (s.detach m lost).mounts, y.ns < s.next := by
      intro y hy
      obtain ⟨x, hx, rfl⟩ := List.mem_map.mp hy
      exact (h.mounts x (List.mem_filter.mp hx).1).ns
    unfold Space.across
    rw [across_extend hlt]
    unfold Space.detach
    rw [across_map (fun x _ hx => hother x hx) (fun x _ hx => hx), List.filter_filter]
    apply List.filter_congr
    intro x _
    by_cases hx : side x.ns = b
    · simp [hx]
    · have hgoes : s.goes m lost x = false :=
        Bool.eq_false_iff.mpr fun hgoes => hx (h.goes_side hm hgoes)
      simp [hx, hgoes]

theorem Apart.turn (h : Apart side own s) {r n : Mnt} (hn : n ∈ s.mounts)
    (hside : side n.ns = b) :
    Adds side own b s (s.turn r n) ∧
      (s.turn r n).across (extend s.next side b) b = s.across side b := by
  have hmoved : ∀ x ∈ s.mounts, x.ns = n.ns → ∀ above point, (∀ i ∈ above, i < s.next) →
      Belongs (extend s.next side b) (extend s.next own b) s.next b
        { x with above := above, point := point } := by
    intro x hx hns above point habove
    have hold := h.mounts x hx
    rw [hns, hside] at hold
    have hold : Belongs (extend s.next side b) (extend s.next own b) s.next b x :=
      hold.extend (Nat.le_refl _)
    exact ⟨hold.id, habove, hold.ns, hold.side, hold.group, hold.master⟩
  constructor
  · refine ⟨Nat.le_refl _, ?_, fun link hlink => .inl hlink⟩
    intro y hy
    rcases List.mem_append.mp hy with hy | hy
    · obtain ⟨x, hx, rfl⟩ := List.mem_map.mp hy
      obtain ⟨hmem, -⟩ := List.mem_filter.mp hx
      split
      next hns =>
        refine .inr (hmoved x hmem hns _ x.point fun i hi => ?_)
        exact (h.mounts x hmem).above i (List.mem_of_mem_drop hi)
      next => exact .inl hmem
    · obtain ⟨x, hx, rfl⟩ := List.mem_map.mp hy
      obtain ⟨hmem, hns⟩ := List.mem_filter.mp (List.mem_filter.mp hx).1
      refine .inr (hmoved x hmem (by simpa using hns) _ _ fun i hi => ?_)
      rcases List.mem_cons.mp hi with rfl | hi
      · exact (h.mounts n hn).id
      · exact (h.mounts x hmem).above i hi
  · have hlt : ∀ y ∈ (s.turn r n).mounts, y.ns < s.next := by
      intro y hy
      rcases List.mem_append.mp hy with hy | hy
      · obtain ⟨x, hx, rfl⟩ := List.mem_map.mp hy
        have hx := (h.mounts x (List.mem_filter.mp hx).1).ns
        split <;> exact hx
      · obtain ⟨x, hx, rfl⟩ := List.mem_map.mp hy
        exact (h.mounts x (List.mem_filter.mp (List.mem_filter.mp hx).1).1).ns
    unfold Space.across
    rw [across_extend hlt]
    unfold Space.turn
    rw [List.filter_append]
    have hnone : (((s.view n.ns).filter fun x => ¬ n.way <+: x.way).map fun x =>
        { x with
          above := n.id :: x.above
          point := if x.id = r.id then n.root else x.point }).filter
            (fun m => side m.ns ≠ b) = [] := by
      apply List.filter_eq_nil_iff.mpr
      intro y hy
      obtain ⟨x, hx, rfl⟩ := List.mem_map.mp hy
      have hns : x.ns = n.ns := by
        simpa using (List.mem_filter.mp (List.mem_filter.mp hx).1).2
      simp [hns, hside]
    rw [hnone, List.append_nil]
    have hfirst := @across_map side b
      (fun x => if x.ns = n.ns then { x with above := x.above.drop n.above.length } else x)
      (s.mounts.filter fun x => !(x.ns = n.ns ∧ ¬ n.way <+: x.way))
      (fun x _ hother => if_neg fun hns => hother (by rw [hns, hside]))
      (fun x _ hsame => by
        show side (if x.ns = n.ns then _ else x).ns = b
        split <;> exact hsame)
    rw [hfirst, List.filter_filter]
    apply List.filter_congr
    intro x hx
    by_cases hother : side x.ns = b
    · simp [hother]
    · have hns : x.ns ≠ n.ns := fun hns => hother (by rw [hns, hside])
      simp [hns]

theorem Apart.fork (h : Apart side own s) {ns : Nat} (hside : side ns = b) {otherOwner : Bool} :
    Adds side own b s (s.fork ns otherOwner) ∧
      (s.fork ns otherOwner).across (extend s.next side b) b = s.across side b := by
  have hcopy : ∀ x ∈ s.view ns, Belongs (extend s.next side b) (extend s.next own b)
      (s.next + s.next + 1) b
      { x with
        id := s.next + x.id
        ns := s.next
        above := x.above.map (s.next + ·)
        group := if otherOwner then none else x.group
        master := if otherOwner then x.group <|> x.master else x.master } := by
    intro x hx
    obtain ⟨hmem, hns⟩ := List.mem_filter.mp hx
    have hns : x.ns = ns := by simpa using hns
    have hold := h.mounts x hmem
    rw [hns, hside] at hold
    have hnew : Belongs (extend s.next side b) (extend s.next own b) (s.next + s.next + 1) b x :=
      hold.extend (by omega)
    refine ⟨?_, ?_, ?_, extend_new (Nat.le_refl _), ?_, ?_⟩
    · have := hold.id
      show s.next + x.id < _
      omega
    · intro i hi
      obtain ⟨j, hj, rfl⟩ := List.mem_map.mp hi
      have := hold.above j hj
      omega
    · show s.next < _
      omega
    · intro g hg
      cases otherOwner with
      | true => cases hg
      | false => exact hnew.group g hg
    · intro g hg
      cases otherOwner with
      | false => exact hnew.master g hg
      | true =>
          cases hgroup : x.group with
          | none =>
              simp only [hgroup] at hg
              exact hnew.master g hg
          | some old =>
              simp only [hgroup] at hg
              exact Option.some.inj hg ▸ hnew.group old hgroup
  constructor
  · refine ⟨?_, ?_, fun link hlink => .inl hlink⟩
    · show s.next ≤ s.next + s.next + 1
      omega
    · intro y hy
      rcases List.mem_append.mp hy with hy | hy
      · exact .inl hy
      · obtain ⟨x, hx, rfl⟩ := List.mem_map.mp hy
        exact .inr (hcopy x hx)
  · unfold Space.across Space.fork
    rw [List.filter_append, across_extend fun x hx => (h.mounts x hx).ns]
    have hnone : ∀ f : Mnt → Mnt, (∀ x ∈ s.view ns, extend s.next side b (f x).ns = b) →
        ((s.view ns).map f).filter (fun m => extend s.next side b m.ns ≠ b) = [] := by
      intro f hf
      apply List.filter_eq_nil_iff.mpr
      intro y hy
      obtain ⟨x, hx, rfl⟩ := List.mem_map.mp hy
      simp [hf x hx]
    rw [hnone _ fun x hx => (hcopy x hx).side, List.append_nil]

/-! ## Any call -/

/-- A call adds on the caller's side only, and changes nothing across. -/
theorem Apart.call (h : Apart side own s) {ns : Nat} {op : Op} (hs : s.apply ns op = some s') :
    Adds side own (side ns) s s' ∧
      s'.across (extend s.next side (side ns)) (side ns) = s.across side (side ns) := by
  cases op with
  | create target root =>
      obtain ⟨p, hp, rfl⟩ := create_eq_some.mp hs
      obtain ⟨hmem, hns⟩ := find_mem hp
      refine h.attach hmem (by rw [hns]) (Nat.le_refl 1) ?_
      intro x hx
      obtain rfl := List.mem_singleton.mp hx
      exact ⟨Nat.lt_of_le_of_lt (Nat.zero_le _) (h.mounts p hmem).id, by simp [fresh],
        by simp [fresh], by simp [fresh]⟩
  | bind source target recursive =>
      obtain ⟨m, hm, p, hp, -, rfl⟩ := bind_eq_some.mp hs
      obtain ⟨hsource, hsourceNs⟩ := find_mem hm
      obtain ⟨hmem, hns⟩ := find_mem hp
      exact h.attach hmem (by rw [hns]) (Nat.le_refl 1) (h.clones_fit hsource (by rw [hsourceNs]))
  | change target change recursive =>
      obtain ⟨m, hm, rfl⟩ := change_eq_some.mp hs
      obtain ⟨-, hns, -⟩ := mountPoint_mem hm
      exact h.change (by rw [hns])
  | move source target =>
      obtain ⟨m, hm, p, -, n, hn, ⟨-, hout, -⟩, rfl⟩ := move_eq_some.mp hs
      obtain ⟨-, hns, -⟩ := mountPoint_mem hm
      obtain ⟨hmem, htarget⟩ := find_mem hn
      exact h.move hmem (hns.trans htarget.symm) hout (by rw [htarget])
  | umount target lost =>
      obtain ⟨m, hm, -, rfl⟩ := umount_eq_some.mp hs
      obtain ⟨-, hns, -⟩ := mountPoint_mem hm
      exact h.detach (by rw [hns])
  | pivot root new =>
      obtain ⟨r, -, n, hn, p, -, -, rfl⟩ := pivot_eq_some.mp hs
      obtain ⟨hmem, hns, -⟩ := mountPoint_mem hn
      exact h.turn hmem (by rw [hns])
  | unshare otherOwner =>
      obtain rfl := unshare_eq_some.mp hs
      exact h.fork rfl

theorem Apart.apply (h : Apart side own s) {ns : Nat} {op : Op} (hs : s.apply ns op = some s') :
    Apart (extend s.next side (side ns)) (extend s.next own (side ns)) s' :=
  h.adds (h.call hs).1

/-- Nobody on the other side sees the call. -/
theorem Apart.view (h : Apart side own s) {caller ns : Nat} {op : Op}
    (hs : s.apply caller op = some s')
    (hother : extend s.next side (side caller) ns ≠ side caller) : s'.view ns = s.view ns := by
  have hold : ns < s.next := by
    by_contra hge
    exact hother (extend_new (Nat.le_of_not_lt hge))
  have hview : ∀ (s : Space) (side : Nat → Bool) (b : Bool), side ns ≠ b →
      s.view ns = (s.across side b).filter fun m => m.ns = ns := by
    intro s side b hne
    rw [Space.view, Space.across, List.filter_filter]
    apply List.filter_congr
    intro m _
    by_cases hns : m.ns = ns
    · simp [hns, hne]
    · simp [hns]
  rw [hview s' _ _ hother, (h.call hs).2, ← hview s side _ (by rwa [extend_old hold] at hother)]

/-! ## Names -/

/-- Every name is below where the unused ones begin. -/
def Space.Named (s : Space) : Prop := Apart (fun _ => false) (fun _ => false) s

theorem extend_const (n : Nat) (b : Bool) : extend n (fun _ => b) b = fun _ => b := by
  funext i
  unfold extend
  split <;> rfl

theorem Space.Named.next_le (h : s.Named) {ns : Nat} {op : Op} (hs : s.apply ns op = some s') :
    s.next ≤ s'.next := (Apart.call h hs).1.next

theorem Space.Named.apply (h : s.Named) {ns : Nat} {op : Op} (hs : s.apply ns op = some s') :
    s'.Named := by
  have hapart := Apart.apply h hs
  rwa [extend_const] at hapart

theorem Apart.named (h : Apart side own s) : s.Named where
  mounts := by
    intro m hm
    obtain ⟨hid, habove, hns, -, hgroup, hmaster⟩ := h.mounts m hm
    exact ⟨hid, habove, hns, rfl, fun g hg => ⟨(hgroup g hg).1, rfl⟩,
      fun g hg => ⟨(hmaster g hg).1, rfl⟩⟩
  links := by
    intro link hlink
    obtain ⟨hfirst, hsecond, -⟩ := h.links link hlink
    exact ⟨hfirst, hsecond, rfl, rfl⟩

end calls

end MountSpace
