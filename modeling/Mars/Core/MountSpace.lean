import Mathlib.Data.List.Infix
import Mars.Core.MountTable

/-! # Mount namespaces

The mounts of all namespaces together. A mount lies on a directory of another one,
and shows a directory of some file system. The mounts of one peer group, and those
that are slaves of it, get what is mounted on any member and lose what is unmounted
there; nothing else connects two namespaces. The mount that every namespace has
beneath its root, and that nobody sees, is left out.
-/

namespace MountSpace
open UnixPath

/-- A directory of a file system, by the names on the way from its top. -/
structure Dir where
  fs : Nat
  path : List Name
  deriving DecidableEq

/-- A directory as it is seen on a mount. -/
structure Place where
  mnt : Nat
  dir : Dir
  deriving DecidableEq

structure Mnt where
  id : Nat
  ns : Nat
  /-- The mounts beneath it, from the root of the namespace on. -/
  above : List Nat
  point : Dir
  root : Dir
  group : Option Nat
  master : Option Nat
  unbindable : Bool
  deriving DecidableEq

def Mnt.way (m : Mnt) : List Nat := m.above ++ [m.id]

/-- The mounts, oldest first. A link `(g, h)` says that group `g` is a slave of group `h`. -/
structure Space where
  mounts : List Mnt
  links : List (Nat × Nat)
  next : Nat
  deriving DecidableEq

def Space.view (s : Space) (ns : Nat) : List Mnt := s.mounts.filter fun m => m.ns = ns

def Space.find (s : Space) (ns id : Nat) : Option Mnt := (s.view ns).find? fun m => m.id = id

/-! ## Finding a place -/

def Mnt.sitsOn (m : Mnt) (p : Place) : Bool := m.above.getLast? = some p.mnt ∧ m.point = p.dir

def Mnt.top (m : Mnt) : Place := ⟨m.id, m.root⟩

/-- The place that is seen where mounts are stacked on a place. -/
def climb (view : List Mnt) (p : Place) : Place :=
  view.foldl (fun p m => if m.sitsOn p then m.top else p) p

def enter (view : List Mnt) (p : Place) (name : Name) : Place :=
  climb view { p with dir := { p.dir with path := p.dir.path ++ [name] } }

def locate (view : List Mnt) (start : Place) (names : List Name) : Place :=
  names.foldl (enter view) start

/-! ## Propagation -/

def spread (links : List (Nat × Nat)) : Nat → List Nat → List Nat
  | 0, groups => groups
  | n + 1, groups =>
      spread links n (groups ++ (links.filter fun l => l.2 ∈ groups).map Prod.fst)

/-- The groups that learn what happens on a mount, its own first. -/
def Space.reached (s : Space) (p : Mnt) : List Nat :=
  spread s.links s.links.length p.group.toList

def Mnt.hears (q : Mnt) (groups : List Nat) : Bool :=
  q.group.any (· ∈ groups) || q.master.any (· ∈ groups)

/-- The mounts, other than `p`, on which the same happens at `dir`. -/
def Space.receivers (s : Space) (p : Mnt) (dir : Dir) : List Mnt :=
  s.mounts.filter fun q =>
    q.id ≠ p.id ∧ q.hears (s.reached p) ∧ q.root.fs = dir.fs ∧ q.root.path <+: dir.path

/-! ## Mounting -/

/-- The groups that are reached when a tree is mounted, and where unused names begin. -/
structure Layout where
  groups : List Nat
  size : Nat
  base : Nat

/-- The group of a copy of `x` on a mount of group `g`. -/
def Layout.groupOf (l : Layout) (x : Mnt) (g : Nat) : Nat :=
  if l.groups.head? = some g then x.group.getD (l.base + x.id)
  else l.base + l.size * l.groups.idxOf g + x.id

/-- A copy becomes a peer on a peer, and a slave on a slave. -/
def Layout.copy (l : Layout) (q : Mnt) (dir : Dir) (shift : Nat) (x : Mnt) : Mnt where
  id := shift + x.id
  ns := q.ns
  above := q.way ++ x.above.map (shift + ·)
  point := if x.above = [] then dir else x.point
  root := x.root
  group :=
    if l.groups = [] then x.group else (q.group.filter (· ∈ l.groups)).map (l.groupOf x)
  master :=
    if q.group = l.groups.head? then x.master
    else (q.master.filter (· ∈ l.groups)).map (l.groupOf x)
  unbindable := x.unbindable

def Layout.links (l : Layout) (old : List (Nat × Nat)) (x : Mnt) : List (Nat × Nat) :=
  (old.filter fun link => link.1 ∈ l.groups ∧ link.2 ∈ l.groups).map
      (fun link => (l.groupOf x link.1, l.groupOf x link.2)) ++
    if l.groups ≠ [] ∧ x.group = none then x.master.toList.map (l.base + x.id, ·) else []

/-- A tree comes to lie on `p`, under its own names if `first` is 0, and copies of it on
whatever hears of that. -/
def Space.attach (s : Space) (first : Nat) (p : Mnt) (dir : Dir) (tree : List Mnt) : Space :=
  let targets := p :: s.receivers p dir
  let l : Layout :=
    { groups := s.reached p, size := s.next, base := s.next * (targets.length + 1) }
  { mounts := s.mounts ++ targets.zipIdx.flatMap fun target =>
      tree.map (l.copy target.1 dir (s.next * (target.2 + first)))
    links := s.links ++ tree.flatMap (l.links s.links)
    next := l.base + s.next * (l.groups.length + 1) }

/-- The mounts strictly above `m` of which the first lies below `dir`, up to unbindable ones. -/
def Space.submounts (s : Space) (m : Mnt) (dir : Dir) : List Mnt :=
  (s.view m.ns).filter fun x =>
    (s.view m.ns).any (fun y => y.above = m.way ∧ y.way <+: x.way ∧ dir.path <+: y.point.path) &&
      !(s.view m.ns).any fun y => m.way <+: y.above ∧ y.way <+: x.way ∧ y.unbindable

/-- What a bind of a directory of `m` lays out. -/
def Space.clones (s : Space) (m : Mnt) (dir : Dir) (recursive : Bool) : List Mnt :=
  { m with above := [], root := dir } ::
    if recursive then (s.submounts m dir).map fun x =>
      { x with above := m.id :: x.above.drop m.way.length }
    else []

/-! ## Changing the type -/

inductive Change where
  | makeShared
  | makeSlave
  | makePrivate
  | makeUnbindable
  deriving DecidableEq

def Mnt.change (m : Mnt) (fresh : Nat) : Change → Mnt
  | .makeShared => { m with group := some (m.group.getD fresh), unbindable := false }
  | .makeSlave => { m with group := none, master := m.group <|> m.master }
  | .makePrivate => { m with group := none, master := none, unbindable := false }
  | .makeUnbindable => { m with group := none, master := none, unbindable := true }

/-- A slave that becomes shared makes a group of slaves. -/
def Mnt.links (m : Mnt) (fresh : Nat) : Change → List (Nat × Nat)
  | .makeShared => if m.group = none then m.master.toList.map (fresh, ·) else []
  | _ => []

/-- `m` alone, or all that lies on it. -/
def Mnt.covers (m : Mnt) (recursive : Bool) (x : Mnt) : Bool :=
  x.ns = m.ns ∧ if recursive then m.way <+: x.way else x.id = m.id

def Space.change (s : Space) (m : Mnt) (change : Change) (recursive : Bool) : Space where
  mounts := s.mounts.map fun x =>
    if m.covers recursive x then x.change (s.next + x.id) change else x
  links := s.links ++ (s.mounts.filter (m.covers recursive)).flatMap fun x =>
    x.links (s.next + x.id) change
  next := s.next + s.next

/-! ## Moving -/

/-- `m` with all that lies on it comes to lie on `n`. -/
def Space.move (s : Space) (m n : Mnt) (dir : Dir) : Space :=
  let tree := ((s.view m.ns).filter (m.covers true)).map fun x =>
    { x with above := x.above.drop m.above.length }
  { s with mounts := s.mounts.filter fun x => !m.covers true x }.attach 0 n dir tree

/-! ## Unmounting -/

def Space.beneath (s : Space) (m : Mnt) : Option Mnt :=
  m.above.getLast?.bind (s.find m.ns)

/-- Something in the namespace hears of `m`, or of what lies on it, being unmounted. -/
def Space.heard (s : Space) (m : Mnt) (ns : Nat) : Bool :=
  (s.mounts.filter (m.covers true)).any fun x =>
    (s.beneath x).any fun p => (s.receivers p x.point).any fun q => q.ns = ns

/-- `m` goes with all that lies on it, and where that is heard of others may be lost. -/
def Space.goes (s : Space) (m : Mnt) (lost : List Nat) (x : Mnt) : Bool :=
  m.covers true x || (x.id ∈ lost ∧ x.above ≠ [] ∧ s.heard m x.ns = true)

def Space.gone (s : Space) (m : Mnt) (lost : List Nat) (ns : Nat) : List Nat :=
  ((s.view ns).filter (s.goes m lost)).map Mnt.id

/-- What lay on mounts that are gone comes to lie where they did. -/
def Space.rehang (s : Space) (gone : List Nat) (x : Mnt) : Mnt :=
  let lowest := (x.above.reverse.takeWhile (· ∈ gone)).getLast?
  { x with
    above := x.above.filter (· ∉ gone)
    point := ((lowest.bind (s.find x.ns)).map Mnt.point).getD x.point }

/-- Which of the mounts that hear of it carry nothing else, and are lost, is for the kernel
to say. -/
def Space.detach (s : Space) (m : Mnt) (lost : List Nat) : Space :=
  { s with
    mounts := (s.mounts.filter fun x => !s.goes m lost x).map fun x =>
      s.rehang (s.gone m lost x.ns) x }

/-! ## The calls -/

/-- The mount a place is the root of. -/
def Space.mountPoint (s : Space) (ns : Nat) (p : Place) : Option Mnt :=
  (s.find ns p.mnt).filter fun m => p.dir = m.root

/-- The old root comes to lie on the new one, which nothing may have learned of. -/
def Space.turn (s : Space) (r n : Mnt) : Space :=
  { s with
    mounts :=
      (s.mounts.filter fun x => !(x.ns = n.ns ∧ ¬ n.way <+: x.way)).map (fun x =>
        if x.ns = n.ns then { x with above := x.above.drop n.above.length } else x) ++
      (s.view n.ns |>.filter fun x => ¬ n.way <+: x.way).map fun x =>
        { x with
          above := n.id :: x.above
          point := if x.id = r.id then n.root else x.point } }

/-- The mounts of a new namespace. Another owner's copies only hear of the old ones. -/
def Space.fork (s : Space) (ns : Nat) (otherOwner : Bool) : Space :=
  { s with
    mounts := s.mounts ++ (s.view ns).map fun x =>
      { x with
        id := s.next + x.id
        ns := s.next
        above := x.above.map (s.next + ·)
        group := if otherOwner then none else x.group
        master := if otherOwner then x.group <|> x.master else x.master }
    next := s.next + s.next + 1 }

inductive Op where
  | create (target : Place) (root : Dir)
  | bind (source target : Place) (recursive : Bool)
  | change (target : Place) (change : Change) (recursive : Bool)
  | move (source target : Place)
  | umount (target : Place) (lost : List Nat)
  | pivot (root new : Place)
  | unshare (otherOwner : Bool)
  deriving DecidableEq

def fresh (root : Dir) : Mnt where
  id := 0
  ns := 0
  above := []
  point := root
  root := root
  group := none
  master := none
  unbindable := false

/-- The call of a process in a namespace. -/
def Space.apply (s : Space) (ns : Nat) : Op → Option Space
  | .create target root => do
      let p ← s.find ns target.mnt
      some (s.attach 1 p target.dir [fresh root])
  | .bind source target recursive => do
      let m ← s.find ns source.mnt
      let p ← s.find ns target.mnt
      if m.unbindable then none
      else some (s.attach 1 p target.dir (s.clones m source.dir recursive))
  | .change target change recursive => do
      let m ← s.mountPoint ns target
      some (s.change m change recursive)
  | .move source target => do
      let m ← s.mountPoint ns source
      let p ← s.beneath m
      let n ← s.find ns target.mnt
      if p.group = none ∧ ¬ m.way <+: n.way ∧
          (n.group = none ∨ (s.view ns).all fun x => !(m.covers true x && x.unbindable)) then
        some (s.move m n target.dir)
      else none
  | .umount target lost => do
      let m ← s.mountPoint ns target
      let _ ← s.beneath m
      some (s.detach m lost)
  | .pivot root new => do
      let r ← s.mountPoint ns root
      let n ← s.mountPoint ns new
      let p ← s.beneath n
      if r.above = [] ∧ n.group = none ∧ p.group = none then some (s.turn r n) else none
  | .unshare otherOwner => some (s.fork ns otherOwner)

/-! ## What a call does -/

section calls
variable {s s' : Space} {ns : Nat}

theorem create_eq_some {target : Place} {root : Dir} :
    s.apply ns (.create target root) = some s' ↔
      ∃ p, s.find ns target.mnt = some p ∧ s.attach 1 p target.dir [fresh root] = s' := by
  simp only [Space.apply, Option.bind_eq_bind, Option.bind_eq_some_iff, Option.some.injEq]

theorem bind_eq_some {source target : Place} {recursive : Bool} :
    s.apply ns (.bind source target recursive) = some s' ↔
      ∃ m, s.find ns source.mnt = some m ∧ ∃ p, s.find ns target.mnt = some p ∧
        ¬ m.unbindable ∧ s.attach 1 p target.dir (s.clones m source.dir recursive) = s' := by
  simp only [Space.apply, Option.bind_eq_bind, Option.bind_eq_some_iff,
    Option.ite_none_left_eq_some, Option.some.injEq]

theorem change_eq_some {target : Place} {change : Change} {recursive : Bool} :
    s.apply ns (.change target change recursive) = some s' ↔
      ∃ m, s.mountPoint ns target = some m ∧ s.change m change recursive = s' := by
  simp only [Space.apply, Option.bind_eq_bind, Option.bind_eq_some_iff, Option.some.injEq]

theorem move_eq_some {source target : Place} :
    s.apply ns (.move source target) = some s' ↔
      ∃ m, s.mountPoint ns source = some m ∧ ∃ p, s.beneath m = some p ∧
        ∃ n, s.find ns target.mnt = some n ∧
          (p.group = none ∧ ¬ m.way <+: n.way ∧
            (n.group = none ∨ (s.view ns).all fun x => !(m.covers true x && x.unbindable))) ∧
          s.move m n target.dir = s' := by
  simp only [Space.apply, Option.bind_eq_bind, Option.bind_eq_some_iff,
    Option.ite_none_right_eq_some, Option.some.injEq]

/-- What is unmounted lies on another mount. -/
theorem umount_eq_some {target : Place} {lost : List Nat} :
    s.apply ns (.umount target lost) = some s' ↔
      ∃ m, s.mountPoint ns target = some m ∧ (∃ p, s.beneath m = some p) ∧
        s.detach m lost = s' := by
  simp only [Space.apply, Option.bind_eq_bind, Option.bind_eq_some_iff, Option.some.injEq,
    exists_and_right]

theorem pivot_eq_some {root new : Place} :
    s.apply ns (.pivot root new) = some s' ↔
      ∃ r, s.mountPoint ns root = some r ∧ ∃ n, s.mountPoint ns new = some n ∧
        ∃ p, s.beneath n = some p ∧ (r.above = [] ∧ n.group = none ∧ p.group = none) ∧
          s.turn r n = s' := by
  simp only [Space.apply, Option.bind_eq_bind, Option.bind_eq_some_iff,
    Option.ite_none_right_eq_some, Option.some.injEq]

theorem unshare_eq_some {otherOwner : Bool} :
    s.apply ns (.unshare otherOwner) = some s' ↔ s.fork ns otherOwner = s' := by
  simp only [Space.apply, Option.some.injEq]

end calls

end MountSpace
