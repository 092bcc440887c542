import Mars.Core.IdMap

/-! # User namespaces

The id maps of a user namespace, as its files take them: each map once, from a
writer that may do so, and with the ids below found in the maps of the parent.
-/

namespace IdMap

/-- Where a range starts below, if one extent holds all of it. -/
def downRange (map : List Extent) (first count : Nat) : Option Nat :=
  map.findSome? fun e =>
    if e.first ≤ first ∧ first + count ≤ e.first + e.count then
      some (e.lowerFirst + (first - e.first))
    else none

def Extent.through (parent : List Extent) (e : Extent) : Option Extent :=
  (downRange parent e.lowerFirst e.count).map fun lower => { e with lowerFirst := lower }

/-- A map whose ids below are those of the parent, with the parent's own taken for them. -/
def through (parent map : List Extent) : Option (List Extent) := map.mapM (Extent.through parent)

theorem Extent.down_through {parent : List Extent} (hparent : IdMap.Sound parent) {e own : Extent}
    (h : e.through parent = some own) (id : Nat) :
    own.down id = (e.down id).bind (IdMap.down parent) := by
  obtain ⟨lower, hlower, rfl⟩ := Option.map_eq_some_iff.mp h
  obtain ⟨p, hp, hrange⟩ := List.exists_of_findSome?_eq_some hlower
  split at hrange
  next hwhole =>
    obtain rfl := Option.some.inj hrange
    unfold Extent.down
    split
    next hid =>
      change some (p.lowerFirst + (e.lowerFirst - p.first) + (id - e.first)) =
        IdMap.down parent (e.lowerFirst + (id - e.first))
      rw [eq_comm, hparent.down_iff]
      obtain ⟨hlow, hhigh⟩ : e.first ≤ id ∧ id < e.first + e.count := hid
      exact ⟨p, hp, by omega, by omega, by omega⟩
    next => rfl
  next => cases hrange

theorem through_cons {parent rest own : List Extent} {e : Extent} :
    through parent (e :: rest) = some own ↔ ∃ first later,
      e.through parent = some first ∧ through parent rest = some later ∧ own = first :: later := by
  rw [through, List.mapM_cons]
  simp only [Option.bind_eq_bind, Option.pure_def, Option.bind_eq_some_iff, Option.some.injEq,
    through, eq_comm (a := own)]
  constructor
  · rintro ⟨first, hfirst, later, hlater, hown⟩
    exact ⟨first, later, hfirst, hlater, hown⟩
  · rintro ⟨first, later, hfirst, hlater, hown⟩
    exact ⟨first, hfirst, later, hlater, hown⟩

/-- An id stands for what the parent says its own counterpart stands for. -/
theorem down_through {parent map own : List Extent} (hparent : Sound parent)
    (h : through parent map = some own) (id : Nat) :
    down own id = (down map id).bind (down parent) := by
  induction map generalizing own with
  | nil =>
      obtain rfl : [] = own := Option.some.inj h
      rfl
  | cons e rest ih =>
      obtain ⟨first, later, hfirst, hlater, rfl⟩ := through_cons.mp h
      have hone := Extent.down_through hparent hfirst id
      have hrest := ih hlater
      cases hid : e.down id with
      | none =>
          rw [hid] at hone
          simp only [down, List.findSome?_cons, hid, hone, Option.bind_none]
          exact hrest
      | some lower =>
          rw [hid] at hone
          simp only [Option.bind_some] at hone
          obtain ⟨kernel, hkernel⟩ : ∃ kernel, first.down id = some kernel := by
            obtain ⟨_, _, rfl⟩ := Option.map_eq_some_iff.mp hfirst
            unfold Extent.down at hid ⊢
            split at hid
            next hrange => exact ⟨_, if_pos hrange⟩
            next => cases hid
          rw [hkernel] at hone
          simp only [down, List.findSome?_cons, hid, hkernel, Option.bind_some]
          exact hone

end IdMap

namespace UserSpace
open IdMap

inductive Kind where
  | uid
  | gid
  deriving DecidableEq

structure Space where
  uidMap : List Extent
  gidMap : List Extent
  setgroupsDenied : Bool

/-- As `unshare` makes it in a parent where `setgroups` is denied or not. -/
def Space.unmapped (denied : Bool) : Space where
  uidMap := []
  gidMap := []
  setgroupsDenied := denied

def Space.map (s : Space) : Kind → List Extent
  | .uid => s.uidMap
  | .gid => s.gidMap

def Space.setMap (s : Space) (map : List Extent) : Kind → Space
  | .uid => { s with uidMap := map }
  | .gid => { s with gidMap := map }

/-- A process outside the namespace, by what it is and has in the parent. -/
structure Writer where
  euid : Nat
  egid : Nat
  /-- The namespace was made under the same user. -/
  owner : Bool
  /-- `CAP_SYS_ADMIN` in the namespace itself. -/
  admin : Bool
  /-- `CAP_SETUID` and `CAP_SETGID`. -/
  setid : Kind → Bool
  setfcap : Bool

def Writer.id (w : Writer) : Kind → Nat
  | .uid => w.euid
  | .gid => w.egid

/-- Nobody needs a capability for a map of the one id that is their own; a group only
once no group can be dropped any more. -/
def OwnId (parent : Kind → List Extent) (w : Writer) (s : Space) (kind : Kind)
    (map : List Extent) : Prop :=
  ∃ e, map = [e] ∧ e.count = 1 ∧ w.owner = true ∧
    down (parent kind) e.lowerFirst = some (w.id kind) ∧
    (kind = .gid → s.setgroupsDenied = true)

instance decidableOwnId (parent : Kind → List Extent) (w : Writer) (s : Space) (kind : Kind) :
    (map : List Extent) → Decidable (OwnId parent w s kind map)
  | [] => isFalse fun ⟨_, h, _⟩ => by cases h
  | [e] => decidable_of_iff (e.count = 1 ∧ w.owner = true ∧
      down (parent kind) e.lowerFirst = some (w.id kind) ∧ (kind = .gid → s.setgroupsDenied = true))
      ⟨fun h => ⟨e, rfl, h⟩, fun ⟨_, h, rest⟩ => by cases h; exact rest⟩
  | _ :: _ :: _ => isFalse fun ⟨_, h, _⟩ => by cases h

/-- To hand out the parent's root takes a capability of its own. -/
def RootAllowed (w : Writer) (kind : Kind) (map : List Extent) : Prop :=
  kind = .uid → (∀ e ∈ map, e.lowerFirst ≠ 0) ∨ w.setfcap = true

instance decidableRootAllowed (w : Writer) (kind : Kind) (map : List Extent) :
    Decidable (RootAllowed w kind map) := inferInstanceAs (Decidable (_ → _))

def Permitted (parent : Kind → List Extent) (w : Writer) (s : Space) (kind : Kind)
    (map : List Extent) : Prop :=
  RootAllowed w kind map ∧ (OwnId parent w s kind map ∨ w.setid kind = true)

instance decidablePermitted (parent : Kind → List Extent) (w : Writer) (s : Space) (kind : Kind)
    (map : List Extent) : Decidable (Permitted parent w s kind map) :=
  inferInstanceAs (Decidable (_ ∧ _))

/-- A write to `uid_map` or `gid_map`. -/
def Space.writeMap (s : Space) (parent : Kind → List Extent) (w : Writer) (kind : Kind)
    (text : List Char) : Option Space := do
  if s.map kind ≠ [] ∨ w.admin = false then none
  else
    let map ← readMap text
    if Permitted parent w s kind map then
      let own ← through (parent kind) map
      some (s.setMap own kind)
    else none

/-- `deny` written to `setgroups`. -/
def Space.denySetgroups (s : Space) (w : Writer) : Option Space :=
  if w.admin = true ∧ s.gidMap = [] then some { s with setgroupsDenied := true } else none

theorem writeMap_eq_some {s s' : Space} {parent : Kind → List Extent} {w : Writer} {kind : Kind}
    {text : List Char} :
    s.writeMap parent w kind text = some s' ↔ s.map kind = [] ∧ w.admin = true ∧
      ∃ map own, readMap text = some map ∧ Permitted parent w s kind map ∧
        through (parent kind) map = some own ∧ s' = s.setMap own kind := by
  unfold Space.writeMap
  split
  next hbad =>
    simp only [reduceCtorEq, false_iff]
    rintro ⟨hnew, hadmin, -⟩
    rcases hbad with hbad | hbad
    · exact hbad hnew
    · rw [hadmin] at hbad
      cases hbad
  next hgood =>
    simp only [not_or, not_not, Bool.not_eq_false] at hgood
    simp only [hgood, true_and, Option.bind_eq_bind, Option.bind_eq_some_iff]
    constructor
    · rintro ⟨map, hmap, hrest⟩
      split at hrest
      next hpermitted =>
        obtain ⟨own, hown, hlast⟩ := Option.bind_eq_some_iff.mp hrest
        exact ⟨map, own, hmap, hpermitted, hown, (Option.some.inj hlast).symm⟩
      next => cases hrest
    · rintro ⟨map, own, hmap, hpermitted, hown, rfl⟩
      refine ⟨map, hmap, ?_⟩
      rw [if_pos hpermitted, hown]
      rfl

@[simp] theorem setMap_map (s : Space) (map : List Extent) (kind : Kind) :
    (s.setMap map kind).map kind = map := by
  cases kind <;> rfl

@[simp] theorem setMap_setgroupsDenied (s : Space) (map : List Extent) (kind : Kind) :
    (s.setMap map kind).setgroupsDenied = s.setgroupsDenied := by
  cases kind <;> rfl

theorem setMap_map_of_ne (s : Space) (map : List Extent) {kind other : Kind} (h : other ≠ kind) :
    (s.setMap map kind).map other = s.map other := by
  cases kind <;> cases other <;> first | rfl | exact absurd rfl h

end UserSpace
