import Mathlib.Data.List.Induction
import Mars.Core.UnixPath

/-! # File trees with symbolic links

A tree says what is at each place, a place being the names on the way from the
root. Paths are walked as the kernel walks them: a link on the way is replaced by
what it holds, up to a number of links. Calls make and remove single entries.
-/

namespace FileTree
open UnixPath

inductive Node where
  | dir
  | file
  | device
  | link (target : List Component)
  deriving DecidableEq

abbrev Place := List Name
abbrev Tree := Place → Option Node

/-- The place gets this entry, with nothing below it. -/
def Tree.put (t : Tree) (place : Place) (node : Option Node) : Tree := fun p =>
  if p = place then node else if place <+: p then none else t p

/-- What is below the place comes to show another tree. -/
def Tree.lay (t : Tree) (place : Place) (other : Tree) : Tree := fun p =>
  if p = place then t p else if place <+: p then other (p.drop place.length) else t p

/-! ## Walking -/

/-- Where a walk ends, with the number of links it may still follow. `missing` is
the first entry that is not there and what was left of the path behind it. -/
inductive Reach where
  | dir (links : Nat) (place : Place)
  | leaf (links : Nat) (place : Place)
  | missing (place : Place) (rest : List Component)
  | blocked
  deriving DecidableEq

def Reach.andThen (reach : Reach) (rest : List Component) (next : Nat → Place → Reach) : Reach :=
  match reach with
  | .dir links place => next links place
  | .leaf links place => if rest = [] then .leaf links place else .blocked
  | .missing place left => .missing place (left ++ rest)
  | .blocked => .blocked

/-- One walk, up to the first link. -/
def through (t : Tree) (onLink : Place → List Component → Reach) (links : Nat) :
    Place → List Component → Reach
  | cur, [] => .dir links cur
  | _, .rootDir :: rest => through t onLink links [] rest
  | cur, .curDir :: rest => through t onLink links cur rest
  | cur, .parentDir :: rest => through t onLink links cur.dropLast rest
  | cur, .normal name :: rest =>
      match t (cur ++ [name]) with
      | none => .missing (cur ++ [name]) rest
      | some .dir => through t onLink links (cur ++ [name]) rest
      | some (.link target) => onLink cur (target ++ rest)
      | some _ => if rest = [] then .leaf links (cur ++ [name]) else .blocked

def follow (t : Tree) : Nat → Place → List Component → Reach
  | 0 => through t (fun _ _ => .blocked) 0
  | links + 1 => through t (fun cur path => follow t links cur path) (links + 1)

def MAXSYMLINKS : Nat := 40

/-- Where an absolute path leads. -/
def lead (t : Tree) (path : List Component) : Reach := follow t MAXSYMLINKS [] path

theorem through_append {t : Tree} {onLink : Place → List Component → Reach} {links : Nat}
    (hlink : ∀ cur path back, onLink cur (path ++ back) =
      (onLink cur path).andThen back fun links place => follow t links place back)
    (hself : follow t links = through t onLink links) (cur : Place) (front back : List Component) :
    through t onLink links cur (front ++ back) =
      (through t onLink links cur front).andThen back fun links place =>
        follow t links place back := by
  induction front generalizing cur with
  | nil => simp [through, Reach.andThen, hself]
  | cons part rest ih =>
      cases part with
      | rootDir => exact ih []
      | curDir => exact ih cur
      | parentDir => exact ih cur.dropLast
      | normal name =>
          simp only [List.cons_append, through]
          split
          next => rfl
          next => exact ih (cur ++ [name])
          next target _ => rw [← List.append_assoc, hlink]
          next =>
            by_cases hrest : rest = []
            · simp [hrest, Reach.andThen]
            · simp [hrest, Reach.andThen]

/-- Walking two paths one after the other is walking them as one. -/
theorem follow_append (t : Tree) (links : Nat) (cur : Place) (front back : List Component) :
    follow t links cur (front ++ back) =
      (follow t links cur front).andThen back fun links place => follow t links place back := by
  induction links generalizing cur front back with
  | zero => exact through_append (fun _ _ _ => rfl) rfl cur front back
  | succ links ih => exact through_append (fun cur path back => ih cur path back) rfl cur front back

theorem follow_normal (t : Tree) (links : Nat) (cur : Place) (name : Name) :
    follow t links cur [.normal name] =
      match t (cur ++ [name]) with
      | none => .missing (cur ++ [name]) []
      | some .dir => .dir links (cur ++ [name])
      | some (.link target) =>
          match links with
          | 0 => .blocked
          | links + 1 => follow t links cur target
      | some _ => .leaf links (cur ++ [name]) := by
  cases links with
  | zero => simp only [follow, through]; split <;> simp_all
  | succ links => simp only [follow, through]; split <;> simp_all

/-- Where a walk ends, or stops for want of an entry. -/
def Reach.place : Reach → Option Place
  | .dir _ place => some place
  | .leaf _ place => some place
  | .missing place _ => some place
  | .blocked => none

/-- No link stands where the names lead from the place one by one. -/
def Tree.Straight (t : Tree) (place : Place) (names : List Name) : Prop :=
  ∀ below, below ≠ [] → below <+: names → ∀ target, t (place ++ below) ≠ some (.link target)

theorem Tree.Straight.enter {t : Tree} {place : Place} {name : Name} {rest : List Name}
    (h : t.Straight place (name :: rest)) : t.Straight (place ++ [name]) rest := by
  intro below _ hbegins target
  rw [List.append_assoc]
  exact h (name :: below) (List.cons_ne_nil _ _) ((List.prefix_cons_inj name).mpr hbegins) target

theorem Tree.Straight.front {t : Tree} {place : Place} {front names : List Name}
    (h : t.Straight place names) (hfront : front <+: names) : t.Straight place front :=
  fun below hne hbegins => h below hne (hbegins.trans hfront)

/-- No link stands below the place. -/
def Tree.NoLinks (t : Tree) (place : Place) : Prop :=
  ∀ below target, t (place ++ below) ≠ some (.link target)

theorem Tree.NoLinks.straight {t : Tree} {place : Place} (h : t.NoLinks place)
    (names : List Name) : t.Straight place names :=
  fun below _ _ => h below

/-- Names without a link on the way lead to the places that they spell. -/
def Reach.Spells (cur : Place) (names : List Name) : Reach → Prop
  | .dir _ place => place = cur ++ names
  | .leaf _ place => place = cur ++ names
  | .missing place _ => ∃ below, below ≠ [] ∧ below <+: names ∧ place = cur ++ below
  | .blocked => True

theorem Reach.Spells.cons {cur : Place} {name : Name} {rest : List Name} {reach : Reach}
    (h : reach.Spells (cur ++ [name]) rest) : reach.Spells cur (name :: rest) := by
  cases reach with
  | dir k place => exact h.trans (List.append_assoc _ _ _)
  | leaf k place => exact h.trans (List.append_assoc _ _ _)
  | missing place left =>
      obtain ⟨below, -, hbegins, rfl⟩ := h
      exact ⟨name :: below, List.cons_ne_nil _ _, (List.prefix_cons_inj name).mpr hbegins,
        List.append_assoc _ _ _⟩
  | blocked => trivial

theorem through_straight {t : Tree} {onLink : Place → List Component → Reach} {links : Nat}
    {cur : Place} {names : List Name} (h : t.Straight cur names) :
    (through t onLink links cur (names.map .normal)).Spells cur names := by
  induction names generalizing cur with
  | nil => exact (List.append_nil cur).symm
  | cons name rest ih =>
      have hfirst : [name] <+: name :: rest := ⟨rest, rfl⟩
      rw [List.map_cons, through]
      split
      next => exact ⟨[name], List.cons_ne_nil _ _, hfirst, rfl⟩
      next => exact (ih h.enter).cons
      next target hlink => exact absurd hlink (h [name] (List.cons_ne_nil _ _) hfirst target)
      next =>
        split
        next hrest =>
          rw [List.map_eq_nil_iff.mp hrest]
          exact rfl
        next => trivial

theorem follow_straight {t : Tree} {links : Nat} {cur : Place} {names : List Name}
    (h : t.Straight cur names) : (follow t links cur (names.map .normal)).Spells cur names := by
  cases links with
  | zero => exact through_straight h
  | succ links => exact through_straight h

/-- Names lead from a place to one strictly below it where no links stand. -/
theorem follow_names {t : Tree} {links : Nat} {cur place : Place} (hlinks : t.NoLinks cur)
    {names : List Name} (hne : names ≠ [])
    (h : (follow t links cur (names.map .normal)).place = some place) :
    ∃ below, below ≠ [] ∧ below <+: names ∧ place = cur ++ below := by
  have hspells : (follow t links cur (names.map .normal)).Spells cur names :=
    follow_straight (hlinks.straight names)
  generalize follow t links cur (names.map .normal) = reach at h hspells
  cases reach with
  | dir k loc => exact ⟨names, hne, List.prefix_rfl, (Option.some.inj h).symm.trans hspells⟩
  | leaf k loc => exact ⟨names, hne, List.prefix_rfl, (Option.some.inj h).symm.trans hspells⟩
  | missing loc rest => exact Option.some.inj h ▸ hspells
  | blocked => cases h

/-- What stands in a directory outside a missing place is outside it too, and an entry made
at that place leaves it there. -/
theorem put_child {t : Tree} {place cur : Place} {name : Name} {entry : Node}
    (hnone : t place = none) (hcur : ¬ place <+: cur) (hnode : t (cur ++ [name]) = some entry)
    (node : Option Node) :
    ¬ place <+: cur ++ [name] ∧ t.put place node (cur ++ [name]) = some entry := by
  have hne : cur ++ [name] ≠ place := by
    intro heq
    rw [heq, hnone] at hnode
    cases hnode
  have hnext : ¬ place <+: cur ++ [name] := by
    intro hpre
    rcases List.prefix_concat_iff.mp hpre with heq | hpre
    · exact hne heq.symm
    · exact hcur hpre
  exact ⟨hnext, by simp [Tree.put, hne, hnext, hnode]⟩

/-- A walk to a directory is not disturbed by an entry made where there was none. -/
theorem through_put {t : Tree} {place : Place} {node : Option Node}
    {onLink onLink' : Place → List Component → Reach} {links : Nat} (hnone : t place = none)
    (hlink : ∀ cur path k loc, ¬ place <+: cur → onLink cur path = .dir k loc →
      onLink' cur path = .dir k loc ∧ ¬ place <+: loc)
    (hplace : place ≠ []) {cur : Place} {path : List Component} {k : Nat} {loc : Place}
    (hcur : ¬ place <+: cur) (h : through t onLink links cur path = .dir k loc) :
    through (t.put place node) onLink' links cur path = .dir k loc ∧ ¬ place <+: loc := by
  induction path generalizing cur with
  | nil =>
      simp only [through, Reach.dir.injEq] at h
      obtain ⟨rfl, rfl⟩ := h
      exact ⟨rfl, hcur⟩
  | cons part rest ih =>
      cases part with
      | rootDir => exact ih (fun hpre => hplace (List.prefix_nil.mp hpre)) h
      | curDir => exact ih hcur h
      | parentDir =>
          exact ih (fun hpre => hcur (hpre.trans (List.dropLast_prefix cur))) h
      | normal name =>
          simp only [through] at h
          cases hnode : t (cur ++ [name]) with
          | none => rw [hnode] at h; cases h
          | some entry =>
              obtain ⟨hnext, hkept⟩ := put_child hnone hcur hnode node
              rw [hnode] at h
              simp only [through, hkept]
              cases entry with
              | dir => exact ih hnext h
              | link target => exact hlink cur _ k loc hcur h
              | file =>
                  simp only at h
                  split at h <;> cases h
              | device =>
                  simp only at h
                  split at h <;> cases h

theorem follow_put {t : Tree} {place : Place} {node : Option Node} (hnone : t place = none)
    (hplace : place ≠ []) {links : Nat} {cur : Place} {path : List Component} {k : Nat}
    {loc : Place} (hcur : ¬ place <+: cur) (h : follow t links cur path = .dir k loc) :
    follow (t.put place node) links cur path = .dir k loc ∧ ¬ place <+: loc := by
  induction links generalizing cur path k loc with
  | zero => exact through_put hnone (fun _ _ _ _ _ h => by cases h) hplace hcur h
  | succ links ih =>
      exact through_put hnone (fun _ _ _ _ hcur h => ih hcur h) hplace hcur h

/-- The walk has come to a directory or to a regular file. -/
def Reach.Found (t : Tree) : Reach → Prop
  | .dir _ _ => True
  | .leaf _ place => t place = some .file
  | _ => False

/-- What a walk finds is there for it in every tree that has more entries. -/
theorem through_found {t t' : Tree} {onLink onLink' : Place → List Component → Reach} {links : Nat}
    (hmore : ∀ place node, node ≠ .device → t' place = some node → t place = some node)
    (hlink : ∀ cur path, (onLink' cur path).Found t' → onLink cur path = onLink' cur path)
    {cur : Place} {path : List Component} (h : (through t' onLink' links cur path).Found t') :
    through t onLink links cur path = through t' onLink' links cur path := by
  induction path generalizing cur with
  | nil => rfl
  | cons part rest ih =>
      cases part with
      | rootDir => exact ih h
      | curDir => exact ih h
      | parentDir => exact ih h
      | normal name =>
          simp only [through] at h ⊢
          cases hnode : t' (cur ++ [name]) with
          | none => rw [hnode] at h; cases h
          | some entry =>
              rw [hnode] at h
              cases entry with
              | dir =>
                  rw [hmore _ _ (by simp) hnode]
                  exact ih h
              | link target =>
                  rw [hmore _ _ (by simp) hnode]
                  exact hlink _ _ h
              | file => rw [hmore _ _ (by simp) hnode]
              | device =>
                  simp only at h
                  split at h
                  next =>
                    rw [Reach.Found, hnode] at h
                    cases h
                  next => cases h

theorem follow_found {t t' : Tree}
    (hmore : ∀ place node, node ≠ .device → t' place = some node → t place = some node)
    {links : Nat} {cur : Place} {path : List Component} (h : (follow t' links cur path).Found t') :
    follow t links cur path = follow t' links cur path := by
  induction links generalizing cur path with
  | zero => exact through_found hmore (fun _ _ h => absurd h id) h
  | succ links ih => exact through_found hmore (fun _ _ h => ih h) h

theorem follow_mono {t t' : Tree} (hmore : ∀ place node, t' place = some node → t place = some node)
    {links : Nat} {cur : Place} {path : List Component} {k : Nat} {loc : Place}
    (h : follow t' links cur path = .dir k loc) : follow t links cur path = .dir k loc := by
  have hfound : (follow t' links cur path).Found t' := by
    rw [h]
    trivial
  rw [follow_found (fun place node _ => hmore place node) hfound, h]

/-- What a process finds that may search the directories and follow the links at some places
only: the others are no way on. -/
def Tree.seen (t : Tree) (may : Place → Bool) : Tree := fun place =>
  if may place.dropLast then
    match t place with
    | some .dir => if may place then some .dir else some .device
    | some (.link target) => if may place then some (.link target) else some .device
    | entry => entry
  else some .device

theorem seen_some {t : Tree} {may : Place → Bool} {place : Place} {node : Node}
    (hnode : node ≠ .device) (h : t.seen may place = some node) : t place = some node := by
  unfold Tree.seen at h
  split at h
  next =>
    split at h
    next heq =>
      split at h
      next => rw [heq, h]
      next => exact absurd (Option.some.inj h).symm hnode
    next target heq =>
      split at h
      next => rw [heq, h]
      next => exact absurd (Option.some.inj h).symm hnode
    next => exact h
  next => exact absurd (Option.some.inj h).symm hnode

/-- Whoever finds something on a path finds it where it is. -/
theorem follow_seen {t : Tree} {may : Place → Bool} {links : Nat} {cur : Place}
    {path : List Component} (h : (follow (t.seen may) links cur path).Found (t.seen may)) :
    follow t links cur path = follow (t.seen may) links cur path :=
  follow_found (fun _ _ hnode => seen_some hnode) h

/-! ## Calls -/

inductive Errno where
  | enoent
  | eexist
  | enotdir
  | eisdir
  | eperm
  | eoverflow
  | other
  deriving DecidableEq

inductive DeviceKind where
  | char
  | block
  | fifo
  deriving DecidableEq

inductive Call where
  | mkdir (path : List Component)
  | create (path : List Component)
  | remove (path : List Component)
  | symlink (path : List Component)
  | mknod (path : List Component) (kind : DeviceKind) (mode major minor : Nat)
  | mount (path : List Component)
  | chmod (path : List Component) (mode : Nat)
  | chown (path : List Component) (uid gid : Option Nat)
  deriving DecidableEq

/-- What the kernel refuses beyond what the tree decides, and what a mount shows. -/
structure Host where
  refuse : Call → Option Errno
  shows : Place → Tree

/-- The place whose entry a path names, its last link not followed. -/
def slot (t : Tree) (path : List Component) : Except Errno Place :=
  match lead t path.dropLast with
  | .dir _ cur =>
      match path.getLast? with
      | some (.normal name) => .ok (cur ++ [name])
      | _ => .error .eexist
  | .missing _ _ => .error .enoent
  | _ => .error .enotdir

/-- An entry where there is none. -/
def make (host : Host) (t : Tree) (call : Call) (path : List Component) (node : Node) :
    Except Errno (Place × Tree) :=
  match slot t path with
  | .error error => .error error
  | .ok place =>
      if (t place).isSome then .error .eexist
      else
        match host.refuse call with
        | some error => .error error
        | none => .ok (place, t.put place (some node))

def mkdir (host : Host) (t : Tree) (path : List Component) : Except Errno (Place × Tree) :=
  make host t (.mkdir path) path .dir

/-- `path.is_dir()`. -/
def isDir (t : Tree) (path : List Component) : Bool :=
  match lead t path with
  | .dir _ _ => true
  | _ => false

/-- `path.is_file()`. -/
def isFile (t : Tree) (cur : Place) (path : List Component) : Bool :=
  match follow t MAXSYMLINKS cur path with
  | .leaf _ place => t place = some .file
  | _ => false

/-- `path.exists()`. -/
def pathExists (t : Tree) (cur : Place) (path : List Component) : Bool :=
  match follow t MAXSYMLINKS cur path with
  | .dir _ _ => true
  | .leaf _ _ => true
  | _ => false

/-- `path.symlink_metadata().is_ok()`. -/
def entryExists (t : Tree) (path : List Component) : Bool :=
  match slot t path with
  | .ok place => (t place).isSome
  | .error _ => isDir t path

/-- The places a sequence of calls made, removed or mounted on, and how it ended. -/
abbrev Outcome (ε : Type) := List Place × Except ε Tree

/-- A directory and whatever is missing on the way. The path is read from its end. -/
def createDirs (host : Host) (t : Tree) : List Component → Outcome Errno
  | [] => ([], .ok t)
  | part :: back =>
      let path := (part :: back).reverse
      match mkdir host t path with
      | .ok (place, t') => ([place], .ok t')
      | .error error =>
          if error = .enoent then
            match createDirs host t back with
            | (log, .error error) => (log, .error error)
            | (log, .ok t') =>
                match mkdir host t' path with
                | .ok (place, t'') => (log ++ [place], .ok t'')
                | .error error => (log, if isDir t' path then .ok t' else .error error)
          else ([], if isDir t path then .ok t else .error error)

def createDirAll (host : Host) (t : Tree) (path : List Component) : Outcome Errno :=
  createDirs host t path.reverse

/-- Opening a file to write makes it where it is missing, at the end of a link too. -/
def createFile (host : Host) (t : Tree) (path : List Component) : Outcome Errno :=
  match host.refuse (.create path) with
  | some error => ([], .error error)
  | none =>
      match lead t path with
      | .missing place [] => ([place], .ok (t.put place (some .file)))
      | .missing _ _ => ([], .error .enoent)
      | .leaf _ _ => ([], .ok t)
      | .dir _ _ => ([], .error .eisdir)
      | .blocked => ([], .error .other)

def removeFile (host : Host) (t : Tree) (path : List Component) : Outcome Errno :=
  match slot t path with
  | .error error => ([], .error error)
  | .ok place =>
      match t place with
      | none => ([], .error .enoent)
      | some .dir => ([], .error .eisdir)
      | some _ =>
          match host.refuse (.remove path) with
          | some error => ([], .error error)
          | none => ([place], .ok (t.put place none))

def made (result : Except Errno (Place × Tree)) : Outcome Errno :=
  match result with
  | .error error => ([], .error error)
  | .ok (place, t) => ([place], .ok t)

def symlink (host : Host) (t : Tree) (target path : List Component) : Outcome Errno :=
  made (make host t (.symlink path) path (.link target))

/-- What a mount call lays over its target: a tree over a directory, another entry
over an entry, or nothing where it changes the mount that is there. -/
inductive Layer where
  | tree
  | entry (node : Node)
  | same
  deriving DecidableEq

/-- A mount on whatever the path leads to. -/
def mountOn (host : Host) (t : Tree) (path : List Component) (layer : Except Errno Layer) :
    Outcome Errno :=
  match host.refuse (.mount path) with
  | some error => ([], .error error)
  | none =>
      match lead t path, layer with
      | .missing _ _, _ => ([], .error .enoent)
      | .blocked, _ => ([], .error .other)
      | _, .error error => ([], .error error)
      | .dir _ place, .ok .tree => ([place], .ok (t.lay place (host.shows place)))
      | .leaf _ place, .ok (.entry node) => ([place], .ok (t.put place (some node)))
      | .dir _ place, .ok .same => ([place], .ok t)
      | .leaf _ place, .ok .same => ([place], .ok t)
      | _, _ => ([], .error .enotdir)

/-- A call that makes and removes nothing. -/
def change (host : Host) (t : Tree) (call : Call) : Outcome Errno :=
  match host.refuse call with
  | some error => ([], .error error)
  | none => ([], .ok t)

def Outcome.andThen {ε : Type} (outcome : Outcome ε) (next : Tree → Outcome ε) : Outcome ε :=
  match outcome with
  | (log, .error error) => (log, .error error)
  | (log, .ok t) => (log ++ (next t).1, (next t).2)

def Outcome.mapError {ε ε' : Type} (outcome : Outcome ε) (f : ε → ε') : Outcome ε' :=
  (outcome.1, outcome.2.mapError f)

/-! ## Walking where missing directories are made -/

/-- The directories to make on the way, the tree with them, and the directory at the
end of the walk. -/
structure Growth where
  places : List Place
  tree : Tree
  stop : Option (Nat × Place)

def Reach.toDir : Reach → Option (Nat × Place)
  | .dir links place => some (links, place)
  | _ => none

/-- Only a missing name of the path itself is made, not what a link misses. -/
def Growth.step (g : Growth) (part : Component) : Growth :=
  match g.stop, part with
  | some (links, cur), .normal name =>
      if g.tree (cur ++ [name]) = none then
        { places := g.places ++ [cur ++ [name]]
          tree := g.tree.put (cur ++ [name]) (some .dir)
          stop := some (links, cur ++ [name]) }
      else { g with stop := (follow g.tree links cur [.normal name]).toDir }
  | some (links, cur), part => { g with stop := (follow g.tree links cur [part]).toDir }
  | none, _ => g

def grow (t : Tree) (path : List Component) : Growth :=
  path.foldl Growth.step { places := [], tree := t, stop := some (MAXSYMLINKS, []) }

section growing
variable {t : Tree} {path : List Component} {part : Component} {name : Name} {place cur : Place}
  {k : Nat} {g : Growth}

theorem lead_concat : lead t (path ++ [part]) =
    (lead t path).andThen [part] fun links place => follow t links place [part] := by
  rw [lead, follow_append]
  rfl

theorem lead_concat_dir (h : lead t path = .dir k cur) :
    lead t (path ++ [part]) = follow t k cur [part] := by
  rw [lead_concat, h]
  rfl

theorem grow_concat : grow t (path ++ [part]) = (grow t path).step part := by
  rw [grow, List.foldl_append]
  rfl

theorem put_self {node : Option Node} : t.put place node place = node := by
  simp [Tree.put]

theorem step_missing (hstop : g.stop = some (k, cur)) (hnone : g.tree (cur ++ [name]) = none) :
    g.step (.normal name) =
      { places := g.places ++ [cur ++ [name]]
        tree := g.tree.put (cur ++ [name]) (some .dir)
        stop := some (k, cur ++ [name]) } := by
  simp only [Growth.step, hstop, hnone, ↓reduceIte]

/-- Where the part is no missing name, the walk goes on and nothing is made. -/
theorem step_there (hstop : g.stop = some (k, cur))
    (hthere : ∀ name, part = .normal name → g.tree (cur ++ [name]) ≠ none) :
    g.step part = { g with stop := (follow g.tree k cur [part]).toDir } := by
  cases part with
  | normal name => simp only [Growth.step, hstop, hthere name rfl, ↓reduceIte]
  | rootDir => simp only [Growth.step, hstop]
  | curDir => simp only [Growth.step, hstop]
  | parentDir => simp only [Growth.step, hstop]

theorem step_stopped (hstop : g.stop = none) : g.step part = g := by
  simp only [Growth.step, hstop]

theorem places_step (h : place ∈ g.places) : place ∈ (g.step part).places := by
  cases hstop : g.stop with
  | none => rw [step_stopped hstop]; exact h
  | some reached =>
      obtain ⟨k, cur⟩ := reached
      by_cases hmissing : ∃ name, part = .normal name ∧ g.tree (cur ++ [name]) = none
      · obtain ⟨name, rfl, hnone⟩ := hmissing
        rw [step_missing hstop hnone]
        exact List.mem_append_left _ h
      · rw [step_there hstop fun name hpart hnone => hmissing ⟨name, hpart, hnone⟩]
        exact h

theorem toDir_iff {reach : Reach} : reach.toDir = some (k, cur) ↔ reach = .dir k cur := by
  cases reach <;> simp [Reach.toDir]

/-- The end of the walk is where the path leads once the directories are made. -/
theorem lead_grow (h : (grow t path).stop = some (k, cur)) :
    lead (grow t path).tree path = .dir k cur := by
  induction path using List.reverseRecOn generalizing k cur with
  | nil =>
      obtain ⟨rfl, rfl⟩ : MAXSYMLINKS = k ∧ [] = cur := by simpa [grow] using h
      rfl
  | append_singleton path part ih =>
      rw [grow_concat] at h ⊢
      cases hstop : (grow t path).stop with
      | none =>
          rw [step_stopped hstop, hstop] at h
          cases h
      | some reached =>
          obtain ⟨links, loc⟩ := reached
          have hlead := ih hstop
          by_cases hmissing : ∃ name, part = .normal name ∧ (grow t path).tree (loc ++ [name]) = none
          · obtain ⟨name, rfl, hnone⟩ := hmissing
            rw [step_missing hstop hnone] at h ⊢
            have hkept : lead ((grow t path).tree.put (loc ++ [name]) (some .dir)) path =
                .dir links loc := (follow_put hnone (by simp) (by simp) hlead).1
            rw [lead_concat_dir hkept, follow_normal, put_self]
            cases h
            rfl
          · have hthere := step_there hstop fun name hpart hnone => hmissing ⟨name, hpart, hnone⟩
            rw [hthere] at h ⊢
            rw [lead_concat_dir hlead]
            exact toDir_iff.mp h

/-- A walk that arrives needs no directory made. -/
theorem grow_of_dir (h : lead t path = .dir k cur) : grow t path = ⟨[], t, some (k, cur)⟩ := by
  induction path using List.reverseRecOn generalizing k cur with
  | nil =>
      cases h
      rfl
  | append_singleton path part ih =>
      cases hlead : lead t path with
      | dir links loc =>
          have hgrow := ih hlead
          rw [lead_concat_dir hlead] at h
          have hthere : ∀ name, part = .normal name → t (loc ++ [name]) ≠ none := by
            rintro name rfl hnone
            rw [follow_normal, hnone] at h
            cases h
          rw [grow_concat, hgrow, step_there rfl hthere, h]
          rfl
      | leaf links loc => rw [lead_concat, hlead] at h; simp [Reach.andThen] at h
      | missing loc rest => rw [lead_concat, hlead] at h; cases h
      | blocked => rw [lead_concat, hlead] at h; cases h

/-- Nor does one that ends at something else than a directory. -/
theorem grow_of_stuck (hdir : ∀ k cur, lead t path ≠ .dir k cur)
    (hmissing : ∀ place rest, lead t path ≠ .missing place rest) :
    grow t path = ⟨[], t, none⟩ := by
  induction path using List.reverseRecOn with
  | nil => exact absurd rfl (hdir MAXSYMLINKS [])
  | append_singleton path part ih =>
      rw [grow_concat]
      cases hlead : lead t path with
      | dir links loc =>
          rw [lead_concat_dir hlead] at hdir hmissing
          have hthere : ∀ name, part = .normal name → t (loc ++ [name]) ≠ none := by
            rintro name rfl hnone
            exact hmissing (loc ++ [name]) [] (by rw [follow_normal, hnone])
          rw [grow_of_dir hlead, step_there rfl hthere]
          cases hreach : follow t links loc [part] with
          | dir k cur => exact absurd hreach (hdir k cur)
          | leaf k cur => rfl
          | missing place rest => exact absurd hreach (hmissing place rest)
          | blocked => rfl
      | leaf links loc =>
          rw [ih (by rw [hlead]; nofun) (by rw [hlead]; nofun)]
          rfl
      | missing loc rest =>
          rw [lead_concat, hlead] at hmissing
          exact absurd rfl (hmissing loc (rest ++ [part]))
      | blocked =>
          rw [ih (by rw [hlead]; nofun) (by rw [hlead]; nofun)]
          rfl

/-- Every link of a tree is one of the other. -/
def Tree.LinksOf (t' t : Tree) : Prop := ∀ place target, t' place = some (.link target) →
  t place = some (.link target)

/-- Where an entry is put there are no others than it and those of before. -/
theorem put_more {node : Option Node} {loc : Place} {found : Node}
    (hentry : node ≠ some found) (h : t.put loc node place = some found) : t place = some found := by
  unfold Tree.put at h
  split at h
  next => exact absurd h hentry
  next =>
    split at h
    next => cases h
    next => exact h

/-- What is made along names without links is what they spell. -/
structure Growth.Spells (g : Growth) (t : Tree) (root : Place) (names : List Name) : Prop where
  places : ∀ place ∈ g.places, root <+: place
  stop : ∀ k cur, g.stop = some (k, cur) → cur = root ++ names
  links : g.tree.LinksOf t

theorem Growth.Spells.step {root : Place} {names : List Name} (h : g.Spells t root names)
    (hstraight : t.Straight root (names ++ [name])) :
    (g.step (.normal name)).Spells t root (names ++ [name]) := by
  cases hstop : g.stop with
  | none =>
      rw [step_stopped hstop]
      refine ⟨h.places, ?_, h.links⟩
      intro k cur hsome
      rw [hstop] at hsome
      cases hsome
  | some reached =>
      obtain ⟨k, cur⟩ := reached
      obtain rfl := h.stop k cur hstop
      by_cases hnone : g.tree (root ++ names ++ [name]) = none
      · rw [step_missing hstop hnone]
        refine ⟨?_, ?_, ?_⟩
        · intro place hmem
          rcases List.mem_append.mp hmem with hmem | hmem
          · exact h.places place hmem
          · rw [List.mem_singleton.mp hmem, List.append_assoc]
            exact List.prefix_append _ _
        · rintro j cur ⟨⟩
          exact List.append_assoc _ _ _
        · intro place target hlink
          exact h.links place target (put_more (by nofun) hlink)
      · have hthere : ∀ other, Component.normal name = .normal other →
            g.tree (root ++ names ++ [other]) ≠ none := by
          rintro other ⟨⟩
          exact hnone
        rw [step_there hstop hthere]
        refine ⟨h.places, ?_, h.links⟩
        intro j cur hsome
        have hreach := toDir_iff.mp hsome
        rw [follow_normal] at hreach
        split at hreach
        next => cases hreach
        next =>
          cases hreach
          exact List.append_assoc _ _ _
        next target hlink =>
          rw [List.append_assoc] at hlink
          exact absurd (h.links _ target hlink)
            (hstraight (names ++ [name]) (by simp) List.prefix_rfl target)
        next => cases hreach

theorem grow_names {root : Place} {names : List Name} (hlead : lead t path = .dir k root)
    (hstraight : t.Straight root names) :
    (grow t (path ++ names.map .normal)).Spells t root names := by
  induction names using List.reverseRecOn with
  | nil =>
      rw [List.map_nil, List.append_nil, grow_of_dir hlead]
      refine ⟨by nofun, ?_, fun _ _ => id⟩
      rintro j cur ⟨⟩
      exact (List.append_nil _).symm
  | append_singleton names name ih =>
      rw [List.map_append, List.map_singleton, ← List.append_assoc, grow_concat]
      exact (ih (hstraight.front (List.prefix_append _ _))).step hstraight

end growing

/-! ## What making directories comes to -/

/-- A host that refuses nothing. -/
def Host.Willing (host : Host) : Prop := ∀ call, host.refuse call = none

/-- No more is made than the walk asks for, and all of it where nothing is refused. -/
structure Makes (host : Host) (g : Growth) (outcome : Outcome Errno) : Prop where
  places : ∀ place ∈ outcome.1, place ∈ g.places
  tree : ∀ t', outcome.2 = .ok t' → t' = g.tree ∧ g.stop.isSome = true
  willing : host.Willing →
    (∀ place ∈ g.places, place ∈ outcome.1) ∧ (g.stop.isSome = true → outcome.2 = .ok g.tree)

section createDirs
variable {host : Host} {t : Tree} {path : List Component} {part : Component} {name : Name}
  {place cur : Place} {k : Nat}

theorem slot_concat (hlead : lead t path = .dir k cur) :
    slot t (path ++ [part]) =
      match part with
      | .normal name => .ok (cur ++ [name])
      | _ => .error .eexist := by
  rw [slot, List.dropLast_concat, List.getLast?_concat, hlead]
  cases part <;> rfl

/-- A call in a directory makes its last name, unless it is there. -/
theorem make_concat {call : Call} {node : Node} (hlead : lead t path = .dir k cur) :
    make host t call (path ++ [part]) node =
      match part with
      | .normal name =>
          if (t (cur ++ [name])).isSome then .error .eexist
          else
            match host.refuse call with
            | some error => .error error
            | none => .ok (cur ++ [name], t.put (cur ++ [name]) (some node))
      | _ => .error .eexist := by
  rw [make, slot_concat hlead]
  cases part <;> rfl

/-- The last step of making a directory, from where its parent is. -/
def lastDir (host : Host) (t : Tree) (path : List Component) (log : List Place) : Outcome Errno :=
  match mkdir host t path with
  | .ok (place, t') => (log ++ [place], .ok t')
  | .error error => (log, if isDir t path then .ok t else .error error)

/-- The last name is tried again once the parent is there. -/
def thenLast (host : Host) (path : List Component) (outcome : Outcome Errno) : Outcome Errno :=
  match outcome with
  | (log, .error error) => (log, .error error)
  | (log, .ok t) => lastDir host t path log

theorem makes_lastDir {log places : List Place} (hlead : lead t path = .dir k cur)
    (hlog : ∀ place ∈ log, place ∈ places) (hall : host.Willing → ∀ place ∈ places, place ∈ log) :
    Makes host (Growth.step ⟨places, t, some (k, cur)⟩ part)
      (lastDir host t (path ++ [part]) log) := by
  by_cases hmissing : ∃ name, part = .normal name ∧ t (cur ++ [name]) = none
  · obtain ⟨name, rfl, hnone⟩ := hmissing
    have hstuck : isDir t (path ++ [.normal name]) = false := by
      rw [isDir, lead_concat_dir hlead, follow_normal, hnone]
    rw [step_missing rfl hnone, lastDir, mkdir, make_concat hlead]
    simp only [hnone, Option.isSome_none, Bool.false_eq_true, ↓reduceIte, hstuck]
    cases hrefuse : host.refuse (.mkdir (path ++ [.normal name])) with
    | none =>
        refine ⟨?_, ?_, ?_⟩
        · intro place hmem
          rcases List.mem_append.mp hmem with hmem | hmem
          · exact List.mem_append_left _ (hlog place hmem)
          · exact List.mem_append_right _ hmem
        · intro t' heq
          exact ⟨(Except.ok.inj heq).symm, rfl⟩
        · intro hhost
          refine ⟨?_, fun _ => rfl⟩
          intro place hmem
          rcases List.mem_append.mp hmem with hmem | hmem
          · exact List.mem_append_left _ (hall hhost place hmem)
          · exact List.mem_append_right _ hmem
    | some error =>
        refine ⟨fun place hmem => List.mem_append_left _ (hlog place hmem), by nofun, ?_⟩
        intro hhost
        rw [hhost] at hrefuse
        cases hrefuse
  · have hthere : ∀ name, part = .normal name → t (cur ++ [name]) ≠ none :=
      fun name hpart hnone => hmissing ⟨name, hpart, hnone⟩
    have hmkdir : mkdir host t (path ++ [part]) = .error .eexist := by
      rw [mkdir, make_concat hlead]
      cases part with
      | normal name => simp [Option.isSome_iff_ne_none.mpr (hthere name rfl)]
      | rootDir => rfl
      | curDir => rfl
      | parentDir => rfl
    rw [step_there rfl hthere, lastDir, hmkdir]
    have hdir : isDir t (path ++ [part]) = (follow t k cur [part]).toDir.isSome := by
      rw [isDir, lead_concat_dir hlead]
      cases follow t k cur [part] <;> rfl
    simp only [hdir]
    refine ⟨hlog, ?_, fun hhost => ⟨hall hhost, ?_⟩⟩
    · intro t' heq
      split at heq
      next hsome => exact ⟨(Except.ok.inj heq).symm, hsome⟩
      next => cases heq
    · intro hsome
      rw [if_pos hsome]

theorem createDirs_concat : createDirs host t (path ++ [part]).reverse =
    match mkdir host t (path ++ [part]) with
    | .ok (place, t') => ([place], .ok t')
    | .error error =>
        if error = .enoent then thenLast host (path ++ [part]) (createDirs host t path.reverse)
        else ([], if isDir t (path ++ [part]) then .ok t else .error error) := by
  rw [List.reverse_append, List.reverse_singleton, List.singleton_append, createDirs]
  have hpath : (part :: path.reverse).reverse = path ++ [part] := by simp
  rw [hpath]
  rfl

theorem makes_thenLast {outcome : Outcome Errno} (h : Makes host (grow t path) outcome) :
    Makes host ((grow t path).step part) (thenLast host (path ++ [part]) outcome) := by
  obtain ⟨log, result⟩ := outcome
  cases result with
  | error error =>
      refine ⟨fun place hmem => places_step (h.places place hmem), by nofun, ?_⟩
      intro hhost
      have hstop : (grow t path).stop = none := by
        by_contra hsome
        have hok := (h.willing hhost).2 (Option.isSome_iff_ne_none.mpr hsome)
        cases hok
      rw [step_stopped hstop]
      exact h.willing hhost
  | ok t' =>
      obtain ⟨rfl, hsome⟩ := h.tree t' rfl
      obtain ⟨⟨k, cur⟩, hstop⟩ := Option.isSome_iff_exists.mp hsome
      have hlast : Makes host
          (Growth.step ⟨(grow t path).places, (grow t path).tree, some (k, cur)⟩ part)
          (lastDir host (grow t path).tree (path ++ [part]) log) :=
        makes_lastDir (lead_grow hstop) h.places fun hhost => (h.willing hhost).1
      rw [← hstop] at hlast
      exact hlast

theorem makes_createDirs (host : Host) (t : Tree) (path : List Component) :
    Makes host (grow t path) (createDirs host t path.reverse) := by
  induction path using List.reverseRecOn with
  | nil =>
      refine ⟨by nofun, ?_, fun _ => ⟨by nofun, fun _ => rfl⟩⟩
      intro t' heq
      exact ⟨(Except.ok.inj heq).symm, rfl⟩
  | append_singleton path part ih =>
      rw [createDirs_concat, grow_concat]
      by_cases hdir : ∃ k cur, lead t path = .dir k cur
      · obtain ⟨k, cur, hlead⟩ := hdir
        have hlast : Makes host ((grow t path).step part) (lastDir host t (path ++ [part]) []) := by
          rw [grow_of_dir hlead]
          exact makes_lastDir hlead (by nofun) (by nofun)
        unfold lastDir at hlast
        cases hmkdir : mkdir host t (path ++ [part]) with
        | ok result =>
            rw [hmkdir] at hlast
            exact hlast
        | error error =>
            rw [hmkdir] at hlast
            by_cases henoent : error = .enoent
            · simp only [henoent, ↓reduceIte]
              exact makes_thenLast ih
            · simp only [henoent, ↓reduceIte]
              exact hlast
      · have hstuck : isDir t (path ++ [part]) = false := by
          rw [isDir, lead_concat]
          cases hlead : lead t path with
          | dir k cur => exact absurd ⟨k, cur, hlead⟩ hdir
          | leaf k cur => rfl
          | missing place rest => rfl
          | blocked => rfl
        have hslot : ∀ error, slot t (path ++ [part]) = .error error →
            mkdir host t (path ++ [part]) = .error error := by
          intro error h
          rw [mkdir, make, h]
        by_cases hmissing : ∃ place rest, lead t path = .missing place rest
        · obtain ⟨place, rest, hlead⟩ := hmissing
          rw [hslot .enoent (by rw [slot, List.dropLast_concat, hlead])]
          exact makes_thenLast ih
        · have hend : mkdir host t (path ++ [part]) = .error .enotdir := by
            apply hslot
            rw [slot, List.dropLast_concat]
            cases hlead : lead t path with
            | dir k cur => exact absurd ⟨k, cur, hlead⟩ hdir
            | leaf k cur => rfl
            | missing place rest => exact absurd ⟨place, rest, hlead⟩ hmissing
            | blocked => rfl
          have hgrow : grow t path = ⟨[], t, none⟩ :=
            grow_of_stuck (fun k cur h => hdir ⟨k, cur, h⟩)
              (fun place rest h => hmissing ⟨place, rest, h⟩)
          rw [hend, hgrow, step_stopped rfl, hstuck]
          exact ⟨by nofun, by nofun, fun _ => ⟨by nofun, by nofun⟩⟩

end createDirs

/-! ## Making a file and mounting on it -/

section file
variable {host : Host} {t : Tree} {path : List Component} {place : Place} {ε : Type}

theorem mem_andThen {outcome : Outcome ε} {next : Tree → Outcome ε} :
    place ∈ (outcome.andThen next).1 ↔
      place ∈ outcome.1 ∨ ∃ t, outcome.2 = .ok t ∧ place ∈ (next t).1 := by
  obtain ⟨log, result⟩ := outcome
  cases result with
  | error error => simp [Outcome.andThen]
  | ok t => simp [Outcome.andThen]

theorem andThen_ok {outcome : Outcome ε} {next : Tree → Outcome ε} {t' : Tree} :
    (outcome.andThen next).2 = .ok t' ↔ ∃ t, outcome.2 = .ok t ∧ (next t).2 = .ok t' := by
  obtain ⟨log, result⟩ := outcome
  cases result with
  | error error => simp [Outcome.andThen]
  | ok t => simp [Outcome.andThen]

theorem andThen_assoc {outcome : Outcome ε} {next last : Tree → Outcome ε} :
    (outcome.andThen next).andThen last = outcome.andThen fun t => (next t).andThen last := by
  obtain ⟨log, result⟩ := outcome
  cases result with
  | error error => rfl
  | ok t =>
      rcases hnext : next t with ⟨log', result⟩
      cases result with
      | error error => simp [Outcome.andThen, hnext]
      | ok t' => simp [Outcome.andThen, hnext]

theorem mapError_ok {ε' : Type} {outcome : Outcome ε} {f : ε → ε'} {t' : Tree} :
    (outcome.mapError f).2 = .ok t' ↔ outcome.2 = .ok t' := by
  obtain ⟨log, result⟩ := outcome
  cases result with
  | error error => exact ⟨nofun, nofun⟩
  | ok t =>
      constructor
      · rintro ⟨⟩
        rfl
      · rintro ⟨⟩
        rfl

/-- What the errors are turned into changes nothing in what is touched. -/
theorem mem_andThen_mapError {ε' : Type} {outcome : Outcome ε} {next : Tree → Outcome ε}
    {f : ε → ε'} {g : Tree → ε → ε'} :
    place ∈ ((outcome.mapError f).andThen fun t => (next t).mapError (g t)).1 ↔
      place ∈ (outcome.andThen next).1 := by
  rw [mem_andThen, mem_andThen]
  simp only [mapError_ok]
  rfl

/-- Once the missing end of a walk is there, the walk arrives at it. -/
theorem through_put_file {onLink onLink' : Place → List Component → Reach} {links : Nat}
    (hnone : t place = none) (hplace : place ≠ [])
    (hlink : ∀ cur path, ¬ place <+: cur → onLink cur path = .missing place [] →
      ∃ k, onLink' cur path = .leaf k place) {cur : Place} (hcur : ¬ place <+: cur)
    (h : through t onLink links cur path = .missing place []) :
    ∃ k, through (t.put place (some .file)) onLink' links cur path = .leaf k place := by
  induction path generalizing cur with
  | nil => cases h
  | cons part rest ih =>
      cases part with
      | rootDir => exact ih (fun hpre => hplace (List.prefix_nil.mp hpre)) h
      | curDir => exact ih hcur h
      | parentDir =>
          exact ih (fun hpre => hcur (hpre.trans (List.dropLast_prefix cur))) h
      | normal name =>
          simp only [through] at h
          cases hnode : t (cur ++ [name]) with
          | none =>
              rw [hnode] at h
              simp only [Reach.missing.injEq] at h
              obtain ⟨rfl, rfl⟩ := h
              exact ⟨links, by simp [through, put_self]⟩
          | some entry =>
              obtain ⟨hnext, hkept⟩ := put_child hnone hcur hnode (some .file)
              rw [hnode] at h
              simp only [through, hkept]
              cases entry with
              | dir => exact ih hnext h
              | link target => exact hlink cur _ hcur h
              | file =>
                  simp only at h
                  split at h <;> cases h
              | device =>
                  simp only at h
                  split at h <;> cases h

theorem follow_put_file (hnone : t place = none) (hplace : place ≠ []) {links : Nat} {cur : Place}
    (hcur : ¬ place <+: cur) (h : follow t links cur path = .missing place []) :
    ∃ k, follow (t.put place (some .file)) links cur path = .leaf k place := by
  induction links generalizing cur path with
  | zero => exact through_put_file hnone hplace (fun _ _ _ h => by cases h) hcur h
  | succ links ih => exact through_put_file hnone hplace (fun _ _ hcur h => ih hcur h) hcur h

/-- What a walk misses is not there, and is not the root. -/
theorem missing_none {onLink : Place → List Component → Reach} {links : Nat} {cur : Place}
    {rest : List Component}
    (hlink : ∀ cur path, onLink cur path = .missing place rest → t place = none ∧ place ≠ [])
    (h : through t onLink links cur path = .missing place rest) : t place = none ∧ place ≠ [] := by
  induction path generalizing cur with
  | nil => cases h
  | cons part back ih =>
      cases part with
      | rootDir => exact ih h
      | curDir => exact ih h
      | parentDir => exact ih h
      | normal name =>
          simp only [through] at h
          split at h
          next hnone =>
            simp only [Reach.missing.injEq] at h
            obtain ⟨rfl, -⟩ := h
            exact ⟨hnone, by simp⟩
          next => exact ih h
          next => exact hlink _ _ h
          next => split at h <;> cases h

theorem follow_missing {links : Nat} {cur : Place} {rest : List Component}
    (h : follow t links cur path = .missing place rest) : t place = none ∧ place ≠ [] := by
  induction links generalizing cur path with
  | zero => exact missing_none (fun _ _ h => by cases h) h
  | succ links ih => exact missing_none (fun _ _ h => ih h) h

/-- Where the mount comes to lie, if it can lie there. -/
def Layer.over : Layer → Reach → Option Place
  | .tree, .dir _ place => some place
  | .entry _, .leaf _ place => some place
  | .same, .dir _ place => some place
  | .same, .leaf _ place => some place
  | _, _ => none

/-- The layer can be laid over what the path leads to, which is this place. -/
def Lies (t : Tree) (path : List Component) (layer : Except Errno Layer) (place : Place) : Prop :=
  ∃ found, layer = .ok found ∧ found.over (lead t path) = some place

theorem mem_mountOn {layer : Except Errno Layer} (h : place ∈ (mountOn host t path layer).1) :
    Lies t path layer place := by
  unfold mountOn at h
  split at h
  next => cases h
  next =>
    split at h <;> first | cases h; done | skip
    all_goals
      obtain rfl := List.mem_singleton.mp h
      simp [Lies, Layer.over, *]

theorem Lies.reached {layer : Except Errno Layer} (h : Lies t path layer place) :
    (lead t path).place = some place := by
  obtain ⟨found, -, hover⟩ := h
  cases hlead : lead t path <;> rw [hlead] at hover <;> cases found <;> cases hover <;> rfl

theorem Lies.mem {layer : Except Errno Layer} (h : Lies t path layer place) (hhost : host.Willing) :
    place ∈ (mountOn host t path layer).1 := by
  obtain ⟨found, rfl, hover⟩ := h
  simp only [mountOn, hhost (.mount path)]
  cases hlead : lead t path with
  | dir links loc =>
      rw [hlead] at hover
      cases found with
      | tree => exact List.mem_singleton.mpr (Option.some.inj hover).symm
      | entry node => cases hover
      | same => exact List.mem_singleton.mpr (Option.some.inj hover).symm
  | leaf links loc =>
      rw [hlead] at hover
      cases found with
      | tree => cases hover
      | entry node => exact List.mem_singleton.mpr (Option.some.inj hover).symm
      | same => exact List.mem_singleton.mpr (Option.some.inj hover).symm
  | missing loc rest =>
      rw [hlead] at hover
      cases found <;> cases hover
  | blocked =>
      rw [hlead] at hover
      cases found <;> cases hover

theorem mem_createFile (h : place ∈ (createFile host t path).1) :
    lead t path = .missing place [] := by
  unfold createFile at h
  split at h
  next => cases h
  next =>
    split at h
    next hlead => exact List.mem_singleton.mp h ▸ hlead
    all_goals cases h

theorem createFile_ok {t' : Tree} (h : (createFile host t path).2 = .ok t') :
    t' = t ∨ ∃ place k, lead t path = .missing place [] ∧ lead t' path = .leaf k place := by
  unfold createFile at h
  split at h
  next => cases h
  next =>
    split at h
    next place hlead =>
      obtain rfl := Except.ok.inj h
      obtain ⟨hnone, hne⟩ := follow_missing hlead
      obtain ⟨k, hk⟩ := follow_put_file hnone hne (by simpa using hne) hlead
      exact Or.inr ⟨place, k, hlead, hk⟩
    next => cases h
    next => exact Or.inl (Except.ok.inj h).symm
    next => cases h
    next => cases h

/-- The path, with a file made at its end where there is nothing. -/
def ensureFile (host : Host) (t : Tree) (path : List Component) : Outcome Errno :=
  if pathExists t [] path then ([], .ok t) else createFile host t path

theorem pathExists_lead : pathExists t [] path =
    match lead t path with
    | .dir _ _ => true
    | .leaf _ _ => true
    | _ => false := rfl

theorem mem_ensureFile (h : place ∈ (ensureFile host t path).1) :
    lead t path = .missing place [] := by
  unfold ensureFile at h
  split at h
  next => cases h
  next => exact mem_createFile h

/-- A file is made and mounted on, or what is there is mounted on. -/
theorem mem_layOver {layer : Tree → Except Errno Layer} (hhost : host.Willing) :
    place ∈ ((ensureFile host t path).andThen fun t => mountOn host t path (layer t)).1 ↔
      lead t path = .missing place [] ∨ Lies t path (layer t) place := by
  rw [mem_andThen]
  constructor
  · rintro (hmade | ⟨t', hok, hmount⟩)
    · exact Or.inl (mem_ensureFile hmade)
    · have hlies := mem_mountOn hmount
      unfold ensureFile at hok
      split at hok
      next =>
        obtain rfl := Except.ok.inj hok
        exact Or.inr hlies
      next =>
        rcases createFile_ok hok with rfl | ⟨made, k, hmissing, hleaf⟩
        · exact Or.inr hlies
        · obtain ⟨found, -, hover⟩ := hlies
          rw [hleaf] at hover
          cases found with
          | tree => cases hover
          | entry node => exact Or.inl (Option.some.inj hover ▸ hmissing)
          | same => exact Or.inl (Option.some.inj hover ▸ hmissing)
  · rintro (hmissing | hlies)
    · left
      simp [ensureFile, pathExists_lead, createFile, hhost (.create path), hmissing]
    · right
      have hexists : pathExists t [] path = true := by
        obtain ⟨found, -, hover⟩ := hlies
        rw [pathExists_lead]
        cases hlead : lead t path with
        | dir k cur => rfl
        | leaf k cur => rfl
        | missing cur rest => rw [hlead] at hover; cases found <;> cases hover
        | blocked => rw [hlead] at hover; cases found <;> cases hover
      refine ⟨t, ?_, hlies.mem hhost⟩
      rw [ensureFile, if_pos hexists]

end file

/-! ## Hosts that refuse nothing -/

/-- What any host lets through, one that refuses nothing lets through as well. -/
structure Steady {ε : Type} (shows : Place → Tree) (f : Host → Outcome ε) : Prop where
  log : ∀ refuse place, place ∈ (f ⟨refuse, shows⟩).1 → place ∈ (f ⟨fun _ => none, shows⟩).1
  ok : ∀ refuse t', (f ⟨refuse, shows⟩).2 = .ok t' → (f ⟨fun _ => none, shows⟩).2 = .ok t'

section steady
variable {ε : Type} {shows : Place → Tree} {t : Tree} {path : List Component}

theorem willing_none : Host.Willing ⟨fun _ => none, shows⟩ := fun _ => rfl

theorem steady_const (outcome : Outcome ε) : Steady shows fun _ => outcome :=
  ⟨fun _ _ h => h, fun _ _ h => h⟩

theorem Steady.andThen {f : Host → Outcome ε} {next : Host → Tree → Outcome ε}
    (hf : Steady shows f) (hnext : ∀ t, Steady shows fun host => next host t) :
    Steady shows fun host => (f host).andThen (next host) where
  log := by
    intro refuse place h
    rcases mem_andThen.mp h with hfirst | ⟨t', hok, hrest⟩
    · exact mem_andThen.mpr (Or.inl (hf.log refuse place hfirst))
    · exact mem_andThen.mpr (Or.inr ⟨t', hf.ok refuse t' hok, (hnext t').log refuse place hrest⟩)
  ok := by
    intro refuse t'' h
    obtain ⟨t', hok, hrest⟩ := andThen_ok.mp h
    exact andThen_ok.mpr ⟨t', hf.ok refuse t' hok, (hnext t').ok refuse t'' hrest⟩

theorem Steady.mapError {ε' : Type} {f : Host → Outcome ε} (hf : Steady shows f) (g : ε → ε') :
    Steady shows fun host => (f host).mapError g :=
  ⟨hf.log, fun refuse t' h => mapError_ok.mpr (hf.ok refuse t' (mapError_ok.mp h))⟩

theorem steady_createDirAll (t : Tree) (path : List Component) :
    Steady shows fun host => createDirAll host t path where
  log := by
    intro refuse place h
    exact ((makes_createDirs _ t path).willing willing_none).1 place
      ((makes_createDirs _ t path).places place h)
  ok := by
    intro refuse t' h
    obtain ⟨rfl, hsome⟩ := (makes_createDirs _ t path).tree t' h
    exact ((makes_createDirs _ t path).willing willing_none).2 hsome

/-- A refused call comes to nothing. -/
theorem steady_refuse {f : Host → Outcome ε}
    (h : ∀ refuse, (∃ error, f ⟨refuse, shows⟩ = ([], .error error)) ∨
      f ⟨refuse, shows⟩ = f ⟨fun _ => none, shows⟩) : Steady shows f where
  log := by
    intro refuse place hmem
    rcases h refuse with ⟨error, hrefused⟩ | hsame
    · rw [hrefused] at hmem
      cases hmem
    · rwa [hsame] at hmem
  ok := by
    intro refuse t' hok
    rcases h refuse with ⟨error, hrefused⟩ | hsame
    · rw [hrefused] at hok
      cases hok
    · rwa [hsame] at hok

theorem steady_mountOn (t : Tree) (path : List Component) (layer : Except Errno Layer) :
    Steady shows fun host => mountOn host t path layer := by
  apply steady_refuse
  intro refuse
  cases hrefuse : refuse (.mount path) with
  | none => right; simp only [mountOn, hrefuse]
  | some error => left; exact ⟨error, by simp only [mountOn, hrefuse]⟩

theorem steady_ensureFile (t : Tree) (path : List Component) :
    Steady shows fun host => ensureFile host t path := by
  apply steady_refuse
  intro refuse
  by_cases hexists : pathExists t [] path = true
  · right; simp only [ensureFile, hexists, ↓reduceIte]
  · cases hrefuse : refuse (.create path) with
    | none => right; simp only [ensureFile, createFile, hexists, hrefuse]
    | some error => left; exact ⟨error, by simp only [ensureFile, createFile, hexists, hrefuse]; rfl⟩

theorem steady_removeFile (t : Tree) (path : List Component) :
    Steady shows fun host => removeFile host t path := by
  apply steady_refuse
  intro refuse
  cases hslot : slot t path with
  | error error => right; simp only [removeFile, hslot]
  | ok place =>
      cases hrefuse : refuse (.remove path) with
      | none => right; simp only [removeFile, hslot, hrefuse]
      | some error =>
          cases hnode : t place with
          | none => right; simp only [removeFile, hslot, hnode]
          | some node =>
              cases node with
              | dir => right; simp only [removeFile, hslot, hnode]
              | file => left; exact ⟨error, by simp only [removeFile, hslot, hnode, hrefuse]⟩
              | device => left; exact ⟨error, by simp only [removeFile, hslot, hnode, hrefuse]⟩
              | link target => left; exact ⟨error, by simp only [removeFile, hslot, hnode, hrefuse]⟩

theorem steady_make (t : Tree) (call : Call) (path : List Component) (node : Node) :
    Steady shows fun host => made (make host t call path node) := by
  apply steady_refuse
  intro refuse
  cases hslot : slot t path with
  | error error => right; simp only [make, hslot]
  | ok place =>
      by_cases hthere : (t place).isSome = true
      · right; simp only [make, hslot, hthere, ↓reduceIte]
      · cases hrefuse : refuse call with
        | none => right; simp only [make, hslot, hthere, hrefuse]
        | some error => left; exact ⟨error, by simp only [make, hslot, hthere, hrefuse]; rfl⟩

end steady

/-! ## What they let through -/

section willing
variable {host : Host} {t : Tree} {path : List Component} {place : Place}

theorem mem_createDirAll (hhost : host.Willing) :
    place ∈ (createDirAll host t path).1 ↔ place ∈ (grow t path).places :=
  ⟨(makes_createDirs host t path).places place,
    ((makes_createDirs host t path).willing hhost).1 place⟩

theorem createDirAll_ok {t' : Tree} (hhost : host.Willing) :
    (createDirAll host t path).2 = .ok t' ↔
      (grow t path).stop.isSome = true ∧ t' = (grow t path).tree := by
  constructor
  · intro h
    exact ((makes_createDirs host t path).tree t' h).symm
  · rintro ⟨hsome, rfl⟩
    exact ((makes_createDirs host t path).willing hhost).2 hsome

/-- An entry can be made in its place. -/
def Free (t : Tree) (path : List Component) (place : Place) : Prop :=
  slot t path = .ok place ∧ t place = none

/-- An entry that is there can be taken away. -/
def Removable (t : Tree) (path : List Component) (place : Place) : Prop :=
  slot t path = .ok place ∧ t place ≠ none ∧ t place ≠ some .dir

theorem make_free {call : Call} {node : Node} (h : Free t path place) :
    make host t call path node =
      match host.refuse call with
      | some error => .error error
      | none => .ok (place, t.put place (some node)) := by
  obtain ⟨hslot, hnone⟩ := h
  simp only [make, hslot, hnone, Option.isSome_none, Bool.false_eq_true, ↓reduceIte]

/-- What cannot be made is not refused for a lack of rights. -/
theorem make_taken {call : Call} {node : Node} (h : ∀ place, ¬ Free t path place) :
    ∃ error, make host t call path node = .error error ∧ error ≠ .eperm ∧ error ≠ .eoverflow := by
  cases hslot : slot t path with
  | ok place =>
      cases hnode : t place with
      | none => exact absurd ⟨hslot, hnode⟩ (h place)
      | some entry =>
          refine ⟨.eexist, ?_, by decide, by decide⟩
          simp only [make, hslot, hnode, Option.isSome_some, ↓reduceIte]
  | error error =>
      refine ⟨error, by simp only [make, hslot], ?_⟩
      unfold slot at hslot
      split at hslot
      next =>
        split at hslot
        next => cases hslot
        next => cases hslot; decide
      next => cases hslot; decide
      next => cases hslot; decide

theorem mem_make {call : Call} {node : Node} (hhost : host.Willing) :
    place ∈ (made (make host t call path node)).1 ↔ Free t path place := by
  constructor
  · intro hmem
    by_contra hfree
    by_cases hsome : ∃ loc, Free t path loc
    · obtain ⟨loc, hloc⟩ := hsome
      rw [make_free hloc, hhost] at hmem
      obtain rfl := List.mem_singleton.mp hmem
      exact hfree hloc
    · obtain ⟨error, herror, -⟩ := make_taken fun loc hloc => hsome ⟨loc, hloc⟩
      rw [herror] at hmem
      cases hmem
  · intro hfree
    rw [make_free hfree, hhost]
    exact List.mem_singleton.mpr rfl

theorem removeFile_removable (hhost : host.Willing) (h : Removable t path place) :
    removeFile host t path = ([place], .ok (t.put place none)) := by
  obtain ⟨hslot, hsome, hdir⟩ := h
  cases hnode : t place with
  | none => exact absurd hnode hsome
  | some node =>
      cases node with
      | dir => exact absurd hnode hdir
      | file => simp only [removeFile, hslot, hnode, hhost (.remove path)]
      | device => simp only [removeFile, hslot, hnode, hhost (.remove path)]
      | link target => simp only [removeFile, hslot, hnode, hhost (.remove path)]

theorem removeFile_other (h : ∀ place, ¬ Removable t path place) :
    ∃ error, removeFile host t path = ([], .error error) := by
  cases hslot : slot t path with
  | error error => exact ⟨error, by simp only [removeFile, hslot]⟩
  | ok place =>
      cases hnode : t place with
      | none => exact ⟨.enoent, by simp only [removeFile, hslot, hnode]⟩
      | some node =>
          by_cases hdir : node = .dir
          · exact ⟨.eisdir, by simp only [removeFile, hslot, hnode, hdir]⟩
          · exact absurd ⟨hslot, by simp [hnode], by simpa [hnode] using hdir⟩ (h place)

/-- An entry is taken away and another one made under its name. -/
theorem mem_replace {next : Tree → Outcome Errno} (hhost : host.Willing) :
    place ∈ ((removeFile host t path).andThen next).1 ↔
      ∃ old, Removable t path old ∧ (place = old ∨ place ∈ (next (t.put old none)).1) := by
  by_cases hold : ∃ old, Removable t path old
  · obtain ⟨old, hremovable⟩ := hold
    rw [removeFile_removable hhost hremovable]
    constructor
    · intro hmem
      rcases List.mem_append.mp hmem with hmem | hmem
      · exact ⟨old, hremovable, Or.inl (List.mem_singleton.mp hmem)⟩
      · exact ⟨old, hremovable, Or.inr hmem⟩
    · rintro ⟨other, hother, h⟩
      obtain rfl : old = other := Except.ok.inj (hremovable.1.symm.trans hother.1)
      rcases h with rfl | hmem
      · exact List.mem_append_left _ (List.mem_singleton.mpr rfl)
      · exact List.mem_append_right _ hmem
  · have hnone : ∀ old, ¬ Removable t path old := fun old h => hold ⟨old, h⟩
    have herror : ∃ error, removeFile host t path = ([], .error error) := removeFile_other hnone
    obtain ⟨error, herror⟩ := herror
    rw [herror]
    constructor
    · nofun
    · rintro ⟨old, h, -⟩
      exact absurd h (hnone old)

/-- A path that names a free place leads to it. -/
theorem Free.lead (h : Free t path place) : lead t path = .missing place [] := by
  obtain ⟨hslot, hnone⟩ := h
  rcases List.eq_nil_or_concat path with rfl | ⟨front, part, rfl⟩
  · cases hslot
  · rw [List.concat_eq_append] at hslot ⊢
    cases hlead : FileTree.lead t front with
    | dir k cur =>
        rw [slot_concat hlead] at hslot
        cases part with
        | normal name =>
            obtain rfl := Except.ok.inj hslot
            rw [lead_concat_dir hlead, follow_normal, hnone]
        | rootDir => cases hslot
        | curDir => cases hslot
        | parentDir => cases hslot
    | leaf k cur => simp [slot, hlead] at hslot
    | missing cur rest => simp [slot, hlead] at hslot
    | blocked => simp [slot, hlead] at hslot

end willing

end FileTree
