import Mars.Container.Privileges
import Mars.Core.FileTree

/-! # The program that is checked and the program that is executed

A program is looked up with the rights and from the working directory that the
process has then. Init does so in the container's root, changes to `process.cwd`
and takes on its user afterwards; `enter` does both first. Each hands the path it
found to `execve` as it is.
-/

namespace Mars.Program
open Credentials FileTree UnixPath
open Capabilities (CapsCrate byNumber)
open Spec (Capability)

def DEFAULT_PATH : String := "/usr/local/sbin:/usr/local/bin:/usr/sbin:/usr/bin:/sbin:/bin"

/-- The container's file tree. `may` is whether a process may search the directory, or
follow the link, at a place. -/
structure Files where
  tree : Tree
  may : Creds Capability → Place → Bool

/-- What a process looks a path up with. -/
structure Standing where
  creds : Creds Capability
  cur : Place
  deriving DecidableEq

def Files.seen (files : Files) (c : Creds Capability) : Tree := files.tree.seen (files.may c)

/-- `path.is_file()`. -/
def isFile (files : Files) (standing : Standing) (path : String) : Bool :=
  decide (NamesFile path) && (isAbsolute path || files.may standing.creds standing.cur) &&
    FileTree.isFile (files.seen standing.creds) standing.cur (components path)

/-- The entries of the first `PATH`, the empty ones left out. -/
def search (env : List String) : List String :=
  let path := (env.findSome? fun entry => entry.toList.dropPrefix? "PATH=".toList).getD
    DEFAULT_PATH.toList
  ((path.splitOn ':').filter (· ≠ [])).map String.ofList

def candidates (program : String) (env : List String) : List String :=
  (search env).map fun dir => join dir program

def resolveExecutable (files : Files) (standing : Standing) (program : String)
    (env : List String) (ownRootfs : Bool) : Except Error String :=
  if '/' ∈ program.toList then
    if ownRootfs && !isFile files standing program then .error (.executableNotFound program)
    else .ok program
  else
    match (candidates program env).find? (isFile files standing) with
    | some candidate => .ok candidate
    | none => .error (.executableNotFound program)

/-- `chdir` in the container's root. -/
def chdir (files : Files) (c : Creds Capability) (path : String) : Option Place :=
  match lead (files.seen c) (components path) with
  | .dir _ place => if files.may c place then some place else none
  | _ => none

/-! ## Init -/

/-- What init passes on, looked up in the root where `pivot` has left it. -/
def checked (files : Files) (c : Creds Capability) (bundle : Bundle) (ownRootfs : Bool) :
    Except Error String := do
  let argv ← bundle.argv
  resolveExecutable files ⟨c, []⟩ (argv.headD "") bundle.env ownRootfs

def workingDirectory (files : Files) (c : Creds Capability) (bundle : Bundle) : Option Place :=
  match bundle.cwd with
  | some cwd => if cwd = "" then chdir files c "/" else chdir files c cwd
  | none => chdir files c "/"

def takeOn (crate : CapsCrate) (bundle : Bundle) (c : Creds Capability) :
    Except Error (Creds Capability) :=
  match bundle.spec.process with
  | some process => Process.containerInit crate process c
  | none => .ok c

/-- With which rights and where init executes which path. -/
def containerInit (files : Files) (crate : CapsCrate) (c : Creds Capability) (bundle : Bundle)
    (ownRootfs : Bool) :
    Except Error (Standing × String) := do
  let program ← checked files c bundle ownRootfs
  let cur ← called (workingDirectory files c bundle) .syscall
  let c ← takeOn crate bundle c
  pure (⟨c, cur⟩, program)

/-! ## Exec -/

/-- With which rights and where `exec` executes which path. -/
def enter (files : Files) (c : Creds Capability) (target : Exec.Target) :
    Except Error (Standing × String) := do
  let _ ← called (chdir files c "/")
    (.nix "chdir to / after entering the container's mount namespace")
  let c ← Exec.enter target c
  let cur ← called (chdir files c target.cwd) (.nix ("chdir to " ++ target.cwd))
  let program ← resolveExecutable files ⟨c, cur⟩ (target.argv.headD "") target.env true
  pure (⟨c, cur⟩, program)

/-! ## What is executed -/

/-- The regular file that a path leads to. -/
def fileAt (files : Files) (standing : Standing) (path : String) : Option Place :=
  if isFile files standing path then
    match follow (files.seen standing.creds) MAXSYMLINKS standing.cur (components path) with
    | .leaf _ place => some place
    | _ => none
  else none

/-- The file that `execve` gets. -/
def executed (files : Files) (result : Except Error (Standing × String)) : Option Place :=
  match result with
  | .ok (standing, path) => fileAt files standing path
  | .error _ => none

/-- What init calls `execve` with, whatever the path is. -/
def initStanding (files : Files) (crate : CapsCrate) (c : Creds Capability) (bundle : Bundle) :
    Option Standing :=
  (workingDirectory files c bundle).bind fun cur => (takeOn crate bundle c).toOption.map (⟨·, cur⟩)

/-- What `exec` looks its program up with. -/
def execStanding (files : Files) (c : Creds Capability) (target : Exec.Target) :
    Option Standing :=
  (chdir files c "/").bind fun _ => (Exec.enter target c).toOption.bind fun c =>
    (chdir files c target.cwd).map (⟨c, ·⟩)

/-- Init accepts the program where its path leads to a file when `execve` is called, and
executes what `exec` would execute. `c` and `e` are the credentials both begin with. -/
structure SameProgram (files : Files) (crate : CapsCrate) (c e : Creds Capability) (bundle : Bundle)
    (target : Exec.Target) : Prop where
  accepted : ∀ standing, initStanding files crate c bundle = some standing →
    ((∃ path, checked files c bundle true = .ok path) ↔
      ∃ path, checked files c bundle false = .ok path ∧ isFile files standing path = true)
  same : executed files (containerInit files crate c bundle true) =
    executed files (enter files e target)

/-! ## Two searches along one list -/

section searches
variable {α β : Type} {p q r : α → Bool} {f g : α → Option β}

/-- The first entry that either search takes, `p` or `r`, is taken by both, or the one that
does not take it finds the same thing at a later entry; and `q` takes what `p` finds. -/
def Settled (p q r : α → Bool) (f g : α → Option β) : List α → Prop
  | [] => True
  | x :: rest =>
      if p x then q x = true ∧ (r x = true ∨ ∃ y, rest.find? r = some y ∧ g y = f x)
      else if r x then ∃ y, rest.find? p = some y ∧ f y = g x
      else Settled p q r f g rest

theorem bind_eq_some_value {o : Option α} {z : Option β} (hz : z.isSome = true) :
    o.bind f = z ↔ ∃ y, o = some y ∧ f y = z := by
  cases o with
  | none =>
      cases z with
      | none => cases hz
      | some z => simp
  | some y => simp

theorem settled_iff (hf : ∀ x, (f x).isSome = q x) (hg : ∀ x, (g x).isSome = r x)
    (hboth : ∀ x, q x = true → r x = true → f x = g x) (l : List α) :
    Settled p q r f g l ↔
      (∀ x, l.find? p = some x → q x = true) ∧ (l.find? p).bind f = (l.find? r).bind g := by
  induction l with
  | nil => simp [Settled]
  | cons x rest ih =>
      rw [Settled, List.find?_cons, List.find?_cons]
      cases hp : p x with
      | true =>
          cases hr : r x with
          | true =>
              simp only [if_true, true_or, and_true, Option.some.injEq, forall_eq',
                Option.bind_some]
              exact ⟨fun hq => ⟨hq, hboth x hq hr⟩, fun h => h.1⟩
          | false =>
              simp only [if_true, Bool.false_eq_true, false_or, Option.some.injEq, forall_eq',
                Option.bind_some]
              refine and_congr_right fun hq => ?_
              rw [eq_comm, bind_eq_some_value ((hf x).trans hq)]
      | false =>
          cases hr : r x with
          | false => simpa using ih
          | true =>
              simp only [Bool.false_eq_true, if_false, if_true, Option.bind_some]
              rw [bind_eq_some_value ((hg x).trans hr)]
              constructor
              · rintro ⟨y, hy, hsame⟩
                refine ⟨fun z hz => ?_, y, hy, hsame⟩
                obtain rfl := Option.some.inj (hy.symm.trans hz)
                rw [← hf, hsame, hg, hr]
              · exact fun h => h.2

/-- Where the three agree entry by entry the searches find the same. -/
theorem settled_of_agree {l : List α} (h : ∀ x ∈ l, p x = q x ∧ q x = r x) :
    Settled p q r f g l := by
  induction l with
  | nil => trivial
  | cons x rest ih =>
      obtain ⟨hpq, hqr⟩ := h x List.mem_cons_self
      rw [Settled, hpq, ← hqr]
      split
      next hq => exact ⟨hq, .inl hq⟩
      next => exact ih fun y hy => h y (List.mem_cons_of_mem _ hy)

end searches

/-! ## When the two lookups agree -/

/-- The path is a regular file for the process, if it gets there at all. -/
def sees (files : Files) (standing : Option Standing) (path : String) : Bool :=
  standing.any fun standing => isFile files standing path

def leadsTo (files : Files) (standing : Option Standing) (path : String) : Option Place :=
  standing.bind fun standing => fileAt files standing path

/-- Init takes the path, and gets to `execve`. -/
def takes (files : Files) (first : Standing) (later : Option Standing) (path : String) : Bool :=
  later.isSome && isFile files first path

/-- A path is a file for init when it looks, when it executes and for `exec`, or for none of
them; along `PATH` the first entry that init takes or `exec` sees decides. -/
structure Stable (files : Files) (first : Standing) (later other : Option Standing)
    (program : String) (env : List String) : Prop where
  path : '/' ∈ program.toList →
    takes files first later program = sees files later program ∧
      sees files later program = sees files other program
  bare : '/' ∉ program.toList →
    Settled (takes files first later) (sees files later) (sees files other)
      (leadsTo files later) (leadsTo files other) (candidates program env)

section lookup
variable {files : Files} {first standing standing' : Standing} {later other : Option Standing}
  {c e : Creds Capability} {bundle : Bundle} {target : Exec.Target} {program path cwd : String}
  {args env : List String}

/-- The walk of a path that is a file ends there, for whoever sees it. -/
theorem isFile_found (h : isFile files standing path = true) :
    ∃ links place, follow (files.seen standing.creds) MAXSYMLINKS standing.cur
        (components path) = .leaf links place ∧
      follow files.tree MAXSYMLINKS standing.cur (components path) = .leaf links place := by
  simp only [isFile, FileTree.isFile, Bool.and_eq_true] at h
  obtain ⟨-, hfile⟩ := h
  cases hfollow : follow (files.seen standing.creds) MAXSYMLINKS standing.cur
      (components path) with
  | leaf links place =>
      rw [hfollow] at hfile
      have hnode : files.seen standing.creds place = some .file := by simpa using hfile
      have hfound : (follow (files.seen standing.creds) MAXSYMLINKS standing.cur
          (components path)).Found (files.seen standing.creds) := by
        rw [hfollow]
        exact hnode
      exact ⟨links, place, rfl, (follow_seen hfound).trans hfollow⟩
  | _ => simp [hfollow] at hfile

theorem fileAt_isSome (files : Files) (standing : Standing) (path : String) :
    (fileAt files standing path).isSome = isFile files standing path := by
  unfold fileAt
  cases hfile : isFile files standing path with
  | false => rfl
  | true =>
      obtain ⟨links, place, hfollow, -⟩ := isFile_found hfile
      rw [hfollow]
      rfl

theorem leadsTo_isSome (files : Files) (later : Option Standing) (path : String) :
    (leadsTo files later path).isSome = sees files later path := by
  cases later with
  | none => rfl
  | some standing => exact fileAt_isSome files standing path

theorem fileAt_same (hcur : standing.cur = standing'.cur) (h : isFile files standing path = true)
    (h' : isFile files standing' path = true) :
    fileAt files standing path = fileAt files standing' path := by
  obtain ⟨links, place, hfollow, htree⟩ := isFile_found h
  obtain ⟨links', place', hfollow', htree'⟩ := isFile_found h'
  rw [hcur, htree'] at htree
  obtain ⟨-, rfl⟩ := Reach.leaf.inj htree
  rw [fileAt, fileAt, if_pos h, if_pos h', hfollow, hfollow']

theorem resolve_slash (hslash : '/' ∈ program.toList) :
    resolveExecutable files standing program env true =
      if isFile files standing program then .ok program
      else .error (.executableNotFound program) := by
  rw [resolveExecutable, if_pos hslash]
  cases isFile files standing program <;> rfl

theorem resolve_bare (hslash : '/' ∉ program.toList) (ownRootfs : Bool) :
    resolveExecutable files standing program env ownRootfs =
      match (candidates program env).find? (isFile files standing) with
      | some candidate => .ok candidate
      | none => .error (.executableNotFound program) := by
  rw [resolveExecutable, if_neg hslash]

theorem checked_eq (hargv : bundle.argv = .ok (program :: args)) (ownRootfs : Bool) :
    checked files c bundle ownRootfs =
      resolveExecutable files ⟨c, []⟩ program bundle.env ownRootfs := by
  simp only [checked, hargv]
  rfl

/-- A bare name that the three see alike along `PATH` is stable. -/
theorem stable_of_agree (hslash : '/' ∉ program.toList)
    (h : ∀ candidate ∈ candidates program env,
      takes files first later candidate = sees files later candidate ∧
        sees files later candidate = sees files other candidate) :
    Stable files first later other program env :=
  ⟨fun hpath => absurd hpath hslash, fun _ => settled_of_agree h⟩

/-! ## The two ends -/

/-- The file behind what a lookup comes to. -/
def chosen (files : Files) (later : Option Standing) (result : Except Error String) :
    Option Place :=
  match result with
  | .ok path => leadsTo files later path
  | .error _ => none

theorem executed_containerInit (hargv : bundle.argv = .ok (program :: args)) :
    executed files (containerInit files crate c bundle true) =
      chosen files (initStanding files crate c bundle)
        (resolveExecutable files ⟨c, []⟩ program bundle.env true) := by
  rw [containerInit, checked_eq hargv, initStanding]
  cases resolveExecutable files ⟨c, []⟩ program bundle.env true with
  | error error => rfl
  | ok path =>
      cases workingDirectory files c bundle with
      | none => rfl
      | some cur => cases takeOn crate bundle c <;> rfl

theorem executed_enter (hargv : target.argv = program :: args) :
    executed files (enter files e target) =
      (execStanding files e target).bind fun standing =>
        chosen files (some standing) (resolveExecutable files standing program target.env true) := by
  rw [enter, execStanding, hargv]
  cases chdir files e "/" with
  | none => rfl
  | some top =>
      cases Exec.enter target e with
      | error error => rfl
      | ok x =>
          cases hcur : chdir files x target.cwd with
          | none => simp [called, bind, Except.bind, Except.toOption, hcur, executed]
          | some cur =>
              simp only [called, bind, Except.bind, Except.toOption, Option.bind_some,
                Option.map_some, hcur, List.headD_cons]
              cases resolveExecutable files ⟨x, cur⟩ program target.env true <;> rfl

theorem leadsTo_same (hcur : ∀ standing ∈ later, ∀ standing' ∈ other,
    standing.cur = standing'.cur) (path : String) :
    leadsTo files later path = leadsTo files other path ↔
      sees files later path = sees files other path := by
  constructor
  · intro hsame
    rw [← leadsTo_isSome, ← leadsTo_isSome, hsame]
  · intro hsame
    cases hsees : sees files later path with
    | false =>
        have hnone : ∀ at' : Option Standing, sees files at' path = false →
            leadsTo files at' path = none := by
          intro at' hnot
          rwa [← leadsTo_isSome, Option.isSome_eq_false_iff, Option.isNone_iff_eq_none] at hnot
        rw [hnone later hsees, hnone other (hsame.symm.trans hsees)]
    | true =>
        have hother : sees files other path = true := hsame.symm.trans hsees
        cases later with
        | none => cases hsees
        | some standing =>
            cases other with
            | none => cases hother
            | some standing' => exact fileAt_same (hcur _ rfl _ rfl) hsees hother

theorem chosen_slash (hslash : '/' ∈ program.toList) :
    chosen files later (resolveExecutable files first program env true) =
      if isFile files first program then leadsTo files later program else none := by
  rw [resolve_slash hslash]
  split <;> rfl

theorem chosen_bare (hslash : '/' ∉ program.toList) :
    chosen files later (resolveExecutable files first program env true) =
      ((candidates program env).find? (isFile files first)).bind (leadsTo files later) := by
  rw [resolve_bare hslash]
  cases (candidates program env).find? (isFile files first) <;> rfl

/-- Where it is not a file, a path leads nowhere. -/
theorem leadsTo_unless (files : Files) (standing : Standing) (path : String) :
    (if isFile files standing path then leadsTo files (some standing) path else none) =
      leadsTo files (some standing) path := by
  change (if isFile files standing path then fileAt files standing path else none) =
    fileAt files standing path
  unfold fileAt
  split <;> rfl

/-- Init accepts what is a file when it executes, and executes what `exec` does. -/
def Agrees (files : Files) (first : Standing) (later other : Option Standing) (program : String)
    (env : List String) : Prop :=
  (∀ standing ∈ later, (∃ path, resolveExecutable files first program env true = .ok path) ↔
    ∃ path, resolveExecutable files first program env false = .ok path ∧
      isFile files standing path = true) ∧
  chosen files later (resolveExecutable files first program env true) =
    other.bind fun standing =>
      chosen files (some standing) (resolveExecutable files standing program env true)

/-- What the lookups must agree on where the program is a path. -/
theorem stable_slash (hslash : '/' ∈ program.toList) (hcur : ∀ standing ∈ later,
    ∀ standing' ∈ other, standing.cur = standing'.cur) :
    (takes files first later program = sees files later program ∧
      sees files later program = sees files other program) ↔
    Agrees files first later other program env := by
  have hunchecked : resolveExecutable files first program env false = .ok program := by
    rw [resolveExecutable, if_pos hslash]
    rfl
  have hother : (other.bind fun standing =>
      chosen files (some standing) (resolveExecutable files standing program env true)) =
        leadsTo files other program := by
    cases other with
    | none => rfl
    | some standing =>
        rw [Option.bind_some, chosen_slash hslash]
        exact leadsTo_unless files standing program
  have haccepted : (∃ path, resolveExecutable files first program env true = .ok path) ↔
      isFile files first program = true := by
    rw [resolve_slash hslash]
    cases isFile files first program <;> simp
  rw [Agrees, hother, chosen_slash hslash, haccepted, hunchecked, ← leadsTo_same hcur]
  cases later with
  | none =>
      have hnone : leadsTo files none program = none := rfl
      simp [takes, sees, hnone]
  | some standing =>
      have hlater : isFile files first program = isFile files standing program →
          (if isFile files first program then leadsTo files (some standing) program else none) =
            leadsTo files (some standing) program := by
        intro heq
        rw [heq]
        exact leadsTo_unless files standing program
      have htakes : takes files first (some standing) program = isFile files first program := rfl
      have hsees : sees files (some standing) program = isFile files standing program := rfl
      have hfile : (∀ standing' ∈ some standing, isFile files first program = true ↔
          ∃ path, Except.ok program = (Except.ok path : Except Error String) ∧
            isFile files standing' path = true) ↔
          isFile files first program = isFile files standing program := by
        constructor
        · intro h
          exact Bool.eq_iff_iff.mpr (by simpa using h standing rfl)
        · intro heq standing' hstanding
          obtain rfl := Option.some.inj hstanding
          simp [heq]
      rw [htakes, hsees, hfile]
      exact and_congr_right fun heq => by rw [hlater heq]

/-- What the searches must agree on where it is a bare name. -/
theorem stable_bare (hslash : '/' ∉ program.toList) (hcur : ∀ standing ∈ later,
    ∀ standing' ∈ other, standing.cur = standing'.cur) :
    Settled (takes files first later) (sees files later) (sees files other)
      (leadsTo files later) (leadsTo files other) (candidates program env) ↔
    Agrees files first later other program env := by
  have hother : (other.bind fun standing =>
      chosen files (some standing) (resolveExecutable files standing program env true)) =
        ((candidates program env).find? (sees files other)).bind (leadsTo files other) := by
    cases other with
    | none =>
        have hnone : (candidates program env).find? (sees files none) = none := by
          simp [sees]
        rw [hnone]
        rfl
    | some standing => exact chosen_bare hslash
  have hboth : ∀ path, sees files later path = true → sees files other path = true →
      leadsTo files later path = leadsTo files other path := by
    intro path hlater hother
    exact (leadsTo_same hcur path).mpr (hlater.trans hother.symm)
  rw [Agrees, settled_iff (leadsTo_isSome files later) (leadsTo_isSome files other) hboth, hother,
    chosen_bare hslash, resolve_bare hslash, resolve_bare hslash]
  cases later with
  | none =>
      have hnone : ∀ found : Option String, found.bind (leadsTo files none) = none := by
        intro found
        cases found <;> rfl
      have htakes : (candidates program env).find? (takes files first none) = none := by
        simp [takes]
      simp [hnone, htakes]
  | some standing =>
      have htakes : takes files first (some standing) = isFile files first := rfl
      rw [htakes]
      refine and_congr_left fun _ => ?_
      cases (candidates program env).find? (isFile files first) with
      | none => simp
      | some candidate => simp [sees]

end lookup

/-! ## Exactly when it is the same program -/

section exact
variable {files : Files} {crate : CapsCrate} {c e : Creds Capability} {bundle : Bundle}
  {target : Exec.Target} {program cwd : String} {args : List String}

/-- Both go to the same directory, if they get there. -/
theorem standing_cur (hcwd : bundle.cwd = some cwd) (habsolute : isAbsolute cwd = true)
    (hdir : target.cwd = cwd) : ∀ standing ∈ initStanding files crate c bundle,
    ∀ standing' ∈ execStanding files e target, standing.cur = standing'.cur := by
  have hchdir : ∀ {c : Creds Capability} {place : Place}, chdir files c cwd = some place →
      ∃ links, follow files.tree MAXSYMLINKS [] (components cwd) = .dir links place := by
    intro c place h
    unfold chdir at h
    cases hlead : lead (files.seen c) (components cwd) with
    | dir links there =>
        have hfound : (follow (files.seen c) MAXSYMLINKS [] (components cwd)).Found
            (files.seen c) := by
          rw [← lead, hlead]
          trivial
        rw [hlead] at h
        simp only [Option.ite_none_right_eq_some, Option.some.injEq] at h
        exact ⟨links, (follow_seen hfound).trans (h.2 ▸ hlead)⟩
    | _ => simp [hlead] at h
  have hne : cwd ≠ "" := by
    rintro rfl
    cases habsolute
  intro standing hstanding standing' hstanding'
  obtain ⟨cur, hcur, hrest⟩ := Option.bind_eq_some_iff.mp hstanding
  obtain ⟨r, -, rfl⟩ := Option.map_eq_some_iff.mp hrest
  obtain ⟨top, -, hrest'⟩ := Option.bind_eq_some_iff.mp hstanding'
  obtain ⟨x, -, hlast⟩ := Option.bind_eq_some_iff.mp hrest'
  obtain ⟨cur', hcur', rfl⟩ := Option.map_eq_some_iff.mp hlast
  simp only [workingDirectory, hcwd, if_neg hne] at hcur
  rw [hdir] at hcur'
  obtain ⟨links, hlead⟩ := hchdir hcur
  obtain ⟨links', hlead'⟩ := hchdir hcur'
  exact (Reach.dir.inj (hlead.symm.trans hlead')).2

/-- The program that is checked is the one that is executed exactly where what init sees from
the root, what it sees with its later rights from the working directory, and what `exec` sees
from there agree. -/
theorem same_program_iff (hargv : bundle.argv = .ok (program :: args))
    (hcwd : bundle.cwd = some cwd) (habsolute : isAbsolute cwd = true)
    (htarget : target.argv = program :: args) (henv : target.env = bundle.env)
    (hdir : target.cwd = cwd) :
    SameProgram files crate c e bundle target ↔
      Stable files ⟨c, []⟩ (initStanding files crate c bundle) (execStanding files e target) program
        bundle.env := by
  have hcur := @standing_cur files crate c e bundle target cwd hcwd habsolute hdir
  have hends : SameProgram files crate c e bundle target ↔
      Agrees files ⟨c, []⟩ (initStanding files crate c bundle) (execStanding files e target) program
        bundle.env := by
    rw [Agrees, ← executed_containerInit hargv, ← henv, ← executed_enter htarget, henv,
      ← checked_eq hargv, ← checked_eq hargv]
    exact ⟨fun h => ⟨h.accepted, h.same⟩, fun h => ⟨h.1, h.2⟩⟩
  rw [hends]
  by_cases hslash : '/' ∈ program.toList
  · rw [← stable_slash hslash hcur]
    exact ⟨fun h => ⟨fun _ => h, fun hbare => absurd hslash hbare⟩, fun h => h.path hslash⟩
  · rw [← stable_bare hslash hcur]
    exact ⟨fun h => ⟨fun hpath => absurd hpath hslash, fun _ => h⟩, fun h => h.bare hslash⟩

end exact

/-- A program below the working directory, one in `/bin` and one in a closed directory. -/
def image : Tree := fun place =>
  [(["srv"], .dir), (["srv", "app"], .file), (["bin"], .dir), (["bin", "sh"], .file),
    (["root"], .dir), (["root", "sh"], .file)].lookup (place.map (·.text))

/-- Only root may search `/root`. -/
def guarded : Files where
  tree := image
  may := fun c place => c.uid = 0 ∨ place.map (·.text) ≠ ["root"]

def started (uid : Nat) (program path : String) : Bundle where
  dir := "/bundle"
  spec := {
    root := none
    process := some {
      terminal := none
      user := { uid := uid, gid := uid, umask := none, additionalGids := none }
      args := some [program]
      env := some ["PATH=" ++ path]
      cwd := "/srv"
      capabilities := none
      noNewPrivileges := none }
    hostname := none
    domainname := none
    mounts := none
    hooks := none }

def entered (uid : Nat) (program path : String) : Exec.Target where
  argv := [program]
  env := ["PATH=" ++ path]
  cwd := "/srv"
  uid := some uid
  gid := some uid
  groups := []
  terminal := false

/-- The program of the working directory is turned away by init, and executed by `exec`. -/
theorem relative_program_refused :
    containerInit guarded byNumber Exec.demoRuntime (started 0 "./app" "/bin") true =
        .error (.executableNotFound "./app") ∧
      executed guarded (enter guarded Exec.demoRuntime (entered 0 "./app" "/bin")) =
        some [⟨"srv", by decide⟩, ⟨"app", by decide⟩] ∧
      ¬SameProgram guarded byNumber Exec.demoRuntime Exec.demoRuntime (started 0 "./app" "/bin")
        (entered 0 "./app" "/bin") := by
  have hinit : containerInit guarded byNumber Exec.demoRuntime (started 0 "./app" "/bin") true =
      .error (.executableNotFound "./app") := by decide +kernel
  have henter : executed guarded (enter guarded Exec.demoRuntime (entered 0 "./app" "/bin")) =
      some [⟨"srv", by decide⟩, ⟨"app", by decide⟩] := by decide +kernel
  refine ⟨hinit, henter, fun hsame => ?_⟩
  have hpicked := hsame.same
  rw [hinit, henter] at hpicked
  cases hpicked

/-- Where all may search the directories along `PATH` a bare name is the same program, also
for a user who may not search all. -/
theorem same_program_bare :
    SameProgram guarded byNumber Exec.demoRuntime Exec.demoRuntime
      (started 1000 "sh" "/usr/bin:/bin") (entered 1000 "sh" "/usr/bin:/bin") := by
  have hbare : '/' ∉ "sh".toList := by decide +kernel
  have hagree :
      let stood :=
        initStanding guarded byNumber Exec.demoRuntime (started 1000 "sh" "/usr/bin:/bin")
      let entered := execStanding guarded Exec.demoRuntime (entered 1000 "sh" "/usr/bin:/bin")
      ∀ candidate ∈ candidates "sh" (started 1000 "sh" "/usr/bin:/bin").env,
        takes guarded ⟨Exec.demoRuntime, []⟩ stood candidate = sees guarded stood candidate ∧
          sees guarded stood candidate = sees guarded entered candidate := by
    decide +kernel
  exact (@same_program_iff guarded byNumber Exec.demoRuntime Exec.demoRuntime
    (started 1000 "sh" "/usr/bin:/bin") (entered 1000 "sh" "/usr/bin:/bin") "sh" "/srv" []
    rfl rfl (by decide) rfl rfl rfl).mpr (stable_of_agree hbare hagree)

/-- What root finds in its closed directory, the user cannot execute. -/
example :
    executed guarded (containerInit guarded byNumber Exec.demoRuntime
        (started 1000 "sh" "/root:/bin") true) = none ∧
      executed guarded (enter guarded Exec.demoRuntime (entered 1000 "sh" "/root:/bin")) =
        some [⟨"bin", by decide⟩, ⟨"sh", by decide⟩] := by
  decide +kernel

end Mars.Program
