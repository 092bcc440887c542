import Mars.Bundle
import Mars.Container.Process
import Mars.Core.Text

/-! # The process `exec` starts

What the options and the process document ask for, and the calls that make
the forked child take on the user asked for.
-/

namespace Mars.Exec
open Spec Credentials

structure ExecOptions where
  argv : List String
  env : List String
  cwd : Option String
  process : Option String
  user : Option String
  additionalGids : List Nat
  consoleSocket : Option String
  tty : Bool
  detach : Bool
  pidFile : Option String
  ignorePaused : Bool

structure Target where
  argv : List String
  env : List String
  cwd : String
  uid : Option Nat
  gid : Option Nat
  groups : List Nat
  terminal : Bool
  deriving DecidableEq

/-! ## Reading the options -/

def userError (text : String) : Error :=
  .invalid ("--user " ++ Text.debugText text ++ " must be UID[:GID] as numbers")

/-- The text up to the first colon and, if there is one, the text behind it. -/
def splitOnce (text : List Char) : List Char × Option (List Char) :=
  match text with
  | [] => ([], none)
  | c :: rest =>
      if c = ':' then ([], some rest)
      else (c :: (splitOnce rest).1, (splitOnce rest).2)

def parseUser (text : String) : Except Error (Option Nat × Option Nat) :=
  let (uid, gid) := splitOnce text.toList
  match Text.parseU32 uid with
  | none => .error (userError text)
  | some uid =>
      match gid with
      | none => .ok (some uid, none)
      | some gid =>
          match Text.parseU32 gid with
          | none => .error (userError text)
          | some gid => .ok (some uid, some gid)

def resolveArgv (process : Option Process) (options : ExecOptions) :
    Except Error (List String) :=
  match process with
  | some process =>
      let args := process.args.getD []
      if args = [] then .error (.specField "process.args") else .ok args
  | none => if options.argv = [] then .error (.specField "process.args") else .ok options.argv

def resolveEnv (loaded : Option Bundle) (process : Option Process) (options : ExecOptions) :
    Except Error (List String) :=
  let base := match process with
    | some process => process.env.getD []
    | none => (loaded.map Bundle.env).getD []
  match options.env.find? fun entry => !entry.toList.contains '=' with
  | some entry => .error (.invalid ("--env " ++ Text.debugText entry ++ " is not in KEY=VALUE form"))
  | none => .ok (base ++ options.env)

def resolveCwd (loaded : Option Bundle) (process : Option Process) (options : ExecOptions) :
    String :=
  let asked := options.cwd.or ((process.map (·.cwd)).or (loaded.bind Bundle.cwd))
  (asked.filter (· ≠ "")).getD "/"

def resolveUser (process : Option Process) (options : ExecOptions) :
    Except Error (Option Nat × Option Nat) :=
  match options.user, process with
  | some text, _ => parseUser text
  | none, some process => .ok (some process.user.uid, some process.user.gid)
  | none, none => .ok (none, none)

def resolveGroups (process : Option Process) (options : ExecOptions) : List Nat :=
  if options.additionalGids = [] then
    match process with
    | some process => process.user.additionalGids.getD []
    | none => []
  else options.additionalGids

/-- `read` reads and decodes the file given as `--process`. -/
def readProcess (read : String → Except Error Process) (options : ExecOptions) :
    Except Error (Option Process) :=
  match options.process with
  | some path => (read path).map some
  | none => .ok none

/-- `loaded` is the container's bundle, where it still loads. -/
def resolveTarget (loaded : Option Bundle) (read : String → Except Error Process)
    (options : ExecOptions) : Except Error Target := do
  let process ← readProcess read options
  let argv ← resolveArgv process options
  let env ← resolveEnv loaded process options
  let user ← resolveUser process options
  pure {
    argv, env
    cwd := resolveCwd loaded process options
    uid := user.1
    gid := user.2
    groups := resolveGroups process options
    terminal := match process with
      | some process => process.terminal.getD false
      | none => options.tty }

/-! ## Taking on the user -/

/-- The calls of `enter` that change credentials. The groups are set only
along with a group id, and only where some are asked for. -/
def enter (target : Target) (c : Creds Capability) : Except Error (Creds Capability) := do
  let c ← match target.gid with
    | none => pure c
    | some gid => do
        let asked := if target.groups = [] then some c else setgroups target.groups c
        let c ← called asked (.nix "set the supplementary groups for the exec process")
        called (setgid gid c) (.nix ("setgid(" ++ toString gid ++ ")"))
  match target.uid with
  | none => pure c
  | some uid => called (setuid uid c) (.nix ("setuid(" ++ toString uid ++ ")"))

/-! ## What they leave -/

/-- A user that parses names a uid. -/
theorem parseUser_uid {text : String} {uid gid : Option Nat}
    (h : parseUser text = .ok (uid, gid)) : ∃ given, uid = some given := by
  unfold parseUser at h
  split at h
  split at h
  next => cases h
  next given _ =>
    split at h
    next => exact ⟨given, by simp_all⟩
    next =>
      split at h
      next => cases h
      next => exact ⟨given, by simp_all⟩

theorem resolveTarget_user {loaded : Option Bundle} {read : String → Except Error Process}
    {options : ExecOptions} {document : Option Process} {target : Target}
    (hread : readProcess read options = .ok document)
    (h : resolveTarget loaded read options = .ok target) :
    resolveUser document options = .ok (target.uid, target.gid) ∧
      target.groups = resolveGroups document options := by
  simp only [resolveTarget, hread, bind_eq_ok, pure_eq_ok] at h
  obtain ⟨document', hdocument, argv, -, env, -, user, huser, htarget⟩ := h
  obtain rfl : document = document' := Except.ok.inj hdocument
  subst htarget
  exact ⟨huser, rfl⟩

theorem enter_user {target : Target} {uid gid : Nat} {c r : Creds Capability}
    (huid : target.uid = some uid) (hgid : target.gid = some gid)
    (h : enter target c = .ok r) :
    r = afterSetuid uid { c with
      gid := gid
      groups := if target.groups = [] then c.groups else target.groups } := by
  simp only [enter, huid, hgid, bind_eq_ok, called_eq_ok] at h
  obtain ⟨c₁, hgroups, c₂, hset, hsetuid⟩ := h
  obtain rfl := setgid_eq_some hset
  rw [setuid_eq_some hsetuid]
  by_cases hnone : target.groups = []
  · rw [if_pos hnone] at hgroups
    rw [if_pos hnone, ← Option.some.inj hgroups]
  · rw [if_neg hnone] at hgroups
    rw [if_neg hnone, setgroups_eq_some hgroups]

theorem enter_uid_only {target : Target} {uid : Nat} {c r : Creds Capability}
    (huid : target.uid = some uid) (hgid : target.gid = none) (h : enter target c = .ok r) :
    r = afterSetuid uid c := by
  simp only [enter, huid, hgid, bind_eq_ok, called_eq_ok, pure_eq_ok] at h
  obtain ⟨c₁, rfl, hsetuid⟩ := h
  exact setuid_eq_some hsetuid

end Mars.Exec
