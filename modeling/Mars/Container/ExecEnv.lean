import Mars.Container.Program
import Mars.Core.Environ

/-! # The environment `exec` hands on

The entries given as `--env` are appended to those of the bundle or of the
process document. Whoever looks a name up, the program or the runtime's own
search along `PATH`, takes the first entry that gives it.
-/

namespace Mars.ExecEnv
open Exec (ExecOptions Target readProcess resolveEnv resolveTarget)
open FileTree (Tree)
open Program UnixPath Spec Environ Credentials

/-! ## The call of `execve` -/

def cstring (value : String) : Except Error String :=
  if '\x00' ∈ value.toList then .error (.nulByte value) else .ok value

def toCstrings (values : List String) : Except Error (List String) := values.mapM cstring

structure Execve where
  standing : Standing
  program : String
  argv : List String
  env : List String
  deriving DecidableEq

/-- The end of `enter`. -/
def execve (files : Files) (c : Creds Capability) (target : Target) : Except Error Execve := do
  let (standing, program) ← enter files c target
  let program ← cstring program
  let argv ← toCstrings target.argv
  let env ← toCstrings target.env
  pure { standing, program, argv, env }

/-- What the entries given as `--env` are added to. -/
def baseEnv (loaded : Option Bundle) (process : Option Process) : List String :=
  match process with
  | some process => process.env.getD []
  | none => (loaded.map Bundle.env).getD []

def PATH : Key := ⟨"PATH".toList, by decide⟩

/-- The directories in the value of a `PATH`. -/
def directories (path : List Char) : List String :=
  ((path.splitOn ':').filter (· ≠ [])).map String.ofList

/-- The last entries given as `--env` count, for the program that is started and
for the search that finds it. -/
structure OverridesWin (files : Files) (base overrides : List String) (name : String)
    (call : Execve) : Prop where
  env : LastWins base overrides call.env
  searched : ∀ path, last PATH overrides = some path → '/' ∉ name.toList →
    ((directories path).map fun dir => join dir name).find? (isFile files call.standing) =
      some call.program

/-! ## What is handed on -/

section handed
variable {files : Files} {c : Creds Capability} {loaded : Option Bundle}
  {read : String → Except Error Process}
  {options : ExecOptions} {document : Option Process} {target : Target} {call : Execve}

theorem cstring_eq_ok {value r : String} (h : cstring value = .ok r) : r = value := by
  unfold cstring at h
  split at h
  next => cases h
  next => exact (Except.ok.inj h).symm

theorem toCstrings_eq_ok {values r : List String} (h : toCstrings values = .ok r) :
    r = values := by
  unfold toCstrings at h
  induction values generalizing r with
  | nil => exact (Except.ok.inj h).symm
  | cons value rest ih =>
      obtain ⟨head, tail, hhead, htail, rfl⟩ := mapM_cons_eq_ok.mp h
      rw [cstring_eq_ok hhead, ih htail]

theorem resolveTarget_env (hread : readProcess read options = .ok document)
    (h : resolveTarget loaded read options = .ok target) :
    target.env = baseEnv loaded document ++ options.env := by
  simp only [resolveTarget, hread, bind_eq_ok, pure_eq_ok] at h
  obtain ⟨document', hdocument, argv, -, env, henv, user, -, rfl⟩ := h
  obtain rfl : document = document' := Except.ok.inj hdocument
  simp only [resolveEnv] at henv
  split at henv
  next => cases henv
  next => cases document <;> exact (Except.ok.inj henv).symm

theorem execve_eq_ok (h : execve files c target = .ok call) :
    enter files c target = .ok (call.standing, call.program) ∧ call.env = target.env := by
  simp only [execve, bind_eq_ok, pure_eq_ok] at h
  obtain ⟨⟨standing, program⟩, henter, path, hpath, argv, -, env, henv, rfl⟩ := h
  rw [henter, cstring_eq_ok hpath]
  exact ⟨rfl, toCstrings_eq_ok henv⟩

theorem search_eq (env : List String) :
    search env = directories ((first PATH env).getD DEFAULT_PATH.toList) := rfl

/-- A bare name is searched in the first `PATH` that is handed on. -/
theorem enter_searched (h : enter files c target = .ok (call.standing, call.program))
    (hbare : '/' ∉ (target.argv.headD "").toList) {path : List Char}
    (hpath : first PATH target.env = some path) :
    ((directories path).map fun dir => join dir (target.argv.headD "")).find?
      (isFile files call.standing) = some call.program := by
  simp only [enter, bind_eq_ok, called_eq_ok, pure_eq_ok, Prod.mk.injEq] at h
  obtain ⟨top, -, x, -, cur, -, program, hprogram, hstanding, rfl⟩ := h
  rw [hstanding] at hprogram
  rw [resolve_bare hbare, candidates, search_eq, hpath, Option.getD_some] at hprogram
  split at hprogram
  next candidate hfind => rw [hfind, Except.ok.inj hprogram]
  next => cases hprogram

end handed

/-! ## Exactly when the overrides win -/

/-- The overrides win exactly where what is there before says the same of the
names they give, or nothing and they themselves say one thing. -/
theorem overridesWin_iff {files : Files} {c : Creds Capability} {loaded : Option Bundle}
    {read : String → Except Error Process} {options : ExecOptions} {document : Option Process}
    {target : Target} {call : Execve} (hread : readProcess read options = .ok document)
    (hresolve : resolveTarget loaded read options = .ok target)
    (hexec : execve files c target = .ok call) :
    OverridesWin files (baseEnv loaded document) options.env (target.argv.headD "") call ↔
      Undisputed (baseEnv loaded document) options.env := by
  obtain ⟨henter, henv⟩ := execve_eq_ok hexec
  have htarget : target.env = baseEnv loaded document ++ options.env :=
    resolveTarget_env hread hresolve
  rw [← lastWins_append_iff, ← htarget, ← henv]
  constructor
  · exact fun h => h.env
  · intro hwins
    refine ⟨hwins, fun path hlast hbare => ?_⟩
    have hpath : first PATH call.env = some path := hwins.given PATH path hlast
    exact enter_searched henter hbare (henv ▸ hpath)

/-! ## A shell in two places -/

def shells : Tree := fun place =>
  [(["bin"], .dir), (["bin", "sh"], .file), (["opt"], .dir), (["opt", "sh"], .file)].lookup
    (place.map (·.text))

def everyone : Files where
  tree := shells
  may := fun _ _ => true

def asked (entry : String) : ExecOptions where
  argv := ["sh"]
  env := [entry]
  cwd := some "/"
  process := none
  user := none
  additionalGids := []
  consoleSocket := none
  tty := false
  detach := false
  pidFile := none
  ignorePaused := false

def outside (_ : String) : Except Error Process := .error .json

def resolved (entry : String) : Target where
  argv := ["sh"]
  env := ["PATH=/bin", entry]
  cwd := "/"
  uid := none
  gid := none
  groups := []
  terminal := false

def inBin (entry : String) : Execve where
  standing := ⟨Exec.demoRuntime, []⟩
  program := "/bin/sh"
  argv := ["sh"]
  env := ["PATH=/bin", entry]

/-- The `PATH` of the bundle decides which shell a `--env` with another one gets. -/
theorem override_ignored :
    resolveTarget (some (started 0 "sh" "/bin")) outside (asked "PATH=/opt") =
        .ok (resolved "PATH=/opt") ∧
      execve everyone Exec.demoRuntime (resolved "PATH=/opt") = .ok (inBin "PATH=/opt") ∧
      isFile everyone ⟨Exec.demoRuntime, []⟩ "/opt/sh" = true ∧
      ¬OverridesWin everyone ["PATH=/bin"] ["PATH=/opt"] "sh" (inBin "PATH=/opt") := by
  refine ⟨by decide +kernel, by decide +kernel, by decide +kernel, fun hwins => ?_⟩
  have hgiven := hwins.env.given PATH "/opt".toList (by decide +kernel)
  revert hgiven
  decide +kernel

/-- A variable of its own is added. -/
theorem overridesWin_fresh :
    OverridesWin everyone ["PATH=/bin"] ["DEBUG=1"] "sh" (inBin "DEBUG=1") := by
  refine (@overridesWin_iff everyone Exec.demoRuntime (some (started 0 "sh" "/bin")) outside
    (asked "DEBUG=1") none (resolved "DEBUG=1") (inBin "DEBUG=1") rfl (by decide +kernel)
    (by decide +kernel)).mpr ?_
  apply undisputed_fresh
  intro key v hkey
  have hdebug : value ⟨"DEBUG".toList, by decide⟩ "DEBUG=1" = some ['1'] := by decide +kernel
  rw [value_key hkey hdebug]
  decide +kernel

end Mars.ExecEnv
