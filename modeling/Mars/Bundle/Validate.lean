import Mars.Cgroup.Resources
import Mars.Core.Text
import Mars.Core.UnixPath
import Mars.Namespace

/-! # What a config must satisfy to be accepted

A document is the config with the sections only the checks and the settings of
the kernel look at. The sections of other platforms are present or not.
-/

namespace Mars.Validate
open Spec UnixPath V2 Namespace
open Text (debugText)

def SUPPORTED_MAJOR : Nat := 1

def PROPAGATIONS : List String := ["shared", "slave", "private", "unbindable"]

inductive PosixRlimitType where
  | cpu
  | fsize
  | data
  | stack
  | core
  | rss
  | nproc
  | nofile
  | memlock
  | as
  | locks
  | sigpending
  | msgqueue
  | nice
  | rtprio
  | rttime
  deriving DecidableEq

def PosixRlimitType.debug : PosixRlimitType → String
  | .cpu => "RlimitCpu"
  | .fsize => "RlimitFsize"
  | .data => "RlimitData"
  | .stack => "RlimitStack"
  | .core => "RlimitCore"
  | .rss => "RlimitRss"
  | .nproc => "RlimitNproc"
  | .nofile => "RlimitNofile"
  | .memlock => "RlimitMemlock"
  | .as => "RlimitAs"
  | .locks => "RlimitLocks"
  | .sigpending => "RlimitSigpending"
  | .msgqueue => "RlimitMsgqueue"
  | .nice => "RlimitNice"
  | .rtprio => "RlimitRtprio"
  | .rttime => "RlimitRttime"

structure PosixRlimit where
  typ : PosixRlimitType
  soft : Nat
  hard : Nat
  deriving DecidableEq

structure Linux where
  namespaces : Option (List LinuxNamespace)
  sysctl : Option (List (String × String))
  rootfsPropagation : Option String
  maskedPaths : Option (List String)
  readonlyPaths : Option (List String)
  deriving DecidableEq

/-- The whole config. The limits are those of the process. -/
structure Document where
  version : String
  spec : Spec
  rlimits : Option (List PosixRlimit)
  linux : Option Linux
  solaris : Bool
  windows : Bool
  vm : Bool
  zos : Bool
  deriving DecidableEq

def Document.namespaces (d : Document) : List LinuxNamespace :=
  (d.linux.bind (·.namespaces)).getD []

def Document.sysctl (d : Document) : List (String × String) := (d.linux.bind (·.sysctl)).getD []

/-! ## The checks -/

def ensure (ok : Bool) (error : Error) : Except Error Unit := if ok then .ok () else .error error

def platform (d : Document) : Except Error Unit := do
  ensure (!d.solaris) (.outOfScope "the solaris section of config.json")
  ensure (!d.windows) (.outOfScope "the windows section of config.json")
  ensure (!d.vm) (.outOfScope "the vm section of config.json")
  ensure (!d.zos) (.outOfScope "the zos section of config.json")

def version (version : String) : Except Error Unit :=
  let numeric := (version.toList.splitOnP fun c => c == '-' || c == '+').headD []
  let parts := numeric.splitOn '.'
  if parts.length ≠ 3 ∨ parts.any (fun part => (Text.parseU64 part).isNone) then
    .error (.invalid ("ociVersion " ++ debugText version ++
      " is not a major.minor.patch version"))
  else
    let major := (Text.parseU64 (parts.headD [])).getD 0
    if major ≠ SUPPORTED_MAJOR then
      .error (.invalid ("ociVersion " ++ debugText version ++
        " declares runtime-spec major version " ++ toString major ++ "; mars implements " ++
        toString SUPPORTED_MAJOR ++ ".x"))
    else .ok ()

/-- The limits so far, in the order of the list. -/
def limit (limits : List PosixRlimitType) (rlimit : PosixRlimit) :
    Except Error (List PosixRlimitType) := do
  ensure (rlimit.typ ∉ limits)
    (.invalid ("process.rlimits lists " ++ rlimit.typ.debug ++ " more than once"))
  ensure (rlimit.soft ≤ rlimit.hard)
    (.invalid ("process.rlimits " ++ rlimit.typ.debug ++ " has a soft limit (" ++
      toString rlimit.soft ++ ") above its hard limit (" ++ toString rlimit.hard ++ ")"))
  return limits ++ [rlimit.typ]

def process (d : Document) : Except Error Unit :=
  match d.spec.process with
  | none => .ok ()
  | some process => do
      let args := process.args.getD []
      ensure (args ≠ []) (.specField "process.args")
      ensure (args.headD "" ≠ "")
        (.invalid "process.args[0] is empty; there is no program to execute")
      ensure (isAbsolute process.cwd)
        (.invalid ("process.cwd " ++ debugText process.cwd ++ " is not an absolute path"))
      (process.env.getD []).forM fun entry =>
        ensure ('=' ∈ entry.toList)
          (.invalid ("process.env entry " ++ debugText entry ++ " is not in KEY=VALUE form"))
      let _ ← (d.rlimits.getD []).foldlM limit []
      return ()

def mounts (d : Document) : Except Error Unit :=
  (d.spec.mounts.getD []).forM fun mount =>
    ensure (isAbsolute mount.destination)
      (.invalid ("mount destination " ++ debugText mount.destination ++
        " is not an absolute path"))

def absolutePaths (field : String) (paths : Option (List String)) : Except Error Unit :=
  (paths.getD []).forM fun path =>
    ensure (isAbsolute path)
      (.invalid (field ++ " entry " ++ debugText path ++ " is not an absolute path"))

def spec (d : Document) : Except Error Unit := do
  platform d
  version d.version
  let root ← called d.spec.root (.specField "root")
  ensure (root.path ≠ "") (.invalid "root.path is empty")
  let linux ← called d.linux (.specField "linux")
  let namespaces ← namespaceTypes d.namespaces
  process d
  mounts d
  ensure (!d.spec.hostname.isSome || .uts ∈ namespaces)
    (.invalid ("hostname is set but the container has no UTS namespace, so setting it would " ++
      "rename the host"))
  ensure (!d.spec.domainname.isSome || .uts ∈ namespaces)
    (.invalid "domainname is set but the container has no UTS namespace")
  ensure (linux.rootfsPropagation.all (· ∈ PROPAGATIONS))
    (.invalid ("linux.rootfsPropagation is " ++ debugText (linux.rootfsPropagation.getD "") ++
      ", expected one of " ++ ", ".intercalate PROPAGATIONS))
  absolutePaths "linux.maskedPaths" linux.maskedPaths
  absolutePaths "linux.readonlyPaths" linux.readonlyPaths

/-! ## What an accepted document satisfies -/

@[simp] theorem ensure_eq_ok {ok : Bool} {error : Error} : ensure ok error = .ok () ↔ ok = true := by
  cases ok <;> simp [ensure]

theorem limits_eq_ok {rlimits : List PosixRlimit} {seen limits : List PosixRlimitType} :
    rlimits.foldlM limit seen = .ok limits ↔
      (∀ rlimit ∈ rlimits, rlimit.typ ∉ seen ∧ rlimit.soft ≤ rlimit.hard) ∧
        (rlimits.map PosixRlimit.typ).Nodup ∧ limits = seen ++ rlimits.map PosixRlimit.typ := by
  induction rlimits generalizing seen with
  | nil => simp [pure, Except.pure, eq_comm]
  | cons rlimit rest ih =>
      simp only [foldlM_cons_eq_ok, limit, check_bind_eq_ok, ensure_eq_ok, pure_eq_ok, ih,
        decide_eq_true_eq, List.map_cons, List.nodup_cons, List.forall_mem_cons, List.mem_map]
      constructor
      · rintro ⟨_, ⟨hnew, hbound, rfl⟩, hrest, hnodup, rfl⟩
        refine ⟨⟨⟨hnew, hbound⟩, fun later hlater => ?_⟩, ⟨?_, hnodup⟩, by simp⟩
        · have hlater := hrest later hlater
          rw [List.mem_append, not_or] at hlater
          exact ⟨hlater.1.1, hlater.2⟩
        · rintro ⟨later, hlater, htyp⟩
          exact (hrest later hlater).1 (by simp [htyp])
      · rintro ⟨⟨⟨hnew, hbound⟩, hrest⟩, ⟨hfirst, hnodup⟩, rfl⟩
        refine ⟨_, ⟨hnew, hbound, rfl⟩, fun later hlater => ?_, hnodup, by simp⟩
        refine ⟨?_, (hrest later hlater).2⟩
        rw [List.mem_append, not_or, List.mem_singleton]
        exact ⟨(hrest later hlater).1, fun htyp => hfirst ⟨later, hlater, htyp⟩⟩

/-- The process can be executed from the document alone. -/
structure WellFormed (rlimits : List PosixRlimit) (process : Process) : Prop where
  program : ∃ program args, process.args.getD [] = program :: args ∧ program ≠ ""
  cwd : isAbsolute process.cwd
  env : ∀ entry ∈ process.env.getD [], '=' ∈ entry.toList
  distinct : (rlimits.map PosixRlimit.typ).Nodup
  bounded : ∀ rlimit ∈ rlimits, rlimit.soft ≤ rlimit.hard

theorem process_eq_ok {d : Document} :
    process d = .ok () ↔ ∀ process ∈ d.spec.process, WellFormed (d.rlimits.getD []) process := by
  unfold process
  cases d.spec.process with
  | none => simp
  | some process =>
      simp only [bind_eq_ok, exists_unit, ensure_eq_ok, forM_eq_ok, limits_eq_ok,
        decide_eq_true_eq, Option.mem_def, Option.some.injEq, forall_eq']
      constructor
      · rintro ⟨hargs, hprogram, hcwd, henv, _, ⟨hbound, hdistinct, -⟩, -⟩
        obtain ⟨program, args, hsplit⟩ := List.exists_cons_of_ne_nil hargs
        rw [hsplit] at hprogram
        exact ⟨⟨program, args, hsplit, hprogram⟩, hcwd, henv, hdistinct,
          fun rlimit hmem => (hbound rlimit hmem).2⟩
      · rintro ⟨⟨program, args, hsplit, hprogram⟩, hcwd, henv, hdistinct, hbound⟩
        rw [hsplit]
        exact ⟨by simp, hprogram, hcwd, henv, _,
          ⟨fun rlimit hmem => ⟨by simp, hbound rlimit hmem⟩, hdistinct, rfl⟩, rfl⟩

/-- What `spec` has checked, section by section. -/
structure Accepted (d : Document) : Prop where
  native : d.solaris = false ∧ d.windows = false ∧ d.vm = false ∧ d.zos = false
  version : version d.version = .ok ()
  root : ∃ root ∈ d.spec.root, root.path ≠ ""
  namespaces : ∃ namespaces, namespaceTypes d.namespaces = .ok namespaces
  process : ∀ process ∈ d.spec.process, WellFormed (d.rlimits.getD []) process
  mounts : ∀ mount ∈ d.spec.mounts.getD [], isAbsolute mount.destination
  hostname : d.spec.hostname.isSome → .uts ∈ d.namespaces.map (·.typ)
  domainname : d.spec.domainname.isSome → .uts ∈ d.namespaces.map (·.typ)
  linux : ∃ linux ∈ d.linux, (∀ propagation ∈ linux.rootfsPropagation, propagation ∈ PROPAGATIONS) ∧
    (∀ path ∈ linux.maskedPaths.getD [], isAbsolute path) ∧
    ∀ path ∈ linux.readonlyPaths.getD [], isAbsolute path

theorem mem_namespaceTypes {namespaces : List LinuxNamespace} {types : List LinuxNamespaceType}
    (h : namespaceTypes namespaces = .ok types) {typ : LinuxNamespaceType} :
    typ ∈ types ↔ typ ∈ namespaces.map (·.typ) := by
  have hfold : ∀ (list : List LinuxNamespace) (seen : List LinuxNamespaceType),
      list.foldlM insertType seen = .ok types →
        (typ ∈ types ↔ typ ∈ seen ∨ typ ∈ list.map (·.typ)) := by
    intro list
    induction list with
    | nil =>
        intro seen hseen
        simp [Except.ok.inj hseen]
    | cons ns rest ih =>
        intro seen hseen
        obtain ⟨next, hnext, hrest⟩ := foldlM_cons_eq_ok.mp hseen
        unfold insertType at hnext
        split at hnext
        next => cases hnext
        next =>
          obtain rfl := Except.ok.inj hnext
          rw [ih _ hrest, List.mem_cons, List.map_cons, List.mem_cons]
          tauto
  simpa using hfold namespaces [] h

/-- The checks accept exactly the documents that satisfy them all. -/
theorem spec_eq_ok {d : Document} : spec d = .ok () ↔ Accepted d := by
  simp only [spec, platform, absolutePaths, mounts, bind_eq_ok, exists_unit, called_eq_ok,
    ensure_eq_ok, forM_eq_ok, process_eq_ok, Bool.or_eq_true, Bool.not_eq_true',
    decide_eq_true_eq, Option.all_eq_true_iff_get]
  constructor
  · rintro ⟨⟨hsolaris, hwindows, hvm, hzos⟩, hversion, root, hroot, hpath, linux, hlinux, types,
      htypes, hprocess, hmounts, hhostname, hdomainname, hpropagation, hmasked, hreadonly⟩
    rw [mem_namespaceTypes htypes] at hhostname hdomainname
    refine ⟨⟨hsolaris, hwindows, hvm, hzos⟩, hversion, ⟨root, hroot, hpath⟩, ⟨types, htypes⟩,
      hprocess, hmounts, ?_, ?_, ⟨linux, hlinux, ?_, hmasked, hreadonly⟩⟩
    · exact fun hset => hhostname.resolve_left (by simp [hset])
    · exact fun hset => hdomainname.resolve_left (by simp [hset])
    · intro propagation hset
      simpa [Option.mem_def.mp hset] using hpropagation
  · rintro ⟨⟨hsolaris, hwindows, hvm, hzos⟩, hversion, ⟨root, hroot, hpath⟩, ⟨types, htypes⟩,
      hprocess, hmounts, hhostname, hdomainname, ⟨linux, hlinux, hpropagation, hmasked, hreadonly⟩⟩
    refine ⟨⟨hsolaris, hwindows, hvm, hzos⟩, hversion, root, hroot, hpath, linux, hlinux, types,
      htypes, hprocess, hmounts, ?_, ?_, ?_, hmasked, hreadonly⟩
    · rw [mem_namespaceTypes htypes, ← Bool.not_eq_true]
      exact (Classical.em _).symm.imp_right hhostname
    · rw [mem_namespaceTypes htypes, ← Bool.not_eq_true]
      exact (Classical.em _).symm.imp_right hdomainname
    · intro hset
      exact hpropagation _ (Option.some_get hset).symm

end Mars.Validate
