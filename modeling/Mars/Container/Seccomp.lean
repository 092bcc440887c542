import Mars.Error
import Mathlib.Algebra.Group.Nat.Defs

/-! # The seccomp filter

The spec's document is translated rule by rule into calls of the filter
library. The library is a parameter; only what a comparator tests is fixed.
-/

namespace Mars.Seccomp

/-! ## The spec's document -/

inductive LinuxSeccompAction where
  | kill
  | killThread
  | killProcess
  | trap
  | errno
  | notify
  | trace
  | allow
  | log
  deriving DecidableEq

inductive LinuxSeccompOperator where
  | ne
  | lt
  | le
  | eq
  | ge
  | gt
  | maskedEq
  deriving DecidableEq

structure LinuxSeccompArg where
  index : Nat
  value : BitVec 64
  valueTwo : Option (BitVec 64)
  op : LinuxSeccompOperator
  deriving DecidableEq

structure LinuxSyscall where
  names : List String
  action : LinuxSeccompAction
  errnoRet : Option (BitVec 32)
  args : Option (List LinuxSeccompArg)
  deriving DecidableEq

/-- `other` stands for the architectures of the spec that the library lacks. -/
inductive Arch where
  | native
  | x86
  | x86_64
  | x32
  | arm
  | aarch64
  | mips
  | mips64
  | mips64n32
  | mipsel
  | mipsel64
  | mipsel64n32
  | ppc
  | ppc64
  | ppc64le
  | s390
  | s390x
  | parisc
  | parisc64
  | riscv64
  | other (debug : String)
  deriving DecidableEq

def Arch.debug : Arch → String
  | .native => "ScmpArchNative"
  | .x86 => "ScmpArchX86"
  | .x86_64 => "ScmpArchX86_64"
  | .x32 => "ScmpArchX32"
  | .arm => "ScmpArchArm"
  | .aarch64 => "ScmpArchAarch64"
  | .mips => "ScmpArchMips"
  | .mips64 => "ScmpArchMips64"
  | .mips64n32 => "ScmpArchMips64n32"
  | .mipsel => "ScmpArchMipsel"
  | .mipsel64 => "ScmpArchMipsel64"
  | .mipsel64n32 => "ScmpArchMipsel64n32"
  | .ppc => "ScmpArchPpc"
  | .ppc64 => "ScmpArchPpc64"
  | .ppc64le => "ScmpArchPpc64le"
  | .s390 => "ScmpArchS390"
  | .s390x => "ScmpArchS390x"
  | .parisc => "ScmpArchParisc"
  | .parisc64 => "ScmpArchParisc64"
  | .riscv64 => "ScmpArchRiscv64"
  | .other debug => debug

inductive LinuxSeccompFilterFlag where
  | log
  | tsync
  | specAllow
  | waitKillableRecv
  deriving DecidableEq

def LinuxSeccompFilterFlag.debug : LinuxSeccompFilterFlag → String
  | .log => "SeccompFilterFlagLog"
  | .tsync => "SeccompFilterFlagTsync"
  | .specAllow => "SeccompFilterFlagSpecAllow"
  | .waitKillableRecv => "SeccompFilterFlagWaitKillableRecv"

structure LinuxSeccomp where
  defaultAction : LinuxSeccompAction
  defaultErrnoRet : Option (BitVec 32)
  architectures : Option (List Arch)
  flags : Option (List LinuxSeccompFilterFlag)
  syscalls : Option (List LinuxSyscall)

/-! ## The library -/

inductive ScmpAction where
  | killThread
  | killProcess
  | trap
  | errno (value : Int)
  | trace (value : BitVec 16)
  | allow
  | log
  deriving DecidableEq

inductive ScmpArch where
  | native
  | x86
  | x8664
  | x32
  | arm
  | aarch64
  | mips
  | mips64
  | mips64N32
  | mipsel
  | mipsel64
  | mipsel64N32
  | ppc
  | ppc64
  | ppc64Le
  | s390
  | s390X
  | parisc
  | parisc64
  | riscv64
  deriving DecidableEq

inductive ScmpFilterAttr where
  | ctlNnp
  | ctlLog
  | ctlTsync
  | ctlSsb
  | ctlWaitkill
  deriving DecidableEq

inductive ScmpCompareOp where
  | notEqual
  | less
  | lessOrEqual
  | equal
  | greaterEqual
  | greater
  | maskedEqual (mask : BitVec 64)
  deriving DecidableEq

structure ScmpArgCompare where
  arg : Nat
  op : ScmpCompareOp
  datum : BitVec 64
  deriving DecidableEq

structure LibError where
  eacces : Bool
  text : String

/-- The calls `build` makes. A call that fails leaves the filter as it was. -/
structure Libseccomp (Filter : Type) where
  new : ScmpAction → Except LibError Filter
  addArch : Filter → ScmpArch → Except LibError Filter
  setFilterAttr : Filter → ScmpFilterAttr → Nat → Except LibError Filter
  fromName : String → Option Nat
  addRule : Filter → ScmpAction → Nat → Except LibError Filter
  addRuleConditional : Filter → ScmpAction → Nat → List ScmpArgCompare → Except LibError Filter

/-! ## The translation -/

def EPERM : BitVec 32 := 1

def action (requested : LinuxSeccompAction) (errno : Option (BitVec 32)) :
    Except Error ScmpAction :=
  match requested with
  | .kill => .ok .killThread
  | .killThread => .ok .killThread
  | .killProcess => .ok .killProcess
  | .trap => .ok .trap
  | .errno => .ok (.errno (errno.getD EPERM).toInt)
  | .trace => .ok (.trace ((errno.getD 0).setWidth 16))
  | .allow => .ok .allow
  | .log => .ok .log
  | .notify => .error (.outOfScope
      "SCMP_ACT_NOTIFY, which needs a listener process to receive the notification fd")

def architecture (arch : Arch) : Except Error ScmpArch :=
  match arch with
  | .native => .ok .native
  | .x86 => .ok .x86
  | .x86_64 => .ok .x8664
  | .x32 => .ok .x32
  | .arm => .ok .arm
  | .aarch64 => .ok .aarch64
  | .mips => .ok .mips
  | .mips64 => .ok .mips64
  | .mips64n32 => .ok .mips64N32
  | .mipsel => .ok .mipsel
  | .mipsel64 => .ok .mipsel64
  | .mipsel64n32 => .ok .mipsel64N32
  | .ppc => .ok .ppc
  | .ppc64 => .ok .ppc64
  | .ppc64le => .ok .ppc64Le
  | .s390 => .ok .s390
  | .s390x => .ok .s390X
  | .parisc => .ok .parisc
  | .parisc64 => .ok .parisc64
  | .riscv64 => .ok .riscv64
  | .other debug => .error (.invalid
      ("seccomp architecture " ++ debug ++ " has no libseccomp equivalent"))

def compareOp (arg : LinuxSeccompArg) : ScmpCompareOp :=
  match arg.op with
  | .ne => .notEqual
  | .lt => .less
  | .le => .lessOrEqual
  | .eq => .equal
  | .ge => .greaterEqual
  | .gt => .greater
  | .maskedEq => .maskedEqual (arg.valueTwo.getD 0)

def comparator (arg : LinuxSeccompArg) : Except Error ScmpArgCompare :=
  if arg.index ≥ 2 ^ 32 then
    .error (.invalid ("seccomp arg index " ++ toString arg.index ++ " is out of range"))
  else if arg.index > 5 then
    .error (.invalid ("seccomp arg index " ++ toString arg.index ++
      " is out of range; a syscall has at most six arguments"))
  else .ok { arg := arg.index, op := compareOp arg, datum := arg.value }

def flagAttribute : LinuxSeccompFilterFlag → ScmpFilterAttr
  | .log => .ctlLog
  | .tsync => .ctlTsync
  | .specAllow => .ctlSsb
  | .waitKillableRecv => .ctlWaitkill

/-- A library error as an error of the runtime, with what was being done. -/
def invalid {α : Type} (doing : String) (result : Except LibError α) : Except Error α :=
  result.mapError fun error => .invalid (doing ++ ": " ++ error.text)

/-- A rule handed to the library for one of its names. -/
structure Attempt where
  rule : LinuxSyscall
  name : String
  syscall : Nat
  verdict : ScmpAction
  comparators : List ScmpArgCompare

/-- What has been built so far: the filter, how many rules it took, and every
rule that was handed over, taken or not. -/
structure Build (Filter : Type) where
  filter : Filter
  rules : Nat
  attempts : List Attempt

variable {Filter : Type} (lib : Libseccomp Filter)

def addRule (default : ScmpAction) (build : Build Filter) (attempt : Attempt) :
    Except Error (Build Filter) :=
  let added :=
    if attempt.comparators = [] then
      lib.addRule build.filter attempt.verdict attempt.syscall
    else
      lib.addRuleConditional build.filter attempt.verdict attempt.syscall attempt.comparators
  let attempts := build.attempts ++ [attempt]
  match added with
  | .ok filter => .ok { filter := filter, rules := build.rules + 1, attempts := attempts }
  | .error error =>
      -- the library refuses a rule that restates the default action
      if attempt.verdict = default ∧ error.eacces = true then
        .ok { build with attempts := attempts }
      else .error (.invalid ("add a seccomp rule for " ++ attempt.name ++ ": " ++ error.text))

def addName (default : ScmpAction) (rule : LinuxSyscall) (verdict : ScmpAction)
    (build : Build Filter) (name : String) : Except Error (Build Filter) :=
  match lib.fromName name with
  | none => .ok build
  | some syscall => do
      let comparators ← (rule.args.getD []).mapM comparator
      addRule lib default build
        { rule := rule
          name := name
          syscall := syscall
          verdict := verdict
          comparators := comparators }

def addSyscall (default : ScmpAction) (build : Build Filter) (rule : LinuxSyscall) :
    Except Error (Build Filter) := do
  let verdict ← action rule.action rule.errnoRet
  rule.names.foldlM (addName lib default rule verdict) build

def build (spec : LinuxSeccomp) : Except Error (Build Filter) := do
  let default ← action spec.defaultAction spec.defaultErrnoRet
  let filter ← invalid "create a seccomp filter" (lib.new default)
  let filter ← (spec.architectures.getD []).foldlM
    (fun filter arch => do
      let mapped ← architecture arch
      invalid ("add seccomp architecture " ++ arch.debug) (lib.addArch filter mapped))
    filter
  let filter ← invalid ("clear the seccomp filter's no-new-privs bit")
    ((lib.setFilterAttr filter .ctlNnp 0).mapError fun error =>
      { error with text := error.text ++ "; libseccomp sets it on load by default, which would " ++
          "silently contradict process.noNewPrivileges" })
  let filter ← (spec.flags.getD []).foldlM
    (fun filter flag =>
      invalid ("set seccomp flag " ++ flag.debug) (lib.setFilterAttr filter (flagAttribute flag) 1))
    filter
  (spec.syscalls.getD []).foldlM (addSyscall lib default)
    { filter := filter, rules := 0, attempts := [] }

/-! ## What a condition tests -/

/-- The six arguments of a system call. -/
abbrev Arguments := Fin 6 → BitVec 64

def argument (argv : Arguments) (index : Nat) : BitVec 64 :=
  if h : index < 6 then argv ⟨index, h⟩ else 0

/-- What a comparator tests, its datum taken as it is. -/
def ScmpArgCompare.holds (argv : Arguments) (c : ScmpArgCompare) : Bool :=
  let value := argument argv c.arg
  match c.op with
  | .notEqual => value != c.datum
  | .less => value < c.datum
  | .lessOrEqual => value ≤ c.datum
  | .equal => value == c.datum
  | .greaterEqual => value ≥ c.datum
  | .greater => value > c.datum
  | .maskedEqual mask => value &&& mask == c.datum

/-- What the spec means. -/
def LinuxSeccompArg.holds (argv : Arguments) (arg : LinuxSeccompArg) : Bool :=
  let value := argument argv arg.index
  match arg.op with
  | .ne => value != arg.value
  | .lt => value < arg.value
  | .le => value ≤ arg.value
  | .eq => value == arg.value
  | .ge => value ≥ arg.value
  | .gt => value > arg.value
  | .maskedEq => value &&& arg.value == arg.valueTwo.getD 0

end Mars.Seccomp
