import Mars.Cgroup.Limits
import Mathlib.Data.List.Induction

/-! # Memory and swap over many calls

The spec's swap is a total; what `memory.swap.max` gets of it is worked out, in each call,
from the limit that the same call gives. The calls on one cgroup are followed from the first.
-/

namespace Mars.V2
open UnixPath Text

/-- The resources of one call, and what the kernel refuses during it. A key of `unified` would
set the files past the two limits: there are none. -/
structure Call where
  memory : Option LinuxMemory
  cpu : Option LinuxCpu
  pids : Option LinuxPids
  blockIo : Option LinuxBlockIo
  fails : Write → Bool

namespace Call

def resources (call : Call) : LinuxResources where
  memory := call.memory
  cpu := call.cpu
  pids := call.pids
  blockIo := call.blockIo
  unified := none

def limit (call : Call) : Option Int := call.memory.bind LinuxMemory.limit
def swap (call : Call) : Option Int := call.memory.bind LinuxMemory.swap

/-- The call returned `Ok`. -/
def Returns (cgroup : Cgroup) (call : Call) : Prop :=
  (cgroup.apply call.fails call.resources).2 = .ok ()

end Call

/-- The files after the calls. -/
def afterCalls (cgroup : Cgroup) (c : Contents) (calls : List Call) : Contents :=
  calls.foldl (fun c call => c.after (cgroup.apply call.fails call.resources).1) c

/-! ## What has been given -/

/-- The latest limit. -/
def latestLimit (calls : List Call) : Option Int :=
  calls.foldl (fun latest call => call.limit.or latest) none

/-- The latest total, with the limit that came in the same call. -/
def latestSwap (calls : List Call) : Option (Int × Option Int) :=
  calls.foldl (fun latest call => (call.swap.map fun swap => (swap, call.limit)).or latest) none

/-- Limit and swap add up to the total, read from the files. -/
def AddsUp (cgroup : Cgroup) (c : Contents) (total : Int) : Prop :=
  ∃ memory swap, memoryLimit (c (cgroup.file "memory.max")) = some memory ∧
    memoryLimit (c (cgroup.file "memory.swap.max")) = some swap ∧ memory + swap = total

/-- The total is honoured after every call. -/
def Honoured (cgroup : Cgroup) (c : Contents) (calls : List Call) : Prop :=
  ∀ front, front <+: calls → (∀ call ∈ front, call.Returns cgroup) →
    ∀ limit total given, latestLimit front = some limit →
      latestSwap front = some (total, given) → 0 < limit → 0 < total → limit ≤ total →
        AddsUp cgroup (afterCalls cgroup c front) total

/-- The latest total came with the limit that is the latest still, or with one that it does
not exceed while it equals the latest. -/
def Paired (cgroup : Cgroup) (calls : List Call) : Prop :=
  ∀ front, front <+: calls → (∀ call ∈ front, call.Returns cgroup) →
    ∀ limit total given, latestLimit front = some limit →
      latestSwap front = some (total, given) → 0 < limit → 0 < total → limit ≤ total →
        given = some limit ∨ limit = total ∧ ∃ more, given = some more ∧ total ≤ more

/-! ## What a call writes -/

section call

variable {cgroup : Cgroup} {call : Call} {name : String}

theorem last_none {todo : List (String × String)} (h : ∀ setting ∈ todo, setting.1 ≠ name) :
    last name todo = none := by
  induction todo with
  | nil => rfl
  | cons setting rest ih =>
      have hrest := ih fun s hs => h s (List.mem_cons_of_mem _ hs)
      simp [last, hrest, h setting List.mem_cons_self]

/-- The settings behind the memory section. -/
def Call.others (call : Call) : List (String × String) :=
  (call.cpu.map cpuSettings).getD [] ++
    (call.pids.map fun pids => [("pids.max", limitValue pids.limit)]).getD [] ++
    (call.blockIo.map blockIoSettings).getD []

theorem others_files {setting : String × String} (hmem : setting ∈ call.others) :
    setting.1 ∈ ["cpu.max", "cpu.weight", "cpuset.cpus", "cpuset.mems", "pids.max", "io.weight",
      "io.max"] := by
  simp only [Call.others, List.mem_append] at hmem
  rcases hmem with (hcpu | hpids) | hio
  · obtain ⟨cpu, -, hmem⟩ := mem_section hcpu
    simp only [cpuSettings, List.mem_append, Option.mem_toList, Option.map_eq_some_iff] at hmem
    rcases hmem with ((⟨_, -, rfl⟩ | ⟨_, -, rfl⟩) | ⟨_, -, rfl⟩) | ⟨_, -, rfl⟩ <;> simp
  · obtain ⟨pids, -, hmem⟩ := mem_section hpids
    obtain rfl := List.mem_singleton.mp hmem
    simp
  · obtain ⟨blockIo, -, hmem⟩ := mem_section hio
    simp only [blockIoSettings, List.mem_append, Option.mem_toList, Option.map_eq_some_iff,
      List.mem_map] at hmem
    rcases hmem with ⟨_, -, rfl⟩ | ⟨_, -, rfl⟩ <;> simp

theorem settings_call :
    settings call.resources = (call.memory.map memorySettings).getD [] ++ call.others := by
  simp [settings, Call.resources, Call.others]

theorem last_memory :
    last "memory.max" (settings call.resources) = call.limit.map limitValue := by
  have hothers : last "memory.max" call.others = none := by
    refine last_none fun setting hmem he => ?_
    have hfile := others_files hmem
    rw [he] at hfile
    exact absurd hfile (by decide)
  rw [settings_call, last_append, hothers, Option.none_or, Call.limit]
  cases call.memory with
  | none => rfl
  | some memory => simp [memorySettings, last_append, last_option]

theorem last_swap :
    last "memory.swap.max" (settings call.resources) =
      call.swap.map fun swap => swapValue swap call.limit := by
  have hothers : last "memory.swap.max" call.others = none := by
    refine last_none fun setting hmem he => ?_
    have hfile := others_files hmem
    rw [he] at hfile
    exact absurd hfile (by decide)
  rw [settings_call, last_append, hothers, Option.none_or, Call.swap, Call.limit]
  cases call.memory with
  | none => rfl
  | some memory => simp [memorySettings, last_append, last_option]

theorem settings_call_files {setting : String × String}
    (hmem : setting ∈ settings call.resources) : setting.1 ∈ FILES := by
  rw [settings_call] at hmem
  rcases List.mem_append.mp hmem with hmemory | hother
  · obtain ⟨memory, -, hmem⟩ := mem_section hmemory
    exact memorySettings_files hmem
  · have hfile := others_files hother
    revert hfile
    generalize setting.1 = file
    revert file
    decide

theorem after_call {c : Contents} (hreturns : call.Returns cgroup) (hname : name ∈ FILES) :
    c.after (cgroup.apply call.fails call.resources).1 (cgroup.file name) =
      (last name (settings call.resources)).getD (c (cgroup.file name)) := by
  rw [Cgroup.apply, writeAll_ok hreturns]
  exact after_writes (fun _ hs => isAbsolute_of_files (settings_call_files hs))
    (isAbsolute_of_files hname)

end call

/-! ## Over all calls -/

section calls

variable {cgroup : Cgroup} {c : Contents} {calls : List Call}

theorem latestLimit_concat (call : Call) :
    latestLimit (calls ++ [call]) = call.limit.or (latestLimit calls) := by
  simp [latestLimit]

theorem latestSwap_concat (call : Call) :
    latestSwap (calls ++ [call]) =
      (call.swap.map fun swap => (swap, call.limit)).or (latestSwap calls) := by
  simp [latestSwap]

theorem afterCalls_concat (call : Call) :
    afterCalls cgroup c (calls ++ [call]) =
      (afterCalls cgroup c calls).after (cgroup.apply call.fails call.resources).1 := by
  simp [afterCalls]

/-- The two files hold what the latest limit and the latest total were turned into. -/
theorem files_afterCalls (hreturns : ∀ call ∈ calls, call.Returns cgroup) :
    afterCalls cgroup c calls (cgroup.file "memory.max") =
        ((latestLimit calls).map limitValue).getD (c (cgroup.file "memory.max")) ∧
      afterCalls cgroup c calls (cgroup.file "memory.swap.max") =
        ((latestSwap calls).map fun given => swapValue given.1 given.2).getD
          (c (cgroup.file "memory.swap.max")) := by
  induction calls using List.reverseRecOn with
  | nil => exact ⟨rfl, rfl⟩
  | append_singleton calls call ih =>
      have hbefore := ih fun earlier hmem => hreturns earlier (List.mem_append_left _ hmem)
      have hcall : call.Returns cgroup := hreturns call (by simp)
      rw [afterCalls_concat, latestLimit_concat, latestSwap_concat, after_call hcall (by decide),
        after_call hcall (by decide), last_memory, last_swap, hbefore.1, hbefore.2]
      constructor
      · cases call.limit <;> simp
      · cases call.swap <;> simp

/-- What is left of a total for swap. -/
def swapPart (total : Int) : Option Int → Int
  | none => total
  | some limit => if 0 < limit then if limit < total then total - limit else 0 else total

theorem memoryLimit_swapValue {total : Int} (hpos : 0 < total) (given : Option Int) :
    memoryLimit (swapValue total given) = some (swapPart total given) := by
  have htotal : ¬total ≤ 0 := by omega
  unfold swapValue swapPart
  rw [if_neg htotal]
  cases given with
  | none => exact memoryLimit_intText hpos
  | some limit =>
      by_cases hlimit : 0 < limit
      · by_cases hmore : limit < total
        · simp only [gt_iff_lt, hlimit, hmore, if_true]
          exact memoryLimit_intText (by omega)
        · simp only [gt_iff_lt, hlimit, hmore, if_true, if_false]
          decide
      · simp only [gt_iff_lt, hlimit, if_false]
        exact memoryLimit_intText hpos

theorem limit_add_swapPart {limit total : Int} {given : Option Int} (hlimit : 0 < limit) :
    limit + swapPart total given = total ↔
      given = some limit ∧ limit ≤ total ∨
        limit = total ∧ ∃ more, given = some more ∧ total ≤ more := by
  cases given with
  | none =>
      simp only [swapPart, reduceCtorEq, false_and, exists_false, and_false, or_false, iff_false]
      omega
  | some more =>
      simp only [swapPart, Option.some.injEq, exists_eq_left']
      split
      next =>
        split
        next => omega
        next => omega
      next => omega

/-- When limit and swap add up to the total. -/
theorem addsUp_iff {limit total : Int} {given : Option Int}
    (hreturns : ∀ call ∈ calls, call.Returns cgroup)
    (hlimit : latestLimit calls = some limit) (hswap : latestSwap calls = some (total, given))
    (hlimitPos : 0 < limit) (htotalPos : 0 < total) (hle : limit ≤ total) :
    AddsUp cgroup (afterCalls cgroup c calls) total ↔
      given = some limit ∨ limit = total ∧ ∃ more, given = some more ∧ total ≤ more := by
  obtain ⟨hmemory, hswapFile⟩ := @files_afterCalls cgroup c calls hreturns
  have hfirst : memoryLimit (limitValue limit) = some limit := by
    rw [memoryLimit_limitValue, if_pos hlimitPos]
  rw [hlimit] at hmemory
  rw [hswap] at hswapFile
  simp only [Option.map_some, Option.getD_some] at hmemory hswapFile
  have hsum : AddsUp cgroup (afterCalls cgroup c calls) total ↔
      limit + swapPart total given = total := by
    simp only [AddsUp, hmemory, hswapFile, hfirst, memoryLimit_swapValue htotalPos]
    simp
  rw [hsum, limit_add_swapPart hlimitPos]
  constructor
  · exact fun h => h.imp And.left fun h => h
  · exact fun h => h.imp (fun h => ⟨h, hle⟩) fun h => h

end calls

/-- The total is honoured after every call exactly when the two limits are paired. -/
theorem honoured_iff {cgroup : Cgroup} {c : Contents} {calls : List Call} :
    Honoured cgroup c calls ↔ Paired cgroup calls := by
  constructor
  · intro honoured front hfront hreturns limit total given hlimit hswap hlimitPos htotalPos hle
    exact (addsUp_iff hreturns hlimit hswap hlimitPos htotalPos hle).mp
      (honoured front hfront hreturns limit total given hlimit hswap hlimitPos htotalPos hle)
  · intro paired front hfront hreturns limit total given hlimit hswap hlimitPos htotalPos hle
    exact (addsUp_iff hreturns hlimit hswap hlimitPos htotalPos hle).mpr
      (paired front hfront hreturns limit total given hlimit hswap hlimitPos htotalPos hle)

/-! ## A limit that is raised -/

def memoryCall (limit swap : Option Int) : Call where
  memory := some { limit := limit, reservation := none, swap := swap }
  cpu := none
  pids := none
  blockIo := none
  fails := fun _ => false

/-- The limit of a created container is raised, then a total is given alone. -/
def raisedCalls : List Call :=
  [memoryCall (some 100) (some 300), memoryCall (some 200) none]

def totalCalls : List Call := [memoryCall (some 100) none, memoryCall none (some 300)]

def emptyFiles : Contents := fun _ => "max"

instance (cgroup : Cgroup) (call : Call) : Decidable (call.Returns cgroup) :=
  inferInstanceAs (Decidable (_ = _))

/-- A raised limit leaves the swap that the old one left of the total, and a total that comes
alone is all swap. -/
theorem not_honoured :
    ¬Honoured demoCgroup emptyFiles raisedCalls ∧ ¬Honoured demoCgroup emptyFiles totalCalls := by
  constructor
  · intro honoured
    have hreturns : ∀ call ∈ raisedCalls, call.Returns demoCgroup := by decide +kernel
    have hsum := honoured raisedCalls List.prefix_rfl hreturns 200 300 (some 100) rfl rfl
      (by omega) (by omega) (by omega)
    rw [addsUp_iff hreturns rfl rfl (by omega) (by omega) (by omega)] at hsum
    simp [memoryCall, Call.limit] at hsum
  · intro honoured
    have hreturns : ∀ call ∈ totalCalls, call.Returns demoCgroup := by decide +kernel
    have hsum := honoured totalCalls List.prefix_rfl hreturns 100 300 none rfl rfl
      (by omega) (by omega) (by omega)
    rw [addsUp_iff hreturns rfl rfl (by omega) (by omega) (by omega)] at hsum
    simp [memoryCall, Call.limit] at hsum

end Mars.V2
