import Mars.Cgroup.V2
import Mars.Core.MountTable
import Mars.Core.Text

/-! # Resource limits

`apply` writes one file after another and stops at the first refusal. The names
are the driver's own, except for the keys of `unified`, which the spec chooses.
-/

namespace Mars.V2
open UnixPath Text
open MountTable (walk walk_append walk_join)

/-! ## The spec's resources -/

structure LinuxMemory where
  limit : Option Int
  reservation : Option Int
  swap : Option Int
  deriving DecidableEq

structure LinuxCpu where
  shares : Option Nat
  quota : Option Int
  period : Option Nat
  cpus : Option String
  mems : Option String
  deriving DecidableEq

structure LinuxPids where
  limit : Int
  deriving DecidableEq

structure LinuxThrottleDevice where
  major : Int
  minor : Int
  rate : Nat
  deriving DecidableEq

structure LinuxBlockIo where
  weight : Option Nat
  throttleReadBpsDevice : Option (List LinuxThrottleDevice)
  throttleWriteBpsDevice : Option (List LinuxThrottleDevice)
  throttleReadIopsDevice : Option (List LinuxThrottleDevice)
  throttleWriteIopsDevice : Option (List LinuxThrottleDevice)
  deriving DecidableEq

/-- `unified` is a map, here with its entries in the order the map yields them. -/
structure LinuxResources where
  memory : Option LinuxMemory
  cpu : Option LinuxCpu
  pids : Option LinuxPids
  blockIo : Option LinuxBlockIo
  unified : Option (List (String × String))
  deriving DecidableEq

/-! ## Values -/

def intText (i : Int) : String := String.ofList (decimalInt i)
def natText (n : Nat) : String := String.ofList (decimal n)

def limitValue (bytes : Int) : String := if bytes ≤ 0 then "max" else intText bytes

def swapValue (swap : Int) (limit : Option Int) : String :=
  if swap ≤ 0 then "max"
  else
    match limit with
    | some l =>
        if l > 0 then if swap > l then intText (swap - l) else "0"
        else intText swap
    | none => intText swap

def cpuMaxValue (quota : Int) (period : Nat) : String :=
  if quota ≤ 0 then "max " ++ natText period else intText quota ++ " " ++ natText period

def sharesToWeight (shares : Nat) : Nat :=
  if shares = 0 then 100
  else
    let shares := max 2 (min shares 262144)
    1 + (shares - 2) * 9999 / 262142

def blkioToIoWeight (weight : Nat) : Nat :=
  let weight := max 10 (min weight 1000)
  1 + (weight - 10) * 9999 / 990

def ioMaxLines (blockIo : LinuxBlockIo) : List String :=
  [("rbps", blockIo.throttleReadBpsDevice), ("wbps", blockIo.throttleWriteBpsDevice),
    ("riops", blockIo.throttleReadIopsDevice), ("wiops", blockIo.throttleWriteIopsDevice)].flatMap
    fun (key, devices) => (devices.getD []).map fun device =>
      intText device.major ++ ":" ++ intText device.minor ++ " " ++ key ++ "=" ++
        natText device.rate

/-! ## The files in the order they are written -/

def memorySettings (memory : LinuxMemory) : List (String × String) :=
  (memory.limit.map fun bytes => ("memory.max", limitValue bytes)).toList ++
    (memory.reservation.map fun bytes => ("memory.low", limitValue bytes)).toList ++
    (memory.swap.map fun swap => ("memory.swap.max", swapValue swap memory.limit)).toList

def cpuSettings (cpu : LinuxCpu) : List (String × String) :=
  (cpu.quota.map fun quota => ("cpu.max", cpuMaxValue quota (cpu.period.getD 100000))).toList ++
    ((cpu.shares.filter (· ≠ 0)).map fun shares =>
      ("cpu.weight", natText (sharesToWeight shares))).toList ++
    ((cpu.cpus.filter (· ≠ "")).map fun cpus => ("cpuset.cpus", cpus)).toList ++
    ((cpu.mems.filter (· ≠ "")).map fun mems => ("cpuset.mems", mems)).toList

def blockIoSettings (blockIo : LinuxBlockIo) : List (String × String) :=
  ((blockIo.weight.filter (· ≠ 0)).map fun weight =>
      ("io.weight", natText (blkioToIoWeight weight))).toList ++
    (ioMaxLines blockIo).map fun line => ("io.max", line)

def settings (resources : LinuxResources) : List (String × String) :=
  (resources.memory.map memorySettings).getD [] ++
    (resources.cpu.map cpuSettings).getD [] ++
    (resources.pids.map fun pids => [("pids.max", limitValue pids.limit)]).getD [] ++
    (resources.blockIo.map blockIoSettings).getD [] ++
    resources.unified.getD []

/-! ## Writing -/

structure Write where
  target : String
  value : String
  deriving DecidableEq

/-- `fails` says what else the kernel refuses. -/
def Cgroup.write (fails : Write → Bool) (cgroup : Cgroup) (file value : String) :
    Except Error Write :=
  let write := { target := join cgroup.path file, value := value }
  if fails write = true ∨ ¬ NamesFile write.target then
    .error (.io ("write " ++ debugText value ++ " to " ++ write.target))
  else .ok write

def writeAll (fails : Write → Bool) (cgroup : Cgroup) :
    List (String × String) → List Write × Except Error Unit
  | [] => ([], .ok ())
  | (file, value) :: rest =>
      match cgroup.write fails file value with
      | .error error => ([], .error error)
      | .ok write =>
          let (written, result) := writeAll fails cgroup rest
          (write :: written, result)

/-- The files written, and how it ended. -/
def Cgroup.apply (fails : Write → Bool) (cgroup : Cgroup) (resources : LinuxResources) :
    List Write × Except Error Unit :=
  writeAll fails cgroup (settings resources)

/-! ## What is written -/

section write
variable {fails : Write → Bool} {cgroup : Cgroup} {file value : String} {w : Write}

theorem write_ok (h : cgroup.write fails file value = .ok w) :
    w = { target := join cgroup.path file, value := value } ∧ NamesFile w.target := by
  simp only [Cgroup.write] at h
  split at h
  next => cases h
  next haccepted =>
    cases h
    exact ⟨rfl, by simpa using fun h => haccepted (Or.inr h)⟩

/-- Every file written is one of the settings, and can be one at all. -/
theorem mem_writeAll {todo : List (String × String)} (h : w ∈ (writeAll fails cgroup todo).1) :
    ∃ setting ∈ todo, w.target = join cgroup.path setting.1 ∧ w.value = setting.2 ∧
      NamesFile w.target := by
  induction todo with
  | nil => cases h
  | cons setting rest ih =>
      simp only [writeAll] at h
      split at h
      next => cases h
      next write hwrite =>
        rcases List.mem_cons.mp h with rfl | hrest
        · obtain ⟨rfl, hnames⟩ := write_ok hwrite
          exact ⟨setting, List.mem_cons_self, rfl, rfl, hnames⟩
        · obtain ⟨later, hmem, hlater⟩ := ih hrest
          exact ⟨later, List.mem_cons_of_mem _ hmem, hlater⟩

/-- Where the kernel refuses nothing it need not, the writes reach every setting
whose predecessors name files. -/
theorem writeAll_reaches {front rest : List (String × String)}
    (hfront : ∀ setting ∈ front, NamesFile (join cgroup.path setting.1))
    (hfile : NamesFile (join cgroup.path file)) :
    { target := join cgroup.path file, value := value } ∈
      (writeAll (fun _ => false) cgroup (front ++ (file, value) :: rest)).1 := by
  induction front with
  | nil => simp [writeAll, Cgroup.write, hfile]
  | cons setting front ih =>
      have hsetting := hfront setting List.mem_cons_self
      have hrest := ih fun s hs => hfront s (List.mem_cons_of_mem _ hs)
      simp only [List.cons_append, writeAll, Cgroup.write, hsetting]
      exact List.mem_cons_of_mem _ hrest

end write

/-! ## Containment -/

/-- The path leads to an entry of the directory. -/
def DirectChild (path dir : String) : Prop :=
  ∃ name, walk [] [] (components path) = walk [] [] (components dir) ++ [name]

/-- Whatever the order of the map and whatever the kernel refuses, only entries
of the cgroup's directory are written. -/
def Contained (cgroup : Cgroup) (resources : LinuxResources) : Prop :=
  ∀ fails unified, unified.Perm (resources.unified.getD []) →
    ∀ w ∈ (cgroup.apply fails { resources with unified := some unified }).1,
      DirectChild w.target cgroup.path

/-- A key that can be written to at all leads, from the cgroup's directory, to an
entry of that directory. -/
def KeyStays (cgroup : Cgroup) (key : String) : Prop :=
  NamesFile (join cgroup.path key) →
    ∃ name, walk [] (walk [] [] (components cgroup.path)) (components key) =
      walk [] [] (components cgroup.path) ++ [name]

/-- The names that are the driver's own. -/
def FILES : List String :=
  ["memory.max", "memory.low", "memory.swap.max", "cpu.max", "cpu.weight", "cpuset.cpus",
    "cpuset.mems", "pids.max", "io.weight", "io.max"]

theorem files_plain {file : String} (h : file ∈ FILES) :
    Plain file ∧ '\x00' ∉ file.toList := by
  revert h
  revert file
  decide

theorem memorySettings_files {memory : LinuxMemory} {setting : String × String}
    (h : setting ∈ memorySettings memory) : setting.1 ∈ FILES := by
  simp only [memorySettings, List.mem_append, Option.mem_toList, Option.map_eq_some_iff] at h
  rcases h with (⟨_, -, rfl⟩ | ⟨_, -, rfl⟩) | ⟨_, -, rfl⟩ <;> simp [FILES]

theorem cpuSettings_files {cpu : LinuxCpu} {setting : String × String}
    (h : setting ∈ cpuSettings cpu) : setting.1 ∈ FILES := by
  simp only [cpuSettings, List.mem_append, Option.mem_toList, Option.map_eq_some_iff] at h
  rcases h with ((⟨_, -, rfl⟩ | ⟨_, -, rfl⟩) | ⟨_, -, rfl⟩) | ⟨_, -, rfl⟩ <;> simp [FILES]

theorem blockIoSettings_files {blockIo : LinuxBlockIo} {setting : String × String}
    (h : setting ∈ blockIoSettings blockIo) : setting.1 ∈ FILES := by
  simp only [blockIoSettings, List.mem_append, Option.mem_toList, Option.map_eq_some_iff,
    List.mem_map] at h
  rcases h with ⟨_, -, rfl⟩ | ⟨_, -, rfl⟩ <;> simp [FILES]

theorem mem_section {α β : Type} {part : Option α} {f : α → List β} {b : β}
    (h : b ∈ (part.map f).getD []) : ∃ a, part = some a ∧ b ∈ f a := by
  cases part with
  | none => cases h
  | some a => exact ⟨a, rfl, h⟩

/-- All settings but the spec's own keys go to files of these names. -/
theorem settings_eq (resources : LinuxResources) :
    ∃ fixed : List (String × String), (∀ setting ∈ fixed, setting.1 ∈ FILES) ∧
      ∀ unified, settings { resources with unified := some unified } = fixed ++ unified := by
  refine ⟨settings { resources with unified := none }, ?_, ?_⟩
  · intro setting hsetting
    simp only [settings, List.mem_append, Option.getD_none, List.not_mem_nil, or_false]
      at hsetting
    rcases hsetting with ((hmemory | hcpu) | hpids) | hblockIo
    · obtain ⟨memory, -, hmem⟩ := mem_section hmemory
      exact memorySettings_files hmem
    · obtain ⟨cpu, -, hmem⟩ := mem_section hcpu
      exact cpuSettings_files hmem
    · obtain ⟨pids, -, hmem⟩ := mem_section hpids
      obtain rfl := List.mem_singleton.mp hmem
      simp [FILES]
    · obtain ⟨blockIo, -, hmem⟩ := mem_section hblockIo
      exact blockIoSettings_files hmem
  · intro unified
    simp [settings]

theorem namesFile_of_files {cgroup : Cgroup} (hpath : '\x00' ∉ cgroup.path.toList) {file : String}
    (h : file ∈ FILES) : NamesFile (join cgroup.path file) := by
  obtain ⟨hplain, hnul⟩ := files_plain h
  constructor
  · rw [lastPiece_join _ hplain]
    exact hplain
  · exact nul_not_mem_join hpath hnul

theorem directChild_of_files {cgroup : Cgroup} {file : String} (h : file ∈ FILES) :
    DirectChild (join cgroup.path file) cgroup.path := by
  obtain ⟨hplain, -⟩ := files_plain h
  refine ⟨⟨file, hplain⟩, ?_⟩
  rw [components_join_name cgroup.path ⟨file, hplain⟩, walk_append]
  rfl

/-- Applying resources keeps to the cgroup exactly when every key of `unified` does. -/
theorem apply_contained_iff (cgroup : Cgroup) (hpath : '\x00' ∉ cgroup.path.toList)
    (resources : LinuxResources) :
    Contained cgroup resources ↔
      ∀ setting ∈ resources.unified.getD [], KeyStays cgroup setting.1 := by
  obtain ⟨fixed, hfixed, hsettings⟩ := settings_eq resources
  constructor
  · intro hcontained setting hmem hfile
    -- the order that yields this key first
    have hperm := (List.perm_cons_erase hmem).symm
    have hreached : { target := join cgroup.path setting.1, value := setting.2 } ∈
        (cgroup.apply (fun _ => false)
          { resources with
            unified := some (setting :: (resources.unified.getD []).erase setting) }).1 := by
      rw [Cgroup.apply, hsettings]
      exact writeAll_reaches (fun s hs => namesFile_of_files hpath (hfixed s hs)) hfile
    obtain ⟨name, hname⟩ := hcontained _ _ hperm _ hreached
    exact ⟨name, by rw [← hname, walk_join]⟩
  · intro hkeys fails unified hperm w hw
    rw [Cgroup.apply, hsettings] at hw
    obtain ⟨setting, hmem, htarget, -, hfile⟩ := mem_writeAll hw
    rw [htarget] at hfile ⊢
    rcases List.mem_append.mp hmem with hown | hkey
    · exact directChild_of_files (hfixed setting hown)
    · obtain ⟨name, hname⟩ := hkeys setting (hperm.mem_iff.mp hkey) hfile
      exact ⟨name, by rw [walk_join, hname]⟩

def demoCgroup : Cgroup := Cgroup.attach "mars/demo"

def unifiedOnly (unified : List (String × String)) : LinuxResources where
  memory := none
  cpu := none
  pids := none
  blockIo := none
  unified := some unified

theorem apply_contained_high :
    '\x00' ∉ demoCgroup.path.toList ∧
      Contained demoCgroup (unifiedOnly [("memory.high", "1048576"), ("cgroup.procs/", "1")]) :=
  ⟨by decide, (apply_contained_iff demoCgroup (by decide) _).mpr (by
    intro setting hmem
    rcases List.mem_cons.mp hmem with rfl | hmem
    · exact fun _ => ⟨⟨"memory.high", by decide⟩, by decide⟩
    · obtain rfl := List.mem_singleton.mp hmem
      exact fun hfile => absurd hfile (by decide))⟩

/-- A key may be any path: this one is written below `/proc/sys`. -/
theorem apply_writes_anywhere :
    (demoCgroup.apply (fun _ => false)
        (unifiedOnly [("/proc/sys/kernel/core_pattern", "|/tmp/x")])).1 =
      [{ target := "/proc/sys/kernel/core_pattern", value := "|/tmp/x" }] ∧
    ¬ Contained demoCgroup (unifiedOnly [("/proc/sys/kernel/core_pattern", "|/tmp/x")]) ∧
    ¬ Contained demoCgroup (unifiedOnly [("../other/memory.max", "0")]) := by
  refine ⟨by decide, ?_, ?_⟩
  · intro hcontained
    obtain ⟨name, hname⟩ := hcontained (fun _ => false) _ (List.Perm.refl _)
      { target := "/proc/sys/kernel/core_pattern", value := "|/tmp/x" } (by decide)
    have hdir := congrArg List.dropLast hname
    rw [List.dropLast_concat] at hdir
    exact absurd hdir (by decide)
  · intro hcontained
    obtain ⟨name, hname⟩ := hcontained (fun _ => false) _ (List.Perm.refl _)
      { target := join demoCgroup.path "../other/memory.max", value := "0" } (by decide)
    have hdir := congrArg List.dropLast hname
    rw [List.dropLast_concat] at hdir
    exact absurd hdir (by decide)

end Mars.V2
