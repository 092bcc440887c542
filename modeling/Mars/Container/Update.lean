import Mars.Cgroup.Limits
import Mars.Container.StatusMoves

/-! # Updating single limits

The flags of `update` become resources with most fields absent, and these the writes of
`apply`. `cpu.max` holds two limits, quota and period; what `memory.swap.max` is to hold
depends on the memory limit that is in force. To the container's life it is an `update`
with the resources of the flags (`update_result`).
-/

namespace Mars.Update
open V2 State Lifecycle UnixPath

/-! ## The flags -/

structure UpdateArgs where
  memory : Option Int
  memorySwap : Option Int
  cpuQuota : Option Int
  cpuPeriod : Option Nat
  cpuShare : Option Nat
  cpusetCpus : Option String
  cpusetMems : Option String
  pidsLimit : Option Int

def noLimitError : Error :=
  .invalid "update needs at least one limit, or --resources with a JSON document"

def memoryOf (args : UpdateArgs) : Option LinuxMemory :=
  if args.memory.isSome || args.memorySwap.isSome then
    some { limit := args.memory, reservation := none, swap := args.memorySwap }
  else none

def cpuOf (args : UpdateArgs) : Option LinuxCpu :=
  if args.cpuQuota.isSome || args.cpuPeriod.isSome || args.cpuShare.isSome ||
      args.cpusetCpus.isSome || args.cpusetMems.isSome then
    some
      { shares := args.cpuShare
        quota := args.cpuQuota
        period := args.cpuPeriod
        cpus := args.cpusetCpus
        mems := args.cpusetMems }
  else none

def fromFlags (args : UpdateArgs) : Except Error LinuxResources :=
  let resources : LinuxResources :=
    { memory := memoryOf args
      cpu := cpuOf args
      pids := args.pidsLimit.map fun limit => { limit := limit }
      blockIo := none
      unified := none }
  if resources.memory.isSome || resources.cpu.isSome || resources.pids.isSome then .ok resources
  else .error noLimitError

/-! ## The command -/

variable (place : Place)

/-- The files after an `update` with flags, and how it ended. -/
def update (fails : Write → Bool) (w : Lifecycle.World) (c : Contents) (args : UpdateArgs) :
    Contents × Except Error Unit :=
  match fromFlags args with
  | .error error => (c, .error error)
  | .ok resources =>
      match w.load place with
      | .error error => (c, .error error)
      | .ok container =>
          match container.require (w.host place container) [.created, .running, .paused] with
          | .error error => (c, .error error)
          | .ok _ =>
              let (written, result) := container.cgroup.apply fails resources
              (c.after written, result)

/-- To the container's life it is an `update` with the resources of the flags. -/
theorem update_result {fails : Write → Bool} {w : Lifecycle.World} {c : Contents}
    {args : UpdateArgs}
    {resources : LinuxResources} (hflags : fromFlags args = .ok resources) :
    (update place fails w c args).2 = (Lifecycle.update place w resources fails).result := by
  unfold update Lifecycle.update Lifecycle.World.requiring
  rw [hflags]
  cases w.load place with
  | error error => rfl
  | ok container =>
      simp only
      cases container.require (w.host place container) [.created, .running, .paused] with
      | error error => rfl
      | ok status => rfl

/-! ## The limits -/

/-- A limit is a half of `cpu.max` or what one other file holds. -/
inductive Limit where
  | quota
  | period
  | file (path : String)
  deriving DecidableEq

def Limit.get (cgroup : Cgroup) (c : Contents) : Limit → String
  | .quota => word 0 (c (cgroup.file "cpu.max"))
  | .period => word 1 (c (cgroup.file "cpu.max"))
  | .file path => c path

/-- What a flag asks of a limit that it names, in the terms of cgroup v2. The total that
`--memory-swap` gives is memory and swap: the limit in force counts. -/
def translation (cgroup : Cgroup) (inForce : Option Int) (args : UpdateArgs) :
    Limit → Option String
  | .quota => args.cpuQuota.map fun quota => if quota ≤ 0 then "max" else intText quota
  | .period => args.cpuPeriod.map natText
  | .file path =>
      if path = cgroup.file "memory.max" then args.memory.map limitValue
      else if path = cgroup.file "memory.swap.max" then
        args.memorySwap.map fun swap => swapValue swap inForce
      else if path = cgroup.file "cpu.weight" then
        args.cpuShare.map fun shares => natText (sharesToWeight shares)
      else if path = cgroup.file "cpuset.cpus" then args.cpusetCpus
      else if path = cgroup.file "cpuset.mems" then args.cpusetMems
      else if path = cgroup.file "pids.max" then args.pidsLimit.map limitValue
      else none

/-- Each limit that a flag names has its translation, and every other what it had. -/
def Exact (cgroup : Cgroup) (args : UpdateArgs) (before after : Contents) : Prop :=
  ∀ limit, limit ≠ .file (cgroup.file "cpu.max") →
    limit.get cgroup after =
      (translation cgroup (memoryLimit (after (cgroup.file "memory.max"))) args limit).getD
        (limit.get cgroup before)

/-- No flag is passed over or takes a neighbour along, or it makes no difference here. -/
structure Separate (cgroup : Cgroup) (args : UpdateArgs) (before : Contents) : Prop where
  swap : ∀ swap, args.memorySwap = some swap → 0 < swap → args.memory = none →
    ∀ limit, memoryLimit (before (cgroup.file "memory.max")) = some limit → limit ≤ 0
  quota : args.cpuQuota ≠ none → args.cpuPeriod = none →
    Limit.period.get cgroup before = natText 100000
  period : ∀ period, args.cpuPeriod = some period → args.cpuQuota = none →
    Limit.period.get cgroup before = natText period
  share : args.cpuShare = some 0 → before (cgroup.file "cpu.weight") = natText (sharesToWeight 0)
  cpus : args.cpusetCpus = some "" → before (cgroup.file "cpuset.cpus") = ""
  mems : args.cpusetMems = some "" → before (cgroup.file "cpuset.mems") = ""

/-! ## What the flags write -/

def flagSettings (args : UpdateArgs) : List (String × String) :=
  (args.memory.map fun limit => ("memory.max", limitValue limit)).toList ++
    (args.memorySwap.map fun swap => ("memory.swap.max", swapValue swap args.memory)).toList ++
    (args.cpuQuota.map fun quota =>
      ("cpu.max", cpuMaxValue quota (args.cpuPeriod.getD 100000))).toList ++
    ((args.cpuShare.filter (· ≠ 0)).map fun shares =>
      ("cpu.weight", natText (sharesToWeight shares))).toList ++
    ((args.cpusetCpus.filter (· ≠ "")).map fun cpus => ("cpuset.cpus", cpus)).toList ++
    ((args.cpusetMems.filter (· ≠ "")).map fun mems => ("cpuset.mems", mems)).toList ++
    (args.pidsLimit.map fun limit => ("pids.max", limitValue limit)).toList

theorem memory_flags (args : UpdateArgs) :
    ((memoryOf args).map memorySettings).getD [] =
      (args.memory.map fun limit => ("memory.max", limitValue limit)).toList ++
        (args.memorySwap.map fun swap =>
          ("memory.swap.max", swapValue swap args.memory)).toList := by
  unfold memoryOf
  split
  next => simp [memorySettings]
  next hnone =>
    simp only [Bool.or_eq_true, Option.isSome_iff_ne_none, not_or, not_not] at hnone
    simp [hnone.1, hnone.2]

theorem cpu_flags (args : UpdateArgs) :
    ((cpuOf args).map cpuSettings).getD [] =
      (args.cpuQuota.map fun quota =>
        ("cpu.max", cpuMaxValue quota (args.cpuPeriod.getD 100000))).toList ++
      ((args.cpuShare.filter (· ≠ 0)).map fun shares =>
        ("cpu.weight", natText (sharesToWeight shares))).toList ++
      ((args.cpusetCpus.filter (· ≠ "")).map fun cpus => ("cpuset.cpus", cpus)).toList ++
      ((args.cpusetMems.filter (· ≠ "")).map fun mems => ("cpuset.mems", mems)).toList := by
  unfold cpuOf
  split
  next => simp [cpuSettings]
  next hnone =>
    simp only [Bool.or_eq_true, Option.isSome_iff_ne_none, not_or, not_not] at hnone
    obtain ⟨⟨⟨⟨hquota, -⟩, hshare⟩, hcpus⟩, hmems⟩ := hnone
    simp [hquota, hshare, hcpus, hmems]

theorem settings_fromFlags {args : UpdateArgs} {resources : LinuxResources}
    (hflags : fromFlags args = .ok resources) : settings resources = flagSettings args := by
  unfold fromFlags at hflags
  simp only at hflags
  split at hflags
  next =>
    cases hflags
    have hpids : ((args.pidsLimit.map fun limit => (⟨limit⟩ : LinuxPids)).map fun pids =>
        [("pids.max", limitValue pids.limit)]).getD [] =
        (args.pidsLimit.map fun limit => ("pids.max", limitValue limit)).toList := by
      cases args.pidsLimit <;> rfl
    simp only [settings, memory_flags, cpu_flags, hpids, flagSettings]
    simp
  next => cases hflags

theorem flagSettings_files {args : UpdateArgs} {setting : String × String}
    (hmem : setting ∈ flagSettings args) : setting.1 ∈ FILES := by
  simp only [flagSettings, List.mem_append, Option.mem_toList, Option.map_eq_some_iff] at hmem
  rcases hmem with (((((⟨_, -, rfl⟩ | ⟨_, -, rfl⟩) | ⟨_, -, rfl⟩) | ⟨_, -, rfl⟩) | ⟨_, -, rfl⟩) |
    ⟨_, -, rfl⟩) | ⟨_, -, rfl⟩ <;> simp [FILES]

/-- The command returns with the flags' settings written. -/
theorem update_ok {fails : Write → Bool} {w : Lifecycle.World} {c : Contents} {args : UpdateArgs}
    (hok : (update place fails w c args).2 = .ok ()) :
    ∃ container, w.load place = .ok container ∧
      (update place fails w c args).1 =
        c.after (container.cgroup.writes (flagSettings args)) := by
  unfold update at hok ⊢
  cases hflags : fromFlags args with
  | error error => simp [hflags] at hok
  | ok resources =>
      rw [hflags] at hok
      cases hload : w.load place with
      | error error => simp [hload] at hok
      | ok container =>
          rw [hload] at hok
          simp only at hok ⊢
          refine ⟨container, rfl, ?_⟩
          cases hrequire : container.require (w.host place container)
              [.created, .running, .paused] with
          | error error => simp [hrequire] at hok
          | ok status =>
              rw [hrequire] at hok
              simp only [Cgroup.apply, settings_fromFlags hflags] at hok ⊢
              rw [writeAll_ok hok]

section limits

variable {cgroup : Cgroup} {c : Contents} {args : UpdateArgs} {name : String}

theorem file_eq_iff {a b : String} (ha : a ∈ FILES) (hb : b ∈ FILES) :
    cgroup.file a = cgroup.file b ↔ a = b :=
  ⟨file_inj (isAbsolute_of_files ha) (isAbsolute_of_files hb), fun h => h ▸ rfl⟩

theorem after_flags (hname : name ∈ FILES) :
    c.after (cgroup.writes (flagSettings args)) (cgroup.file name) =
      (last name (flagSettings args)).getD (c (cgroup.file name)) :=
  after_writes (fun _ hs => isAbsolute_of_files (flagSettings_files hs))
    (isAbsolute_of_files hname)

/-- What the flags mean for a file, as the driver has it. -/
def flagValue (args : UpdateArgs) (name : String) : Option String :=
  if name = "memory.max" then args.memory.map limitValue
  else if name = "memory.swap.max" then args.memorySwap.map fun swap => swapValue swap args.memory
  else if name = "cpu.max" then
    args.cpuQuota.map fun quota => cpuMaxValue quota (args.cpuPeriod.getD 100000)
  else if name = "cpu.weight" then
    (args.cpuShare.filter (· ≠ 0)).map fun shares => natText (sharesToWeight shares)
  else if name = "cpuset.cpus" then args.cpusetCpus.filter (· ≠ "")
  else if name = "cpuset.mems" then args.cpusetMems.filter (· ≠ "")
  else if name = "pids.max" then args.pidsLimit.map limitValue
  else none

theorem last_flags : last name (flagSettings args) = flagValue args name := by
  have hsections : last name (flagSettings args) =
      (if "pids.max" = name then args.pidsLimit.map limitValue else none).or
      ((if "cpuset.mems" = name then args.cpusetMems.filter (· ≠ "") else none).or
      ((if "cpuset.cpus" = name then args.cpusetCpus.filter (· ≠ "") else none).or
      ((if "cpu.weight" = name then
        (args.cpuShare.filter (· ≠ 0)).map fun shares => natText (sharesToWeight shares)
        else none).or
      ((if "cpu.max" = name then
        args.cpuQuota.map fun quota => cpuMaxValue quota (args.cpuPeriod.getD 100000)
        else none).or
      ((if "memory.swap.max" = name then
        args.memorySwap.map fun swap => swapValue swap args.memory else none).or
      (if "memory.max" = name then args.memory.map limitValue else none)))))) := by
    simp only [flagSettings, last_append, last_option, last_text]
  rw [hsections]
  unfold flagValue
  by_cases hmemory : name = "memory.max"
  · simp [hmemory]
  by_cases hswap : name = "memory.swap.max"
  · simp [hswap]
  by_cases hmax : name = "cpu.max"
  · simp [hmax]
  by_cases hweight : name = "cpu.weight"
  · simp [hweight]
  by_cases hcpus : name = "cpuset.cpus"
  · simp [hcpus]
  by_cases hmems : name = "cpuset.mems"
  · simp [hmems]
  by_cases hpids : name = "pids.max"
  · simp [hpids]
  · simp [hmemory, hswap, hmax, hweight, hcpus, hmems, hpids, eq_comm (b := name)]

/-- What a flag asks of a file, by the file's name. -/
def namedTranslation (inForce : Option Int) (args : UpdateArgs) (name : String) : Option String :=
  if name = "memory.max" then args.memory.map limitValue
  else if name = "memory.swap.max" then args.memorySwap.map fun swap => swapValue swap inForce
  else if name = "cpu.weight" then
    args.cpuShare.map fun shares => natText (sharesToWeight shares)
  else if name = "cpuset.cpus" then args.cpusetCpus
  else if name = "cpuset.mems" then args.cpusetMems
  else if name = "pids.max" then args.pidsLimit.map limitValue
  else none

theorem translation_name {inForce : Option Int} (hname : name ∈ FILES) :
    translation cgroup inForce args (.file (cgroup.file name)) =
      namedTranslation inForce args name := by
  have hmemory : "memory.max" ∈ FILES := by decide
  have hswap : "memory.swap.max" ∈ FILES := by decide
  have hweight : "cpu.weight" ∈ FILES := by decide
  have hcpus : "cpuset.cpus" ∈ FILES := by decide
  have hmems : "cpuset.mems" ∈ FILES := by decide
  have hpids : "pids.max" ∈ FILES := by decide
  simp only [translation, namedTranslation, file_eq_iff hname hmemory, file_eq_iff hname hswap,
    file_eq_iff hname hweight, file_eq_iff hname hcpus, file_eq_iff hname hmems,
    file_eq_iff hname hpids]

/-- The file that a limit's value is read from after the command. -/
theorem after_flag (hname : name ∈ FILES) :
    c.after (cgroup.writes (flagSettings args)) (cgroup.file name) =
      (flagValue args name).getD (c (cgroup.file name)) := by
  rw [after_flags hname, last_flags]

/-- The limit is as the flags ask. -/
def Meets (cgroup : Cgroup) (args : UpdateArgs) (before after : Contents) (limit : Limit) : Prop :=
  limit.get cgroup after =
    (translation cgroup (memoryLimit (after (cgroup.file "memory.max"))) args limit).getD
      (limit.get cgroup before)

theorem meets_quota : Meets cgroup args c (c.after (cgroup.writes (flagSettings args))) .quota := by
  have hmax : "cpu.max" ∈ FILES := by decide
  simp only [Meets, Limit.get, translation, after_flag hmax, flagValue]
  cases args.cpuQuota with
  | none => rfl
  | some quota => simpa using (word_cpuMaxValue quota (args.cpuPeriod.getD 100000)).1

theorem meets_period_iff :
    Meets cgroup args c (c.after (cgroup.writes (flagSettings args))) .period ↔
      (args.cpuQuota ≠ none → args.cpuPeriod = none →
        Limit.period.get cgroup c = natText 100000) ∧
      (∀ period, args.cpuPeriod = some period → args.cpuQuota = none →
        Limit.period.get cgroup c = natText period) := by
  have hmax : "cpu.max" ∈ FILES := by decide
  simp only [Meets, Limit.get, translation, after_flag hmax, flagValue]
  cases args.cpuQuota with
  | none => cases args.cpuPeriod <;> simp
  | some quota =>
      cases args.cpuPeriod with
      | none => simp [(word_cpuMaxValue quota 100000).2, eq_comm]
      | some period => simp [(word_cpuMaxValue quota period).2]

/-- The file of this name is as the flags ask. -/
theorem meets_file_iff (hname : name ∈ FILES) :
    Meets cgroup args c (c.after (cgroup.writes (flagSettings args))) (.file (cgroup.file name)) ↔
      (flagValue args name).getD (c (cgroup.file name)) =
        (namedTranslation (memoryLimit ((args.memory.map limitValue).getD
          (c (cgroup.file "memory.max")))) args name).getD (c (cgroup.file name)) := by
  have hmemory : "memory.max" ∈ FILES := by decide
  rw [Meets, Limit.get, Limit.get, translation_name hname, after_flag hname, after_flag hmemory]
  rfl

/-- A limit in force changes the translation of every total. -/
theorem swapValue_none_iff {swap limit : Int} :
    swapValue swap none = swapValue swap (some limit) ↔ swap ≤ 0 ∨ limit ≤ 0 := by
  by_cases hswap : swap ≤ 0
  · simp [swapValue, hswap]
  by_cases hlimit : limit ≤ 0
  · have hnot : ¬0 < limit := by omega
    simp [swapValue, hswap, hlimit, hnot]
  have hpos : 0 < limit := by omega
  have hread := memoryLimit_intText (show 0 < swap by omega)
  refine iff_of_false ?_ (by omega)
  intro heq
  simp only [swapValue, hswap, if_false, gt_iff_lt, hpos, if_true] at heq
  split at heq
  next hmore =>
    have hrest := memoryLimit_intText (show 0 < swap - limit by omega)
    rw [heq, hrest] at hread
    have hsame : swap - limit = swap := Option.some.inj hread
    omega
  next =>
    have hzero : memoryLimit "0" = some 0 := by decide
    rw [heq, hzero] at hread
    have hsame : (0 : Int) = swap := Option.some.inj hread
    omega

theorem meets_swap_iff :
    Meets cgroup args c (c.after (cgroup.writes (flagSettings args)))
        (.file (cgroup.file "memory.swap.max")) ↔
      ∀ swap, args.memorySwap = some swap → 0 < swap → args.memory = none →
        ∀ limit, memoryLimit (c (cgroup.file "memory.max")) = some limit → limit ≤ 0 := by
  rw [meets_file_iff (by decide)]
  have hflag : flagValue args "memory.swap.max" =
      args.memorySwap.map fun swap => swapValue swap args.memory := rfl
  have hasked : ∀ inForce, namedTranslation inForce args "memory.swap.max" =
      args.memorySwap.map fun swap => swapValue swap inForce := fun _ => rfl
  rw [hflag, hasked]
  cases args.memorySwap with
  | none => simp
  | some swap =>
      simp only [Option.map_some, Option.getD_some, Option.some.injEq]
      cases args.memory with
      | some bytes => simp [swapValue_limitValue]
      | none =>
          simp only [Option.map_none, Option.getD_none]
          cases memoryLimit (c (cgroup.file "memory.max")) with
          | none => simp
          | some limit =>
              rw [swapValue_none_iff]
              constructor
              · intro hcases swap' heq hpos _ limit' hlimit
                obtain rfl := heq
                obtain rfl := Option.some.inj hlimit
                exact hcases.resolve_left (by omega)
              · intro hall
                by_cases hpos : 0 < swap
                · exact .inr (hall swap rfl hpos trivial limit rfl)
                · exact .inl (by omega)

theorem meets_weight_iff :
    Meets cgroup args c (c.after (cgroup.writes (flagSettings args)))
        (.file (cgroup.file "cpu.weight")) ↔
      (args.cpuShare = some 0 → c (cgroup.file "cpu.weight") = natText (sharesToWeight 0)) := by
  rw [meets_file_iff (by decide)]
  simp only [flagValue, namedTranslation]
  cases args.cpuShare with
  | none => simp
  | some shares =>
      by_cases hzero : shares = 0
      · simp [hzero, Option.filter]
      · simp [hzero, Option.filter]

/-- A list of cpus or memory nodes: an empty one is passed over. -/
theorem filter_list_iff (part : Option String) (text : String) :
    (part.filter (· ≠ "")).getD text = part.getD text ↔ (part = some "" → text = "") := by
  cases part with
  | none => simp
  | some list =>
      by_cases hempty : list = ""
      · simp [hempty, Option.filter]
      · simp [hempty, Option.filter]

theorem meets_cpus_iff :
    Meets cgroup args c (c.after (cgroup.writes (flagSettings args)))
        (.file (cgroup.file "cpuset.cpus")) ↔
      (args.cpusetCpus = some "" → c (cgroup.file "cpuset.cpus") = "") := by
  rw [meets_file_iff (by decide)]
  exact filter_list_iff args.cpusetCpus _

theorem meets_mems_iff :
    Meets cgroup args c (c.after (cgroup.writes (flagSettings args)))
        (.file (cgroup.file "cpuset.mems")) ↔
      (args.cpusetMems = some "" → c (cgroup.file "cpuset.mems") = "") := by
  rw [meets_file_iff (by decide)]
  exact filter_list_iff args.cpusetMems _

/-- The other files of the driver are as the flags ask. -/
theorem meets_plain (hname : name ∈ ["memory.max", "pids.max", "memory.low", "io.weight", "io.max"]) :
    Meets cgroup args c (c.after (cgroup.writes (flagSettings args)))
      (.file (cgroup.file name)) := by
  simp only [List.mem_cons, List.not_mem_nil, or_false] at hname
  rcases hname with rfl | rfl | rfl | rfl | rfl
  all_goals
    rw [meets_file_iff (by decide)]
    simp [flagValue, namedTranslation]

/-- Every file of the driver but `cpu.max` is as separate flags ask. -/
theorem meets_of_files (separate : Separate cgroup args c) (hname : name ∈ FILES)
    (hne : name ≠ "cpu.max") :
    Meets cgroup args c (c.after (cgroup.writes (flagSettings args)))
      (.file (cgroup.file name)) := by
  simp only [FILES, List.mem_cons, List.not_mem_nil, or_false] at hname
  rcases hname with rfl | rfl | rfl | rfl | rfl | rfl | rfl | rfl | rfl | rfl
  · exact meets_plain (by decide)
  · exact meets_plain (by decide)
  · exact meets_swap_iff.mpr separate.swap
  · exact (hne rfl).elim
  · exact meets_weight_iff.mpr separate.share
  · exact meets_cpus_iff.mpr separate.cpus
  · exact meets_mems_iff.mpr separate.mems
  · exact meets_plain (by decide)
  · exact meets_plain (by decide)
  · exact meets_plain (by decide)

/-- The command leaves alone what is not the driver's. -/
theorem meets_other {path : String} (hother : ∀ name ∈ FILES, path ≠ cgroup.file name) :
    Meets cgroup args c (c.after (cgroup.writes (flagSettings args))) (.file path) := by
  have hkept : c.after (cgroup.writes (flagSettings args)) path = c path :=
    after_writes_other fun setting hmem he =>
      hother setting.1 (flagSettings_files hmem) he.symm
  simp only [Meets, Limit.get, translation, hkept, hother "memory.max" (by decide),
    hother "memory.swap.max" (by decide), hother "cpu.weight" (by decide),
    hother "cpuset.cpus" (by decide), hother "cpuset.mems" (by decide),
    hother "pids.max" (by decide), if_false]
  rfl

theorem exact_iff :
    Exact cgroup args c (c.after (cgroup.writes (flagSettings args))) ↔
      Separate cgroup args c := by
  have hnot : ∀ name ∈ FILES, name ≠ "cpu.max" →
      Limit.file (cgroup.file name) ≠ .file (cgroup.file "cpu.max") := by
    intro name hname hne heq
    have hpath : cgroup.file name = cgroup.file "cpu.max" := by simpa using heq
    exact hne ((file_eq_iff hname (by decide)).mp hpath)
  constructor
  · intro hexact
    have hperiod := meets_period_iff.mp (hexact .period (by simp))
    exact
      { swap := meets_swap_iff.mp (hexact _ (hnot _ (by decide) (by decide)))
        quota := hperiod.1
        period := hperiod.2
        share := meets_weight_iff.mp (hexact _ (hnot _ (by decide) (by decide)))
        cpus := meets_cpus_iff.mp (hexact _ (hnot _ (by decide) (by decide)))
        mems := meets_mems_iff.mp (hexact _ (hnot _ (by decide) (by decide))) }
  · intro separate limit hne
    cases limit with
    | quota => exact meets_quota
    | period => exact meets_period_iff.mpr ⟨separate.quota, separate.period⟩
    | file path =>
        by_cases hdriver : ∃ name ∈ FILES, path = cgroup.file name
        · obtain ⟨name, hname, rfl⟩ := hdriver
          exact meets_of_files separate hname fun he => hne (by rw [he])
        · have hother : ∀ name ∈ FILES, path ≠ cgroup.file name :=
            fun name hname he => hdriver ⟨name, hname, he⟩
          exact meets_other hother

end limits

/-- An `update` with flags is an exact partial update exactly when its flags are separate. -/
theorem update_exact_iff {fails : Write → Bool} {w : Lifecycle.World} {c : Contents}
    {args : UpdateArgs}
    {container : Container} (hload : w.load place = .ok container)
    (hok : (update place fails w c args).2 = .ok ()) :
    Exact container.cgroup args c (update place fails w c args).1 ↔
      Separate container.cgroup args c := by
  obtain ⟨container', hload', hafter⟩ := update_ok place hok
  rw [hload] at hload'
  cases hload'
  rw [hafter]
  exact exact_iff

/-! ## Updates of one cgroup -/

def noFlags : UpdateArgs where
  memory := none
  memorySwap := none
  cpuQuota := none
  cpuPeriod := none
  cpuShare := none
  cpusetCpus := none
  cpusetMems := none
  pidsLimit := none

def runningWorld : Lifecycle.World := Option.get _ runningLife_enabled

/-- 100 ms of every 200, and a memory limit with no swap on top. -/
def limited : Contents := fun path =>
  if path = demoContainer.cgroup.file "cpu.max" then "100000 200000"
  else if path = demoContainer.cgroup.file "memory.max" then "1000"
  else if path = demoContainer.cgroup.file "memory.swap.max" then "0"
  else "max"

def granting : Write → Bool := fun _ => false

def quotaAndPeriod : UpdateArgs := { noFlags with cpuQuota := some 50000, cpuPeriod := some 100000 }

def quotaOnly : UpdateArgs := { noFlags with cpuQuota := some 50000 }

def periodOnly : UpdateArgs := { noFlags with cpuPeriod := some 100000 }

def swapOnly : UpdateArgs := { noFlags with memorySwap := some 3000 }

theorem runningWorld_required :
    demoContainer.require (runningWorld.host demoPlace demoContainer)
      [.created, .running, .paused] = .ok .running := by decide +kernel

theorem update_running {c : Contents} {args : UpdateArgs} {resources : LinuxResources}
    (hflags : fromFlags args = .ok resources) :
    update demoPlace granting runningWorld c args =
      (c.after (demoContainer.cgroup.apply granting resources).1,
        (demoContainer.cgroup.apply granting resources).2) := by
  have hload : runningWorld.load demoPlace = .ok demoContainer := rfl
  unfold update
  simp only [hflags, hload, runningWorld_required]

theorem quotaAndPeriod_separate :
    Separate demoContainer.cgroup quotaAndPeriod limited := by
  constructor <;> simp [quotaAndPeriod, noFlags]

/-- A quota with its period is written as it is given. -/
theorem update_exact_both :
    (update demoPlace granting runningWorld limited quotaAndPeriod).2 = .ok () ∧
      (Exact demoContainer.cgroup quotaAndPeriod limited
          (update demoPlace granting runningWorld limited quotaAndPeriod).1 ↔
        Separate demoContainer.cgroup quotaAndPeriod limited) ∧
      Exact demoContainer.cgroup quotaAndPeriod limited
        (update demoPlace granting runningWorld limited quotaAndPeriod).1 := by
  have hok : (update demoPlace granting runningWorld limited quotaAndPeriod).2 = .ok () := by
    rw [update_running rfl]
    decide +kernel
  have hiff := @update_exact_iff demoPlace granting runningWorld limited quotaAndPeriod
    demoContainer rfl hok
  exact ⟨hok, hiff, hiff.mpr quotaAndPeriod_separate⟩

/-- A quota alone sets the period back, a period alone does nothing, and a swap total alone is
written as it is. -/
theorem update_not_exact :
    (update demoPlace granting runningWorld limited quotaOnly).2 = .ok () ∧
      ¬Exact demoContainer.cgroup quotaOnly limited
        (update demoPlace granting runningWorld limited quotaOnly).1 ∧
      (update demoPlace granting runningWorld limited periodOnly).2 = .ok () ∧
      ¬Exact demoContainer.cgroup periodOnly limited
        (update demoPlace granting runningWorld limited periodOnly).1 ∧
      (update demoPlace granting runningWorld limited swapOnly).2 = .ok () ∧
      ¬Exact demoContainer.cgroup swapOnly limited
        (update demoPlace granting runningWorld limited swapOnly).1 := by
  rw [update_running rfl, update_running rfl, update_running rfl]
  refine ⟨by decide +kernel, ?_, by decide +kernel, ?_, by decide +kernel, ?_⟩
  · intro hexact
    exact absurd (hexact .period (by simp)) (by decide +kernel)
  · intro hexact
    exact absurd (hexact .period (by simp)) (by decide +kernel)
  · intro hexact
    exact absurd (hexact (.file (demoContainer.cgroup.file "memory.swap.max")) (by decide +kernel))
      (by decide +kernel)

end Mars.Update
