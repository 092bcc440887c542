import Mars.Rootfs.Mounts

/-! # The last mention of an option counts

Some bits have an option that sets them and one that clears them, others only options
that set them. Whatever the order and the repetitions, an option acts on its own bits
and what is no option goes into the data.
-/

namespace Mars.Mounts
open MountTable

/-! ## The groups -/

/-- A flag with the option that sets it and the one that clears it. -/
structure Switch where
  flag : MsFlags
  on : String
  off : String

def SWITCHES : List Switch := [
  ⟨MS_RDONLY, "ro", "rw"⟩,
  ⟨MS_NOSUID, "nosuid", "suid"⟩,
  ⟨MS_NODEV, "nodev", "dev"⟩,
  ⟨MS_NOEXEC, "noexec", "exec"⟩,
  ⟨MS_SYNCHRONOUS, "sync", "async"⟩,
  ⟨MS_MANDLOCK, "mand", "nomand"⟩,
  ⟨MS_NOATIME, "noatime", "atime"⟩,
  ⟨MS_NODIRATIME, "nodiratime", "diratime"⟩,
  ⟨MS_RELATIME, "relatime", "norelatime"⟩,
  ⟨MS_STRICTATIME, "strictatime", "nostrictatime"⟩]

/-- The flags that are never cleared, each with the options that imply it. -/
def IMPLIED : List (MsFlags × List String) := [
  (MS_DIRSYNC, ["dirsync"]),
  (MS_REMOUNT, ["remount"]),
  (MS_BIND, ["bind", "rbind"]),
  (MS_REC, ["rbind", "runbindable", "rprivate", "rshared", "rslave"]),
  (MS_UNBINDABLE, ["unbindable", "runbindable"]),
  (MS_PRIVATE, ["private", "rprivate"]),
  (MS_SHARED, ["shared", "rshared"]),
  (MS_SLAVE, ["slave", "rslave"])]

/-- Every flag with the options of its group. -/
def GROUPS : List (MsFlags × List String) :=
  SWITCHES.map (fun switch => (switch.flag, [switch.on, switch.off])) ++ IMPLIED

def KEYWORDS : List String := "defaults" :: GROUPS.flatMap Prod.snd

/-- The one bit of a flag. -/
def bitOf (flag : MsFlags) : Nat := flag.toNat.log2

/-- A flag has one bit, which the options of its group alone give a value. -/
structure Apart (flag : MsFlags) (expected : String → Option Bool) : Prop where
  lt : bitOf flag < 64
  single : flag = .twoPow 64 (bitOf flag)
  mention : ∀ option, mention (bitOf flag) option = expected option

section groups

def implies (words : List String) (option : String) : Option Bool :=
  if option ∈ words then some true else none

theorem toggle_ne_none {on off option : String} (h : toggle on off option ≠ none) :
    option = on ∨ option = off := by
  unfold toggle at h
  split at h
  next hon => exact Or.inl hon
  next =>
    split at h
    next hoff => exact Or.inr hoff
    next => exact absurd rfl h

theorem implies_ne_none {words : List String} {option : String} :
    implies words option ≠ none ↔ option ∈ words := by
  simp [implies]

theorem switch_apart : ∀ switch ∈ SWITCHES, Apart switch.flag (toggle switch.on switch.off) := by
  intro switch hswitch
  have hbits : ∀ switch ∈ SWITCHES, bitOf switch.flag < 64 ∧
      switch.flag = .twoPow 64 (bitOf switch.flag) := by decide +kernel
  have htable : ∀ switch ∈ SWITCHES, ∀ named ∈ OPTIONS,
      named.2.mention (bitOf switch.flag) = toggle switch.on switch.off named.1 := by decide +kernel
  have hwords : ∀ switch ∈ SWITCHES, switch.on ∈ OPTIONS.map Prod.fst ∧
      switch.off ∈ OPTIONS.map Prod.fst := by decide +kernel
  refine ⟨(hbits switch hswitch).1, (hbits switch hswitch).2,
    mention_eq (htable switch hswitch) fun option h => ?_⟩
  rcases toggle_ne_none h with rfl | rfl
  · exact (hwords switch hswitch).1
  · exact (hwords switch hswitch).2

theorem implied_apart : ∀ group ∈ IMPLIED, Apart group.1 (implies group.2) := by
  intro group hgroup
  have hbits : ∀ group ∈ IMPLIED, bitOf group.1 < 64 ∧
      group.1 = .twoPow 64 (bitOf group.1) := by decide +kernel
  have htable : ∀ group ∈ IMPLIED, ∀ named ∈ OPTIONS,
      named.2.mention (bitOf group.1) = implies group.2 named.1 := by decide +kernel
  have hwords : ∀ group ∈ IMPLIED, ∀ word ∈ group.2, word ∈ OPTIONS.map Prod.fst := by
    decide +kernel
  exact ⟨(hbits group hgroup).1, (hbits group hgroup).2, mention_eq (htable group hgroup)
    fun option h => hwords group hgroup option (implies_ne_none.mp h)⟩

/-- What is outside a group leaves the group's bit alone. -/
theorem group_apart : ∀ group ∈ GROUPS, ∃ expected, Apart group.1 expected ∧
    ∀ option ∉ group.2, expected option = none := by
  intro group hgroup
  rcases List.mem_append.mp hgroup with hgroup | hgroup
  · obtain ⟨switch, hswitch, rfl⟩ := List.mem_map.mp hgroup
    refine ⟨_, switch_apart switch hswitch, fun option h => ?_⟩
    by_contra hne
    rcases toggle_ne_none hne with rfl | rfl <;> simp at h
  · refine ⟨_, implied_apart group hgroup, fun option h => ?_⟩
    by_contra hne
    exact h (implies_ne_none.mp hne)

end groups

/-! ## Flags and data of a list of options -/

section parsed
variable {flag : MsFlags} {expected : String → Option Bool}

theorem Apart.contains (h : Apart flag expected) (options : List String) :
    contains (parseOptions options).flags flag =
      ((options.filterMap expected).getLast?).getD false := by
  rw [h.single, contains_twoPow h.lt, parseOptions_bit _ h.lt, funext h.mention]

theorem implies_some {words : List String} (options : List String) :
    ((options.filterMap (implies words)).getLast?).getD false = true ↔
      ∃ option ∈ options, option ∈ words := by
  induction options using List.reverseRecOn with
  | nil => simp
  | append_singleton front option ih =>
      rw [List.filterMap_append]
      by_cases hword : option ∈ words
      · simp only [implies, hword, List.filterMap_cons, if_true, List.filterMap_nil]
        simp [hword]
      · have hnone : [option].filterMap (implies words) = [] := by simp [implies, hword]
        rw [hnone, List.append_nil, ih]
        simp [or_and_right, exists_or, hword]

/-- No option sets a bit that is no flag's. -/
theorem parseOptions_others (options : List String) {bit : Nat} (hbit : bit < 64)
    (hother : bit ∉ GROUPS.map fun group => bitOf group.1) :
    (parseOptions options).flags.getLsbD bit = false := by
  have htable : ∀ bit < 64, bit ∉ (GROUPS.map fun group => bitOf group.1) →
      ∀ named ∈ OPTIONS, named.2.mention bit = none := by decide +kernel
  have hnone : mention bit = fun _ => none :=
    funext (mention_eq (htable bit hbit hother) fun _ h => absurd rfl h)
  rw [parseOptions_bit _ hbit, hnone]
  simp

theorem keyword_iff (option : String) : option ∈ KEYWORDS ↔ OPTIONS.lookup option ≠ none := by
  have hthere : ∀ word ∈ KEYWORDS, word ∈ OPTIONS.map Prod.fst := by decide +kernel
  have hback : ∀ word ∈ OPTIONS.map Prod.fst, word ∈ KEYWORDS := by decide +kernel
  have hkeys : ∀ table : List (String × Change),
      option ∈ table.map Prod.fst ↔ table.lookup option ≠ none := by
    intro table
    rw [Option.ne_none_iff_isSome, List.lookup_isSome_iff]
    simp
  exact ⟨fun h => (hkeys OPTIONS).mp (hthere option h),
    fun h => hback option ((hkeys OPTIONS).mpr h)⟩

theorem parseOptions_data (options : List String) :
    (parseOptions options).data = ",".intercalate (options.filter fun option =>
      option ∉ KEYWORDS) := by
  have hfold : ∀ parsed, (options.foldl parseStep parsed).2 =
      parsed.2 ++ options.filter fun option => option ∉ KEYWORDS := by
    induction options with
    | nil => simp
    | cons option rest ih =>
        intro parsed
        rw [List.foldl_cons, ih, parseStep]
        cases hlookup : OPTIONS.lookup option with
        | none =>
            have hother : option ∉ KEYWORDS := fun h => (keyword_iff option).mp h hlookup
            simp [hother]
        | some change =>
            have hword : option ∈ KEYWORDS := (keyword_iff option).mpr (by simp [hlookup])
            simp [hword]
  exact congrArg (String.intercalate ",") (hfold (0, []))

end parsed

/-- What the options of a list come to. -/
structure LastMention (options : List String) : Prop where
  switched : ∀ switch ∈ SWITCHES, contains (parseOptions options).flags switch.flag = true ↔
    (options.filter fun option => option = switch.on ∨ option = switch.off).getLast? =
      some switch.on
  implied : ∀ group ∈ IMPLIED, contains (parseOptions options).flags group.1 = true ↔
    ∃ option ∈ options, option ∈ group.2
  apart : ∀ group ∈ GROUPS, ∀ front option back, options = front ++ option :: back →
    option ∉ group.2 → contains (parseOptions options).flags group.1 =
      contains (parseOptions (front ++ back)).flags group.1
  others : ∀ bit < 64, bit ∉ (GROUPS.map fun group => bitOf group.1) →
    (parseOptions options).flags.getLsbD bit = false
  data : (parseOptions options).data =
    ",".intercalate (options.filter fun option => option ∉ KEYWORDS)

/-- Every bit has the value of the last option that is about it, and the data are what no
option is about. -/
theorem last_mention_wins (options : List String) : LastMention options where
  switched := by
    intro switch hswitch
    rw [(switch_apart switch hswitch).contains]
    exact toggle_last options
  implied := by
    intro group hgroup
    rw [(implied_apart group hgroup).contains]
    exact implies_some options
  apart := by
    rintro group hgroup front option back rfl hoption
    obtain ⟨expected, happart, hnone⟩ := group_apart group hgroup
    rw [happart.contains, happart.contains, List.filterMap_append, List.filterMap_append,
      List.filterMap_cons, hnone option hoption]
  others := fun bit hbit hother => parseOptions_others options hbit hother
  data := parseOptions_data options

end Mars.Mounts
