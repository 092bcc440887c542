import Mars.Rootfs.Harden

/-! # Read-only mounts after both passes

The mount call takes the read-only bit along except for a bind, which the
kernel creates with the flags of its source. The second pass repairs only
entries whose type is the word `tmpfs`.
-/

namespace Mars.Harden
open UnixPath Spec MountTable Mounts

/-- Where an entry's destination lies. -/
def place (k : Kernel) (rootfs : String) (specMount : Mount) : List Name :=
  k.locate (resolve rootfs specMount.destination)

/-- The mount visible at the place is its own and read-only. -/
def ReadonlyAt (k : Kernel) (place : List Name) : Prop :=
  ∃ m, visible k.table place = some m ∧ m.place = place ∧ contains m.flags MS_RDONLY = true

def flagsOf (specMount : Mount) : MsFlags := (parseOptions (specMount.options.getD [])).flags

/-- No symbolic link is on the way of an entry's destination, before the pivot or after it. -/
structure Linkless (host host' : Mounts.Host) (rootfs : String) (mounts : List Mount) : Prop where
  applied : ∀ specMount ∈ mounts, host.Plain (resolve rootfs specMount.destination)
  remounted : ∀ specMount ∈ mounts, host'.Plain (components specMount.destination)

/-- No later entry puts a mount over the `i`th. -/
def Uncovered (host : Mounts.Host) (k : Kernel) (rootfs : String) (mounts : List Mount) (i : Nat)
    (specMount : Mount) : Prop :=
  ∀ later ∈ mounts.drop (i + 1),
    ¬ (mountCall host rootfs later).Covers (place k rootfs later) (place k rootfs specMount)

/-- The last of the entries that gives the mount at the place new flags. -/
def lastRemount (k : Kernel) (rootfs : String) (place : List Name) (mounts : List Mount) :
    Option Mount :=
  (mounts.filter fun later =>
    contains (flagsOf later) MS_REMOUNT && Harden.place k rootfs later = place).getLast?

/-- The second pass looks at the place: some entry there asks for a read-only tmpfs. -/
def Remounted (k : Kernel) (rootfs : String) (mounts : List Mount) (specMount : Mount) : Prop :=
  ∃ other ∈ mounts, other.typ = some "tmpfs" ∧ AsksReadonly other ∧
    place k rootfs other = place k rootfs specMount

/-- What the `i`th entry binds lies on a read-only mount when its turn comes. -/
def BindsReadonly (host : Mounts.Host) (k : Kernel) (rootfs : String) (mounts : List Mount)
    (i : Nat) (specMount : Mount) : Prop :=
  ∀ k', apply host rootfs (mounts.take i) k = .ok k' →
    k'.ReadonlySource (host.leads k' (components (specMount.source.getD "none")))

/-! ## The first pass -/

theorem applyOne_ok {host : Mounts.Host} {rootfs : String} {k k' : Kernel} {specMount : Mount}
    (h : applyOne host rootfs k specMount = .ok k') :
    mount (host.leads k) k (mountCall host rootfs specMount) = some k' := by
  simp only [applyOne, bind_eq_ok, Host.mount, called_eq_ok] at h
  obtain ⟨_, -, made, hmade, hrest⟩ := h
  have hmount : mount (host.leads k) k (mountCall host rootfs specMount) = some made := by
    split at hmade
    · cases hmade
    · exact hmade
  have hsame : made = k' := by
    split at hrest
    · obtain ⟨_, -, hpure⟩ := bind_eq_ok.mp hrest
      exact pure_eq_ok.mp hpure
    · exact pure_eq_ok.mp hrest
  rw [← hsame]
  exact hmount

theorem locate_context {k k' : Kernel} (h : k'.root = k.root ∧ k'.cwd = k.cwd)
    (path : List Component) : k'.locate path = k.locate path := by
  unfold Kernel.locate
  rw [h.1, h.2]

theorem place_context {k k' : Kernel} (h : k'.root = k.root ∧ k'.cwd = k.cwd) (rootfs : String)
    (specMount : Mount) : place k' rootfs specMount = place k rootfs specMount :=
  locate_context h _

theorem apply_context {host : Mounts.Host} {rootfs : String} {mounts : List Mount}
    {k k' : Kernel} (h : apply host rootfs mounts k = .ok k') :
    k'.root = k.root ∧ k'.cwd = k.cwd := by
  induction mounts generalizing k with
  | nil =>
      have hsame : k = k' := pure_eq_ok.mp h
      rw [hsame]
      exact ⟨rfl, rfl⟩
  | cons specMount rest ih =>
      obtain ⟨k₁, hone, hrest⟩ := bind_eq_ok.mp h
      have hcontext := mount_context (applyOne_ok hone)
      have hlater := ih hrest
      exact ⟨hlater.1.trans hcontext.1, hlater.2.trans hcontext.2⟩

theorem lastRemount_cons (host : Mounts.Host) (k : Kernel) (rootfs : String) (place : List Name)
    (specMount : Mount) (rest : List Mount) :
    lastRemount k rootfs place (specMount :: rest) =
      if (mountCall host rootfs specMount).Remounts (Harden.place k rootfs specMount) place then
        some ((lastRemount k rootfs place rest).getD specMount)
      else lastRemount k rootfs place rest := by
  have hhere : (contains (flagsOf specMount) MS_REMOUNT &&
      Harden.place k rootfs specMount = place) = true ↔
        (mountCall host rootfs specMount).Remounts (Harden.place k rootfs specMount) place := by
    rw [Bool.and_eq_true, decide_eq_true_eq]
    exact Iff.rfl
  unfold lastRemount
  by_cases h : (mountCall host rootfs specMount).Remounts (Harden.place k rootfs specMount) place
  · rw [if_pos h, List.filter_cons, if_pos (hhere.mpr h), List.getLast?_cons]
  · rw [if_neg h, List.filter_cons, if_neg (mt hhere.mp h)]

/-- Entries that do not cover a mount leave it there, with the flags of the last that gives it
new ones. -/
theorem apply_keeps {host : Mounts.Host} {rootfs : String} {mounts : List Mount}
    {k k' : Kernel} {place : List Name} {m : Mnt} (h : apply host rootfs mounts k = .ok k')
    (hplain : ∀ later ∈ mounts, host.Plain (resolve rootfs later.destination))
    (hout : ∀ later ∈ mounts,
      ¬ (mountCall host rootfs later).Covers (Harden.place k rootfs later) place)
    (hm : visible k.table place = some m) (hplace : m.place = place) :
    ∃ m', visible k'.table place = some m' ∧ m'.place = place ∧
      (contains m'.flags MS_RDONLY = true ↔ (lastRemount k rootfs place mounts).elim
        (contains m.flags MS_RDONLY = true) AsksReadonly) := by
  induction mounts generalizing k m with
  | nil =>
      have hsame : k = k' := pure_eq_ok.mp h
      rw [← hsame]
      exact ⟨m, hm, hplace, Iff.rfl⟩
  | cons specMount rest ih =>
      obtain ⟨k₁, hone, hrest⟩ := bind_eq_ok.mp h
      have hmount := applyOne_ok hone
      have hcontext := mount_context hmount
      have htarget : host.leads k (mountCall host rootfs specMount).target =
          Harden.place k rootfs specMount := hplain specMount List.mem_cons_self k
      have hplain' : ∀ later ∈ rest, host.Plain (resolve rootfs later.destination) :=
        fun later hlater => hplain later (List.mem_cons_of_mem _ hlater)
      have hout' : ∀ later ∈ rest,
          ¬ (mountCall host rootfs later).Covers (Harden.place k₁ rootfs later) place := by
        intro later hlater
        rw [place_context hcontext]
        exact hout later (List.mem_cons_of_mem _ hlater)
      have hlast : lastRemount k₁ rootfs place rest = lastRemount k rootfs place rest := by
        simp only [lastRemount, place_context hcontext]
      by_cases hflags : (mountCall host rootfs specMount).Remounts
          (Harden.place k rootfs specMount) place
      · have hnew := mount_remounts hmount (htarget ▸ hflags)
        obtain ⟨m', hm', hplace', hro⟩ := ih hrest hplain' hout' hnew rfl
        refine ⟨m', hm', hplace', hro.trans ?_⟩
        have hasks : contains ((mountCall host rootfs specMount).flags &&& PER_MOUNT) MS_RDONLY =
            true ↔ AsksReadonly specMount := by
          rw [contains_perMount]
          exact parseOptions_readonly _
        rw [hlast, lastRemount_cons, if_pos hflags]
        cases lastRemount k rootfs place rest with
        | none => exact hasks
        | some later => exact Iff.rfl
      · have hkept := mount_other hmount (htarget ▸ hout specMount List.mem_cons_self)
          (htarget ▸ hflags) hm hplace
        obtain ⟨m', hm', hplace', hro⟩ := ih hrest hplain' hout' hkept hplace
        refine ⟨m', hm', hplace', hro.trans ?_⟩
        rw [hlast, lastRemount_cons, if_neg hflags]

/-- The last of the later entries that remounts the place asks for read-only; without one, the
entry's own call has made the mount read-only. -/
def FirstPass (host : Mounts.Host) (k : Kernel) (rootfs : String) (mounts : List Mount) (i : Nat)
    (specMount : Mount) : Prop :=
  (lastRemount k rootfs (place k rootfs specMount) (mounts.drop (i + 1))).elim
    (contains (flagsOf specMount) MS_REMOUNT = true ∨ contains (flagsOf specMount) MS_BIND = false ∨
      BindsReadonly host k rootfs mounts i specMount)
    AsksReadonly

/-- What the first pass leaves where an uncovered entry asks for read-only. -/
theorem apply_readonly {host : Mounts.Host} {rootfs : String} {mounts : List Mount}
    {k k' : Kernel} {i : Nat} {specMount : Mount} (h : apply host rootfs mounts k = .ok k')
    (hplain : ∀ other ∈ mounts, host.Plain (resolve rootfs other.destination))
    (hi : mounts[i]? = some specMount) (hasks : AsksReadonly specMount)
    (hout : Uncovered host k rootfs mounts i specMount) :
    ∃ m, visible k'.table (place k rootfs specMount) = some m ∧
      m.place = place k rootfs specMount ∧
      (contains m.flags MS_RDONLY = true ↔ FirstPass host k rootfs mounts i specMount) := by
  obtain ⟨hlt, hget⟩ := List.getElem?_eq_some_iff.mp hi
  have hsplit : mounts = mounts.take i ++ specMount :: mounts.drop (i + 1) := by
    rw [← hget, List.getElem_cons_drop, List.take_append_drop]
  have hruns : ∃ k₁ k₂, apply host rootfs (mounts.take i) k = .ok k₁ ∧
      applyOne host rootfs k₁ specMount = .ok k₂ ∧
      apply host rootfs (mounts.drop (i + 1)) k₂ = .ok k' := by
    unfold apply at h
    rw [hsplit, List.foldlM_append] at h
    obtain ⟨k₁, hfront, hback⟩ := bind_eq_ok.mp h
    obtain ⟨k₂, hone, hrest⟩ := bind_eq_ok.mp hback
    exact ⟨k₁, k₂, hfront, hone, hrest⟩
  obtain ⟨k₁, k₂, hfront, hone, hrest⟩ := hruns
  have hmount := applyOne_ok hone
  have hcontext := apply_context hfront
  have hro : contains (mountCall host rootfs specMount).flags MS_RDONLY = true :=
    (parseOptions_readonly _).mpr hasks
  obtain ⟨m, hm, hplace, hflags⟩ := mount_readonly hmount hro
  have hhere : host.leads k₁ (mountCall host rootfs specMount).target = place k rootfs specMount :=
    (hplain specMount (List.mem_of_getElem? hi) k₁).trans (place_context hcontext rootfs specMount)
  rw [hhere] at hm hplace
  have hcontext₂ : k₂.root = k.root ∧ k₂.cwd = k.cwd :=
    ⟨(mount_context hmount).1.trans hcontext.1, (mount_context hmount).2.trans hcontext.2⟩
  have hsource : (∃ source, (mountCall host rootfs specMount).source = some source ∧
      k₁.ReadonlySource (host.leads k₁ (components source))) ↔
        BindsReadonly host k rootfs mounts i specMount := by
    constructor
    · intro hsome k₀ hk₀
      obtain ⟨source, hsource, hreadonly⟩ := hsome
      obtain rfl : k₁ = k₀ := Except.ok.inj (hfront.symm.trans hk₀)
      obtain rfl := Option.some.inj hsource
      exact hreadonly
    · intro hbinds
      exact ⟨_, rfl, hbinds k₁ hfront⟩
  have hdrop : ∀ later ∈ mounts.drop (i + 1), later ∈ mounts :=
    fun later hlater => List.mem_of_mem_drop hlater
  have hlater : ∀ later ∈ mounts.drop (i + 1), ¬ (mountCall host rootfs later).Covers
      (place k₂ rootfs later) (place k rootfs specMount) := by
    intro later hlater
    rw [place_context hcontext₂]
    exact hout later hlater
  obtain ⟨m', hm', hplace', hlast⟩ :=
    apply_keeps hrest (fun later hlater => hplain later (hdrop later hlater)) hlater hm hplace
  have hsame : lastRemount k₂ rootfs (place k rootfs specMount) (mounts.drop (i + 1)) =
      lastRemount k rootfs (place k rootfs specMount) (mounts.drop (i + 1)) := by
    simp only [lastRemount, place_context hcontext₂]
  refine ⟨m', hm', hplace', ?_⟩
  rw [hlast, hsame, hflags, hsource]
  rfl

/-! ## The second pass -/

/-- The second pass acts on an entry that asks for a read-only tmpfs. -/
def Acts (specMount : Mount) : Prop := specMount.typ = some "tmpfs" ∧ AsksReadonly specMount

theorem remountOne_idle {host : Mounts.Host} {k k' : Kernel} {specMount : Mount}
    (h : remountOne host k specMount = .ok k') (hidle : ¬ Acts specMount) : k' = k := by
  simp only [remountOne] at h
  by_cases hro : contains (parseOptions (specMount.options.getD [])).flags MS_RDONLY = true
  · have htype : specMount.typ.getD "" ≠ "tmpfs" := by
      intro htmpfs
      apply hidle
      refine ⟨?_, (parseOptions_readonly _).mp hro⟩
      cases htyp : specMount.typ with
      | none => simp [htyp] at htmpfs
      | some typ => simpa [htyp] using htmpfs
    simp only [hro, Bool.not_true, Bool.false_eq_true, if_false, htype, ne_eq, not_false_eq_true,
      if_true, Except.ok.injEq] at h
    exact h.symm
  · simp only [Bool.not_eq_true] at hro
    simp only [hro, Bool.not_false, if_true, Except.ok.injEq] at h
    exact h.symm

theorem remountOne_acts {host : Mounts.Host} {k k' : Kernel} {specMount : Mount}
    (h : remountOne host k specMount = .ok k') (hacts : Acts specMount) :
    mount (host.leads k) k (remountCall specMount) = some k' := by
  have hro := (parseOptions_readonly _).mpr hacts.2
  simp only [remountOne, hro, hacts.1, Bool.not_true, Bool.false_eq_true, if_false,
    Option.getD_some, ne_eq, not_true_eq_false, Host.mount, called_eq_ok] at h
  split at h
  · cases h
  · exact h

theorem remountCall_flags (specMount : Mount) (hasks : AsksReadonly specMount) :
    contains (remountCall specMount).flags MS_REMOUNT = true ∧
      contains (remountCall specMount).flags MS_RDONLY = true := by
  have hro := (parseOptions_readonly _).mpr hasks
  unfold MS_RDONLY at hro ⊢
  unfold MS_REMOUNT
  rw [contains_twoPow (by decide)] at hro ⊢
  rw [contains_twoPow (by decide)]
  have hbit : MS_REMOUNT.getLsbD 5 = true := by decide
  unfold remountCall
  rw [BitVec.getLsbD_or, BitVec.getLsbD_or, hro, hbit]
  simp

/-- Only a call for the place itself changes what is visible there, and it
leaves it read-only. -/
theorem remountOne_place {host : Mounts.Host} {k k' : Kernel} {specMount : Mount}
    {place : List Name} {m : Mnt} (h : remountOne host k specMount = .ok k')
    (hplain : host.Plain (components specMount.destination))
    (hm : visible k.table place = some m) (hplace : m.place = place) :
    k'.root = k.root ∧ k'.cwd = k.cwd ∧ ∃ m', visible k'.table place = some m' ∧
      m'.place = place ∧ (contains m'.flags MS_RDONLY = true ↔
        contains m.flags MS_RDONLY = true ∨
          Acts specMount ∧ k.locate (components specMount.destination) = place) := by
  by_cases hacts : Acts specMount
  · have hmount := remountOne_acts h hacts
    obtain ⟨hremount, hro⟩ := remountCall_flags specMount hacts.2
    have htarget : host.leads k (remountCall specMount).target =
        k.locate (components specMount.destination) := hplain k
    refine ⟨(mount_context hmount).1, (mount_context hmount).2, ?_⟩
    by_cases hhere : k.locate (components specMount.destination) = place
    · refine ⟨_, mount_remounts hmount ⟨hremount, htarget.trans hhere⟩, rfl, ?_⟩
      rw [contains_perMount]
      exact iff_of_true hro (Or.inr ⟨hacts, hhere⟩)
    · refine ⟨m, ?_, hplace, by simp [hhere]⟩
      apply mount_other hmount _ _ hm hplace
      · simp [Call.Covers, hremount]
      · intro hflags
        exact hhere (htarget.symm.trans hflags.2)
  · rw [remountOne_idle h hacts]
    exact ⟨rfl, rfl, m, hm, hplace, by simp [hacts]⟩

theorem remount_place {host : Mounts.Host} {mounts : List Mount} {k k' : Kernel}
    {place : List Name} {m : Mnt} (h : remountReadonlyMounts host mounts k = .ok k')
    (hplain : ∀ specMount ∈ mounts, host.Plain (components specMount.destination))
    (hm : visible k.table place = some m) (hplace : m.place = place) :
    ∃ m', visible k'.table place = some m' ∧ m'.place = place ∧
      (contains m'.flags MS_RDONLY = true ↔
        contains m.flags MS_RDONLY = true ∨
          ∃ other ∈ mounts, Acts other ∧ k.locate (components other.destination) = place) := by
  induction mounts generalizing k m with
  | nil =>
      have hsame : k = k' := pure_eq_ok.mp h
      rw [← hsame]
      exact ⟨m, hm, hplace, by simp⟩
  | cons specMount rest ih =>
      obtain ⟨k₁, hone, hrest⟩ := bind_eq_ok.mp h
      obtain ⟨hroot, hcwd, m₁, hm₁, hplace₁, hflags₁⟩ :=
        remountOne_place hone (hplain specMount List.mem_cons_self) hm hplace
      obtain ⟨m', hm', hplace', hflags⟩ :=
        ih hrest (fun later hlater => hplain later (List.mem_cons_of_mem _ hlater)) hm₁ hplace₁
      refine ⟨m', hm', hplace', ?_⟩
      rw [hflags, hflags₁]
      simp only [locate_context ⟨hroot, hcwd⟩, List.mem_cons, exists_eq_or_imp, or_assoc]

/-! ## Both passes -/

def demoHost : Mounts.Host where
  unifiedCgroup := true
  leads := fun k path => k.locate path
  isFile := fun _ => false
  pathExists := fun _ => false
  linkExists := fun _ => false
  fails := fun _ => false
  refuses := fun _ => false

def demoKernel : Kernel := { root := [], cwd := [], table := [{ place := [], flags := 0 }] }

def volume : Mount where
  destination := "/data"
  typ := some "bind"
  source := some "/srv/data"
  options := some ["rbind", "ro"]

def scratch : Mount where
  destination := "/tmp"
  typ := some "tmpfs"
  source := some "tmpfs"
  options := some ["nosuid", "ro"]

theorem demo_linkless (rootfs : String) (mounts : List Mount) :
    Linkless demoHost demoHost rootfs mounts :=
  ⟨fun _ _ _ => rfl, fun _ _ _ => rfl⟩

end Mars.Harden
