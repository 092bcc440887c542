import Mars.Container.Process

/-! # The capability steps meet no refusal

Each call is checked against the sets the one before left: the bounding set is
cut down while everything is still effective, the change of user empties the
effective set, and the other sets shrink one at a time. The loops go over hash
sets, so their order is a parameter.
-/

namespace Mars.Process
open Spec Credentials Capabilities

/-- The calls of `container_init` in between, for the document's capabilities. -/
def capabilitySequence (dropping raising : CapsCrate) (process : Process)
    (caps : LinuxCapabilities) (c : Creds Capability) : Except Error (Creds Capability) := do
  let c ← dropBounding dropping caps c
  let c ← dropPrivileges process c
  apply raising caps c

/-- `container_init` goes through the sequence where the document lists capabilities. -/
theorem containerInit_eq_sequence {crate : CapsCrate} {process : Process}
    {caps : LinuxCapabilities} (hcaps : process.capabilities = some caps)
    {c r : Creds Capability} :
    containerInit crate process c = .ok r ↔
      ∃ last, capabilitySequence crate crate process caps c = .ok last ∧
        (if process.noNewPrivileges.getD false then setNoNewPrivs last else last) = r := by
  simp only [containerInit_ok, hcaps, capabilitySequence, bind_eq_ok]
  constructor
  · rintro ⟨c₁, c₂, c₃, hbounding, hdrop, happly, hr⟩
    exact ⟨c₃, ⟨c₁, hbounding, c₂, hdrop, happly⟩, hr⟩
  · rintro ⟨c₃, ⟨c₁, hbounding, c₂, hdrop, happly⟩, hr⟩
    exact ⟨c₁, c₂, c₃, hbounding, hdrop, happly, hr⟩

/-! ## Loops that are never refused -/

section loops
variable {crate : CapsCrate} {list : List Capability} {permitted inheritable : Finset Capability}
  {c : Creds Capability}

/-- Dropping takes nothing from the effective set, so no later drop is refused. -/
theorem foldlM_drop_ok (hpriv : Capability.setpcap ∈ c.effective) :
    ∃ r, list.foldlM (fun c cap => drop crate cap c) c = .ok r := by
  induction list generalizing c with
  | nil => exact ⟨c, rfl⟩
  | cons cap rest ih =>
      have hdrop : drop crate cap c = .ok { c with bounding := c.bounding.erase cap } :=
        called_eq_ok.mpr (if_pos hpriv)
      obtain ⟨r, hr⟩ := @ih { c with bounding := c.bounding.erase cap } hpriv
      exact ⟨r, foldlM_cons_eq_ok.mpr ⟨_, hdrop, hr⟩⟩

theorem foldlM_raise_ok (hpermitted : c.permitted = permitted)
    (hinheritable : c.inheritable = inheritable)
    (hlist : ∀ cap ∈ list, cap ∈ permitted ∧ cap ∈ inheritable) :
    ∃ r, list.foldlM (raise crate permitted inheritable) c = .ok r := by
  induction list generalizing c with
  | nil => exact ⟨c, rfl⟩
  | cons cap rest ih =>
      obtain ⟨⟨hcap, hcap'⟩, hrest⟩ := List.forall_mem_cons.mp hlist
      have hraise : raise crate permitted inheritable c cap =
          .ok { c with ambient := insert cap c.ambient } := by
        rw [raise, if_neg (by simp [hcap, hcap']), called_eq_ok, raiseAmbient,
          if_pos ⟨hpermitted ▸ hcap, hinheritable ▸ hcap'⟩]
      obtain ⟨r, hr⟩ := @ih { c with ambient := insert cap c.ambient } hpermitted hinheritable hrest
      exact ⟨r, foldlM_cons_eq_ok.mpr ⟨_, hraise, hr⟩⟩

end loops

/-! ## From one step to the next -/

section steps
variable {crate : CapsCrate} {process : Process} {caps : LinuxCapabilities}
  {c r : Creds Capability}

theorem dropBounding_ok (hpriv : Capability.setpcap ∈ c.effective) :
    ∃ r, dropBounding crate caps c = .ok r := by
  rw [Capabilities.dropBounding, parse_ok]
  exact foldlM_drop_ok hpriv

theorem dropPrivileges_ok (hall : ∀ cap, cap ∈ c.effective) :
    ∃ r, dropPrivileges process c = .ok r := by
  simp only [dropPrivileges, dropPrivilegesBy, plain, id, bind_eq_ok, called_eq_ok, pure_eq_ok]
  have hgroups : setgroups (process.user.additionalGids.getD []) c =
      some { c with groups := process.user.additionalGids.getD [] } := if_pos (hall _)
  by_cases hleave : c.uid = 0 ∧ process.user.uid ≠ 0
  · refine ⟨_, _, hgroups, _, if_pos (.inl ?_), _, if_pos (.inl ?_), rfl⟩
    · simpa [hleave, setKeepCaps] using hall _
    · simpa [hleave, setKeepCaps] using hall _
  · refine ⟨_, _, hgroups, _, if_pos (.inl ?_), _, if_pos (.inl ?_), rfl⟩
    · simpa [hleave] using hall _
    · simpa [hleave] using hall _

/-- The subset relations the kernel asks for between the document's sets. -/
structure Allowed (caps : LinuxCapabilities) : Prop where
  effective : wanted caps.effective ⊆ wanted caps.permitted
  inheritable : wanted caps.inheritable ⊆ wanted caps.permitted
  bounding : wanted caps.inheritable ⊆ wanted caps.bounding
  ambient : wanted caps.ambient ⊆ wanted caps.inheritable

/-- What a call of `capset` leaves. -/
def afterCapset (effective permitted inheritable : Finset Capability) (c : Creds Capability) :
    Creds Capability :=
  { c with effective, permitted, inheritable, ambient := c.ambient ∩ permitted ∩ inheritable }

theorem capset_within {effective permitted inheritable : Finset Capability}
    (hheld : inheritable ⊆ c.inheritable ∪ c.permitted)
    (hbounding : inheritable ⊆ c.inheritable ∪ c.bounding) (hpermitted : permitted ⊆ c.permitted)
    (heffective : effective ⊆ permitted) :
    capset effective permitted inheritable c =
      some (afterCapset effective permitted inheritable c) :=
  if_pos ⟨.inr hheld, hbounding, hpermitted, heffective⟩

/-- Effective shrinks within the old permitted set, permitted down to no less than
the new effective set, and inheritable grows within permitted and bounding. -/
theorem apply_ok (h : Allowed caps) (hall : ∀ cap, cap ∈ c.permitted)
    (hbounding : c.bounding = wanted caps.bounding) :
    ∃ r, apply crate caps c = .ok r := by
  have hkept : ∀ set : Finset Capability, c.inheritable ⊆ c.inheritable ∪ set :=
    fun _ => Finset.subset_union_left
  let c₁ := afterCapset (wanted caps.effective) c.permitted c.inheritable c
  let c₂ := afterCapset (wanted caps.effective) (wanted caps.permitted) c.inheritable c₁
  let c₃ := afterCapset (wanted caps.effective) (wanted caps.permitted) (wanted caps.inheritable) c₂
  have hset₁ : capset (wanted caps.effective) c.permitted c.inheritable c = some c₁ :=
    capset_within (hkept _) (hkept _) (Finset.Subset.refl _) fun cap _ => hall cap
  have hset₂ : capset c₁.effective (wanted caps.permitted) c₁.inheritable c₁ = some c₂ :=
    capset_within (hkept _) (hkept _) (fun cap _ => hall cap) h.effective
  have hset₃ : capset c₂.effective c₂.permitted (wanted caps.inheritable) c₂ = some c₃ := by
    refine capset_within (h.inheritable.trans Finset.subset_union_right) ?_
      (Finset.Subset.refl _) h.effective
    have hbound : wanted caps.inheritable ⊆ c₂.bounding := by
      rw [show c₂.bounding = wanted caps.bounding from hbounding]
      exact h.bounding
    exact hbound.trans Finset.subset_union_right
  have hraise : ∀ cap ∈ crate.list (wanted caps.ambient),
      cap ∈ wanted caps.permitted ∧ cap ∈ wanted caps.inheritable := by
    intro cap hcap
    have hinheritable := h.ambient ((crate.mem_list _ cap).mp hcap)
    exact ⟨h.inheritable hinheritable, hinheritable⟩
  obtain ⟨r, hr⟩ := foldlM_raise_ok (c := clearAmbient c₃) rfl rfl hraise
  refine ⟨r, ?_⟩
  rw [apply, parse_ok, parse_ok, parse_ok, parse_ok]
  change (if _ then _ else _) = _
  rw [if_neg (not_not.mpr h.effective)]
  simp only [bind_eq_ok, setEffective, setPermitted, setInheritable, called_eq_ok]
  exact ⟨c₁, hset₁, c₂, hset₂, c₃, hset₃, hr⟩

end steps

/-! ## The whole sequence -/

/-- A root process that has everything and passes nothing on. -/
structure FullRoot (c : Creds Capability) : Prop where
  uid : c.uid = 0
  bounding : ∀ cap, cap ∈ c.bounding
  permitted : ∀ cap, cap ∈ c.permitted
  effective : ∀ cap, cap ∈ c.effective
  inheritable : c.inheritable = ∅
  ambient : c.ambient = ∅

/-- The five sets are the document's. -/
structure Exact (caps : LinuxCapabilities) (c : Creds Capability) : Prop where
  bounding : c.bounding = wanted caps.bounding
  effective : c.effective = wanted caps.effective
  permitted : c.permitted = wanted caps.permitted
  inheritable : c.inheritable = wanted caps.inheritable
  ambient : c.ambient = wanted caps.ambient

theorem inter_wanted {c : Creds Capability} (h : FullRoot c) (names : Option (List Capability)) :
    c.bounding ∩ wanted names = wanted names :=
  Finset.inter_eq_right.mpr fun cap _ => h.bounding cap

/-- With sets the kernel allows no call is refused, whoever the process becomes and
however the sets are iterated over; and nothing but the document's sets is left. -/
theorem capabilitySequence_exact (dropping raising : CapsCrate) (process : Process)
    (caps : LinuxCapabilities) (c : Creds Capability) (hroot : FullRoot c) :
    (Allowed caps → ∃ r, capabilitySequence dropping raising process caps c = .ok r) ∧
      ∀ r, capabilitySequence dropping raising process caps c = .ok r → Exact caps r := by
  constructor
  · intro hallowed
    obtain ⟨c₁, hc₁⟩ := @dropBounding_ok dropping caps c (hroot.effective _)
    obtain rfl := dropBounding_eq hc₁
    obtain ⟨c₂, hc₂⟩ := @dropPrivileges_ok process
      { c with bounding := c.bounding ∩ wanted caps.bounding } hroot.effective
    obtain ⟨-, -, -, hbounding, hpermitted, -⟩ := dropPrivileges_eq hc₂
    have hall : ∀ cap, cap ∈ c₂.permitted := fun cap => hpermitted ▸ hroot.permitted cap
    obtain ⟨r, hr⟩ := @apply_ok raising caps c₂ hallowed hall
      (hbounding.trans (inter_wanted hroot _))
    refine ⟨r, ?_⟩
    simp only [capabilitySequence, bind_eq_ok]
    exact ⟨_, hc₁, c₂, hc₂, hr⟩
  · intro r h
    simp only [capabilitySequence, bind_eq_ok] at h
    obtain ⟨c₁, hdrop, c₂, hprivileges, happly⟩ := h
    have hbounding : c₂.bounding = c₁.bounding := (dropPrivileges_eq hprivileges).2.2.2.1
    rw [dropBounding_eq hdrop, inter_wanted hroot] at hbounding
    rw [apply_eq happly]
    exact ⟨hbounding, rfl, rfl, rfl, rfl⟩

def fullRoot : Creds Capability where
  uid := 0
  gid := 0
  groups := []
  bounding := Capability.all.toFinset
  permitted := Capability.all.toFinset
  effective := Capability.all.toFinset
  inheritable := ∅
  ambient := ∅
  keepCaps := false
  noNewPrivs := false

theorem fullRoot_full : FullRoot fullRoot :=
  ⟨rfl, fun cap => List.mem_toFinset.mpr cap.mem_all, fun cap => List.mem_toFinset.mpr cap.mem_all,
    fun cap => List.mem_toFinset.mpr cap.mem_all, rfl, rfl⟩

def serviceCaps : LinuxCapabilities where
  bounding := some [.kill, .netBindService]
  effective := some [.netBindService]
  inheritable := some [.netBindService]
  permitted := some [.netBindService, .kill]
  ambient := some [.netBindService]

def service : Process where
  terminal := none
  user := ⟨1000, 1000, none, some [7]⟩
  args := some ["/bin/server"]
  env := none
  cwd := "/"
  capabilities := some serviceCaps
  noNewPrivileges := some true

theorem capabilitySequence_exact_service :
    ∃ r, capabilitySequence byNumber byNumber service serviceCaps fullRoot = .ok r ∧
      Exact serviceCaps r := by
  have hsequence :=
    capabilitySequence_exact byNumber byNumber service serviceCaps fullRoot fullRoot_full
  obtain ⟨r, hr⟩ := hsequence.1 ⟨by decide, by decide, by decide, by decide⟩
  exact ⟨r, hr, hsequence.2 r hr⟩

end Mars.Process
