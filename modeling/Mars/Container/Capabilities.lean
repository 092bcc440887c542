import Mathlib.Data.Finset.Dedup
import Mathlib.Data.Finset.Lattice.Lemmas
import Mathlib.Tactic.Tauto
import Mars.Core.Credentials
import Mars.Error
import Mars.Spec

/-! # The capability steps of the init path

The document's lists are parsed through the kernel's spelling of each name.
The bounding set loses what the document leaves out; the other sets are set
one after another, so each `capset` is checked against what the one before
left. The loops go over hash sets, so their order is a parameter, as are the words
of the crate that makes the calls.
-/

namespace Mars.Capabilities
open Spec Credentials

instance : Privileged Capability := ⟨.setuid, .setgid, .setpcap⟩

/-! ## Names -/

def specName (cap : Capability) : String := cap.name

def fromStr (name : String) : Option Capability := Capability.all.find? (·.name == name)

theorem fromStr_specName (cap : Capability) : fromStr (specName cap) = some cap := by
  cases cap <;> decide

def parseOne (cap : Capability) : Except Error Capability :=
  called (fromStr (specName cap)) (.invalid ("process.capabilities lists " ++ specName cap ++
    ", which this kernel's capability set does not contain"))

def parse (names : Option (List Capability)) : Except Error (Finset Capability) :=
  (names.getD []).foldlM (fun set name => (parseOne name).map fun cap => insert cap set) ∅

/-- The capabilities a list names. -/
def wanted (names : Option (List Capability)) : Finset Capability := (names.getD []).toFinset

/-! ## The crate -/

/-- How a hash set comes out when it is iterated over, and what a function that is refused
says. -/
structure CapsCrate where
  list : Finset Capability → List Capability
  nodup : ∀ set, (list set).Nodup
  mem_list : ∀ set cap, cap ∈ list set ↔ cap ∈ set
  error : String → String

/-- In the order in which the kernel numbers them. -/
def byNumber : CapsCrate where
  list set := Capability.all.filter (· ∈ set)
  nodup set := List.Nodup.filter _ (by decide +kernel)
  mem_list set cap := by simp [Capability.mem_all]
  error function := function ++ ": Operation not permitted (os error 1)"

/-! ## The steps -/

def debugNames (caps : List Capability) : String :=
  "[" ++ ", ".intercalate (caps.map Capability.name) ++ "]"

def setError (crate : CapsCrate) (which : String) : Error :=
  .invalid ("set the " ++ which ++ " capability set: " ++ crate.error "set")

def drop (crate : CapsCrate) (cap : Capability) (c : Creds Capability) :
    Except Error (Creds Capability) :=
  called (Credentials.dropBounding cap c) (.invalid ("drop " ++ cap.name ++
    " from the bounding set: " ++ crate.error "drop" ++
    "; this needs CAP_SETPCAP and must happen before setuid"))

def dropBounding (crate : CapsCrate) (spec : LinuxCapabilities) (c : Creds Capability) :
    Except Error (Creds Capability) := do
  let wanted ← parse spec.bounding
  (crate.list (c.bounding \ wanted)).foldlM (fun c cap => drop crate cap c) c

def setEffective (crate : CapsCrate) (caps : Finset Capability) (c : Creds Capability) :
    Except Error (Creds Capability) :=
  called (capset caps c.permitted c.inheritable c) (setError crate "Effective")

def setPermitted (crate : CapsCrate) (caps : Finset Capability) (c : Creds Capability) :
    Except Error (Creds Capability) :=
  called (capset c.effective caps c.inheritable c) (setError crate "Permitted")

def setInheritable (crate : CapsCrate) (caps : Finset Capability) (c : Creds Capability) :
    Except Error (Creds Capability) :=
  called (capset c.effective c.permitted caps c) (setError crate "Inheritable")

def raise (crate : CapsCrate) (permitted inheritable : Finset Capability) (c : Creds Capability)
    (cap : Capability) : Except Error (Creds Capability) :=
  if cap ∉ permitted ∨ cap ∉ inheritable then
    .error (.invalid (cap.name ++ " is in process.capabilities.ambient but not in both " ++
      "permitted and inheritable; the kernel refuses to raise it"))
  else
    called (raiseAmbient cap c)
      (.invalid ("raise " ++ cap.name ++ " into ambient: " ++ crate.error "raise"))

def apply (crate : CapsCrate) (spec : LinuxCapabilities) (c : Creds Capability) :
    Except Error (Creds Capability) := do
  let permitted ← parse spec.permitted
  let effective ← parse spec.effective
  let inheritable ← parse spec.inheritable
  let ambient ← parse spec.ambient
  if ¬ effective ⊆ permitted then
    .error (.invalid ("process.capabilities.effective has " ++
      debugNames (crate.list (effective \ permitted)) ++
      " which is not in permitted; the kernel              requires effective to be a subset " ++
      "of permitted"))
  else
    let c ← setEffective crate effective c
    let c ← setPermitted crate permitted c
    let c ← setInheritable crate inheritable c
    (crate.list ambient).foldlM (raise crate permitted inheritable) (clearAmbient c)

/-! ## What they leave -/

theorem parseOne_ok (cap : Capability) : parseOne cap = .ok cap := by
  simp [parseOne, called, fromStr_specName]

/-- Every list the spec can hold parses. -/
theorem parse_ok (names : Option (List Capability)) : parse names = .ok (wanted names) := by
  have hfold : ∀ (list : List Capability) (set : Finset Capability),
      list.foldlM (fun set name => (parseOne name).map fun cap => insert cap set) set =
        (.ok (set ∪ list.toFinset) : Except Error _) := by
    intro list
    induction list with
    | nil => intro set; simp [pure, Except.pure]
    | cons name rest ih =>
        intro set
        rw [List.foldlM_cons, parseOne_ok]
        show rest.foldlM _ (insert name set) = _
        rw [ih]
        simp [Finset.insert_union, Finset.union_insert]
  rw [parse, hfold, Finset.empty_union, wanted]

section leave
variable {crate : CapsCrate}

/-- A loop of drops removes what it lists and nothing else. -/
theorem foldlM_drop {list : List Capability} {c r : Creds Capability}
    (h : list.foldlM (fun c cap => drop crate cap c) c = .ok r) :
    r = { c with bounding := c.bounding.filter (· ∉ list) } := by
  induction list generalizing c with
  | nil =>
      obtain rfl : c = r := by simpa [pure, Except.pure] using h
      simp
  | cons cap rest ih =>
      rw [List.foldlM_cons, bind_eq_ok] at h
      obtain ⟨c', hdrop, hrest⟩ := h
      rw [drop, called_eq_ok] at hdrop
      obtain rfl := dropBounding_eq_some hdrop
      rw [ih hrest]
      congr 1
      ext x
      simp only [Finset.mem_filter, Finset.mem_erase, List.mem_cons]
      tauto

/-- Where all that is not kept is dropped, what is kept is left. -/
theorem drops_leave {list : List Capability} {kept : Finset Capability} {c r : Creds Capability}
    (hlist : ∀ cap ∈ c.bounding, cap ∈ list ↔ cap ∉ kept)
    (h : list.foldlM (fun c cap => drop crate cap c) c = .ok r) :
    r = { c with bounding := c.bounding ∩ kept } := by
  rw [foldlM_drop h]
  congr 1
  ext cap
  rw [Finset.mem_filter, Finset.mem_inter]
  exact and_congr_right fun hcap => by rw [hlist cap hcap, not_not]

theorem dropBounding_eq {spec : LinuxCapabilities} {c r : Creds Capability}
    (h : dropBounding crate spec c = .ok r) :
    r = { c with bounding := c.bounding ∩ wanted spec.bounding } := by
  rw [dropBounding, parse_ok] at h
  exact drops_leave (fun cap hcap => by simp [crate.mem_list, hcap]) h

theorem foldlM_raise {permitted inheritable : Finset Capability} {list : List Capability}
    {c r : Creds Capability} (h : list.foldlM (raise crate permitted inheritable) c = .ok r) :
    r = { c with ambient := c.ambient ∪ list.toFinset } := by
  induction list generalizing c with
  | nil =>
      obtain rfl : c = r := by simpa [pure, Except.pure] using h
      simp
  | cons cap rest ih =>
      rw [List.foldlM_cons, bind_eq_ok] at h
      obtain ⟨c', hraise, hrest⟩ := h
      unfold raise at hraise
      split at hraise
      next => cases hraise
      next =>
        rw [called_eq_ok] at hraise
        obtain rfl := raiseAmbient_eq_some hraise
        rw [ih hrest]
        simp [Finset.insert_union, Finset.union_insert]

/-- A run of `apply` that succeeds leaves the four sets of the document. -/
theorem apply_eq {spec : LinuxCapabilities} {c r : Creds Capability}
    (h : apply crate spec c = .ok r) :
    r = { c with
      effective := wanted spec.effective
      permitted := wanted spec.permitted
      inheritable := wanted spec.inheritable
      ambient := wanted spec.ambient } := by
  rw [apply, parse_ok, parse_ok, parse_ok, parse_ok] at h
  change (if _ then _ else _) = _ at h
  split at h
  next => cases h
  next =>
    simp only [bind_eq_ok, setEffective, setPermitted, setInheritable, called_eq_ok] at h
    obtain ⟨c₁, hset₁, c₂, hset₂, c₃, hset₃, hraise⟩ := h
    obtain rfl := capset_eq_some hset₁
    obtain rfl := capset_eq_some hset₂
    obtain rfl := capset_eq_some hset₃
    rw [foldlM_raise hraise]
    simp only [clearAmbient, Finset.empty_union]
    congr 1
    ext cap
    rw [List.mem_toFinset, crate.mem_list]

end leave

end Mars.Capabilities
