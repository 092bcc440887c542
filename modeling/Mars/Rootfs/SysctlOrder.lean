import Mars.Rootfs.Sysctl
import Mathlib.Data.List.Perm.Basic
import Mathlib.Logic.Function.Basic

/-! # The order of the sysctls

The settings are a hash map, and a run goes through them in some order. Each file
under `/proc/sys` is taken for a cell that holds what was written last. Dots and
slashes of a key lead to one file, so different keys may mean the same cell.
-/

namespace Mars.Sysctl
open Spec UnixPath

/-! ## Cells -/

/-- One file, whichever text leads to it. -/
abbrev Cell := List Component

abbrev Cells := Cell → String

def store (cells : Cells) : Setting → Cells
  | .sysctl path value => Function.update cells (components path) value
  | _ => cells

/-- The cells after a run that goes through the settings in this order. -/
def contents (accepts : Setting → Bool) (start : Cells) (order : List (String × String)) : Cells :=
  (apply accepts order).1.foldl store start

/-- Every order leaves the same behind. -/
def Deterministic (accepts : Setting → Bool) (settings : List (String × String)) : Prop :=
  ∀ order, order.Perm settings →
    ∀ start, contents accepts start order = contents accepts start settings

/-- No two keys that lead to one file have different values. -/
def Consistent (settings : List (String × String)) : Prop :=
  ∀ a ∈ settings, ∀ b ∈ settings, ∀ p q, resolve a.1 = .ok p → resolve b.1 = .ok q →
    SameEntry p q → a.2 = b.2

/-! ## A run that succeeds -/

variable {accepts : Setting → Bool} {settings order : List (String × String)}

def settingOf (entry : String × String) : Setting := .sysctl (join BASE (slashed entry.1)) entry.2

def Applies (accepts : Setting → Bool) (entry : String × String) : Prop :=
  resolve entry.1 = .ok (join BASE (slashed entry.1)) ∧ accepts (settingOf entry) = true

theorem applies_of_ok (h : (apply accepts order).2 = .ok ()) :
    ∀ entry ∈ order, Applies accepts entry := by
  induction order with
  | nil => exact fun entry hentry => absurd hentry List.not_mem_nil
  | cons first rest ih =>
      obtain ⟨key, value⟩ := first
      rw [apply] at h
      split at h
      next => cases h
      next path hpath =>
        unfold set at h
        split at h
        next hok =>
          obtain rfl := (resolve_eq_ok.mp hpath).2.2
          intro entry hentry
          rcases List.mem_cons.mp hentry with rfl | hrest
          · exact ⟨hpath, hok⟩
          · exact ih h entry hrest
        next => cases h

theorem apply_of_applies (h : ∀ entry ∈ order, Applies accepts entry) :
    apply accepts order = (order.map settingOf, .ok ()) := by
  induction order with
  | nil => rfl
  | cons first rest ih =>
      obtain ⟨hresolve, hok⟩ := h first List.mem_cons_self
      have hrest := ih fun entry hentry => h entry (List.mem_cons_of_mem _ hentry)
      obtain ⟨key, value⟩ := first
      rw [apply, hresolve]
      simp only [set, hrest]
      rw [settingOf] at hok
      rw [if_pos hok]
      rfl

theorem contents_eq (h : ∀ entry ∈ order, Applies accepts entry) (start : Cells) :
    contents accepts start order =
      order.foldl (fun cells entry => store cells (settingOf entry)) start := by
  rw [contents, apply_of_applies h, List.foldl_map]

/-! ## Orders -/

/-- Writes to different files, or of the same value, may change places. -/
theorem store_comm {p q value later : String} (h : SameEntry p q → value = later) (cells : Cells) :
    store (store cells (.sysctl p value)) (.sysctl q later) =
      store (store cells (.sysctl q later)) (.sysctl p value) := by
  simp only [store]
  by_cases hsame : components p = components q
  · rw [h hsame, hsame]
  · exact Function.update_comm hsame value later cells

/-- The entry that comes last is what its file holds. -/
theorem contents_last {a : String × String} (h : ∀ entry ∈ order ++ [a], Applies accepts entry)
    (start : Cells) :
    contents accepts start (order ++ [a]) (components (join BASE (slashed a.1))) = a.2 := by
  rw [contents_eq h, List.foldl_append, List.foldl_cons, List.foldl_nil, settingOf, store,
    Function.update_self]

theorem consistent_of_deterministic (h : (apply accepts settings).2 = .ok ())
    (hsame : Deterministic accepts settings) : Consistent settings := by
  have happlies := applies_of_ok h
  have hlast : ∀ e ∈ settings, ∀ start,
      contents accepts start settings (components (join BASE (slashed e.1))) = e.2 := by
    intro e he start
    have hperm : (settings.erase e ++ [e]).Perm settings :=
      (List.perm_append_singleton e _).trans (List.perm_cons_erase he).symm
    rw [← hsame _ hperm start]
    exact contents_last (fun entry hentry => happlies entry (hperm.mem_iff.mp hentry)) start
  intro a ha b hb p q hp hq hentry
  obtain rfl := (resolve_eq_ok.mp hp).2.2
  obtain rfl := (resolve_eq_ok.mp hq).2.2
  rw [← hlast a ha fun _ => "", ← hlast b hb fun _ => "",
    show components (join BASE (slashed a.1)) = _ from hentry]

theorem deterministic_of_consistent (h : (apply accepts settings).2 = .ok ())
    (hagree : Consistent settings) : Deterministic accepts settings := by
  have happlies := applies_of_ok h
  intro order hperm start
  have horder : ∀ entry ∈ order, Applies accepts entry :=
    fun entry hentry => happlies entry (hperm.mem_iff.mp hentry)
  rw [contents_eq horder, contents_eq happlies]
  apply hperm.foldl_eq'
  intro a ha b hb cells
  exact store_comm (hagree a (hperm.mem_iff.mp ha) b (hperm.mem_iff.mp hb) _ _ (horder a ha).1
    (horder b hb).1) cells

/-- The files hold the same after every order exactly when keys for one file agree. -/
theorem deterministic_iff (h : (apply accepts settings).2 = .ok ()) :
    Deterministic accepts settings ↔ Consistent settings :=
  ⟨consistent_of_deterministic h, deterministic_of_consistent h⟩

theorem deterministic_two :
    (apply (fun _ => true) [("net.ipv4.ip_forward", "1"), ("kernel/domainname", "guest")]).2 =
        .ok () ∧
      (Deterministic (fun _ => true)
          [("net.ipv4.ip_forward", "1"), ("kernel/domainname", "guest")] ↔
        Consistent [("net.ipv4.ip_forward", "1"), ("kernel/domainname", "guest")]) := by
  have hok : (apply (fun _ => true)
      [("net.ipv4.ip_forward", "1"), ("kernel/domainname", "guest")]).2 = .ok () := by
    decide +kernel
  exact ⟨hok, deterministic_iff hok⟩

/-- Two keys for one file. -/
def spellings : List (String × String) :=
  [("net.ipv4.ip_forward", "0"), ("net/ipv4/ip_forward", "1")]

theorem spellings_race : (apply (fun _ => true) spellings).2 = .ok () ∧
    ¬ Deterministic (fun _ => true) spellings := by
  have hok : (apply (fun _ => true) spellings).2 = .ok () := by decide +kernel
  refine ⟨hok, fun hsame => ?_⟩
  have hdots : resolve "net.ipv4.ip_forward" = .ok "/proc/sys/net/ipv4/ip_forward" := by
    decide +kernel
  have hslashes : resolve "net/ipv4/ip_forward" = .ok "/proc/sys/net/ipv4/ip_forward" := by
    decide +kernel
  have hvalues := consistent_of_deterministic hok hsame ("net.ipv4.ip_forward", "0")
    List.mem_cons_self ("net/ipv4/ip_forward", "1")
    (List.mem_cons_of_mem _ List.mem_cons_self) _ _ hdots hslashes rfl
  exact absurd hvalues (by decide)

end Mars.Sysctl
