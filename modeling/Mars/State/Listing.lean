import Mars.State.Clock
import Mars.State.Format

/-! # Containers are listed as they were created

`list` sorts by the text of the instant, so the order of the texts stands for that of
the instants.
-/

namespace Mars.Listing
open Clock State Store Paths FileStore

section listing

/-- The container's record has the text of the instant. -/
structure CreatedAt (container : Container) (instant : Int) : Prop where
  late : 0 ≤ instant
  early : instant < endOf9999
  text : nowRfc3339 instant = some container.state.created

theorem CreatedAt.le {a b : Container} {t u : Int} (ha : CreatedAt a t) (hb : CreatedAt b u)
    (h : a.state.created ≤ b.state.created) : t ≤ u := by
  by_contra hlater
  obtain ⟨first, second, hfirst, hsecond, hlt⟩ :=
    text_strictMono hb.late (not_le.mp hlater) ha.early
  obtain rfl : b.state.created = first := Option.some.inj (hb.text.symm.trans hfirst)
  obtain rfl : a.state.created = second := Option.some.inj (ha.text.symm.trans hsecond)
  exact absurd hlt (String.not_lt.mpr h)

end listing

/-- Up to the year 9999 a later instant has a greater text, and so `list` returns the
containers it finds by the instants they were created at. -/
theorem list_by_creation :
    (∀ t u : Int, 0 ≤ t → t < u → u < endOf9999 → ∃ first second,
      nowRfc3339 t = some first ∧ nowRfc3339 u = some second ∧ first < second) ∧
    ∀ (serde : Serde) (files : Files) (layout : Layout) (entries : ReadDir)
      (containers : List Container) (instant : Container → Int),
      list serde files layout entries = .ok containers →
      (∀ container ∈ containers, CreatedAt container (instant container)) →
      containers.Pairwise (fun a b => instant a ≤ instant b) ∧
        (isDir files (UnixPath.components layout.root) = true → ∃ all, entries = some all ∧
          containers.Perm (found serde files layout all.reduceOption)) := by
  refine ⟨fun t u hmin h hmax => text_strictMono hmin h hmax, ?_⟩
  intro serde files layout entries containers instant hlist hcreated
  refine ⟨(list_sorted hlist).imp_of_mem fun ha hb h => (hcreated _ ha).le (hcreated _ hb) h, ?_⟩
  intro hroot
  obtain ⟨hmissing, -⟩ | ⟨-, all, rfl, -, rfl⟩ := list_eq_ok.mp hlist
  · rw [hroot] at hmissing
    cases hmissing
  · exact ⟨all, rfl, List.mergeSort_perm _ _⟩

/-! ## Two containers -/

/-- The later one's name comes first. -/
def laterState : Persisted := { demoState "2026-02-25T06:13:20.000000001Z" with id := "a" }

def earlierState : Persisted := { demoState "2001-09-09T01:46:40.000000000Z" with id := "b" }

def oneFiles : Files := (save serde demoFiles demoLayout laterState [] .runs).1

def twoFiles : Files := (save serde oneFiles demoLayout earlierState [] .runs).1

def instantOf (container : Container) : Int :=
  if container.state.id = "a" then 1772000000000000001 else 1000000000000000000

theorem found_two : found serde twoFiles demoLayout ["a", "b"] =
    [⟨demoLayout, laterState⟩, ⟨demoLayout, earlierState⟩] := by
  have hlater : (save serde demoFiles demoLayout laterState [] .runs).2 = some (.ok ()) := by
    decide +kernel
  have hearlier : (save serde oneFiles demoLayout earlierState [] .runs).2 = some (.ok ()) := by
    decide +kernel
  have hone : save serde demoFiles demoLayout laterState [] .runs = (oneFiles, some (.ok ())) :=
    Prod.ext (by rw [oneFiles]) hlater
  have htwo : save serde oneFiles demoLayout earlierState [] .runs = (twoFiles, some (.ok ())) :=
    Prod.ext (by rw [twoFiles]) hearlier
  obtain ⟨hone, hfirst⟩ := tidy_demo.saved serde_roundTrips (by decide) (by decide) hone
  obtain ⟨htwo, hsecond⟩ := hone.saved serde_roundTrips (by decide) (by decide) htwo
  have ha : recordsOf serde demoLayout twoFiles "a" = some laterState := by
    rw [hsecond, hfirst, Function.update_of_ne (by decide)]
    exact Function.update_self "a" _ _
  have hb : recordsOf serde demoLayout twoFiles "b" = some earlierState := by
    rw [hsecond]
    exact Function.update_self "b" _ _
  have ha := (htwo.recordsOf_eq_some.mp ha).2
  have hb := (htwo.recordsOf_eq_some.mp hb).2
  rw [found_cons ha, found_cons hb, found, List.filterMap_nil]

theorem list_by_creation_two :
    (∃ first second, nowRfc3339 999999999 = some first ∧ nowRfc3339 1000000000 = some second ∧
      first < second) ∧
    ∃ containers, list serde twoFiles demoLayout (some [some "a", some "b"]) = .ok containers ∧
      containers.Pairwise (fun a b => instantOf a ≤ instantOf b) ∧
      containers.Perm [⟨demoLayout, laterState⟩, ⟨demoLayout, earlierState⟩] := by
  have hlate : (1772000000000000001 : Int) < endOf9999 := by
    rw [endOf9999, yearStart_10000]
    decide
  have hroot : isDir twoFiles (UnixPath.components demoLayout.root) = true := by decide +kernel
  have hlist : list serde twoFiles demoLayout (some [some "a", some "b"]) =
      .ok ((found serde twoFiles demoLayout ["a", "b"]).mergeSort
        fun a b => a.state.created ≤ b.state.created) :=
    list_eq_ok.mpr (.inr ⟨hroot, _, rfl, by decide, rfl⟩)
  have hcreated : ∀ container ∈ (found serde twoFiles demoLayout ["a", "b"]).mergeSort
      (fun a b => a.state.created ≤ b.state.created), CreatedAt container (instantOf container) := by
    intro container hmem
    rw [List.mem_mergeSort, found_two] at hmem
    simp only [List.mem_cons, List.not_mem_nil, or_false] at hmem
    rcases hmem with rfl | rfl
    · exact ⟨by decide, hlate, by decide +kernel⟩
    · exact ⟨by decide, (show instantOf ⟨demoLayout, earlierState⟩ < 1772000000000000001 by
        decide +kernel).trans hlate, by decide +kernel⟩
  obtain ⟨hsorted, hperm⟩ := list_by_creation.2 _ _ _ _ _ instantOf hlist hcreated
  obtain ⟨all, hall, hperm⟩ := hperm hroot
  obtain rfl := Option.some.inj hall
  refine ⟨list_by_creation.1 _ _ (by decide) (by decide) ?_, _, hlist, hsorted, ?_⟩
  · exact (show (1000000000 : Int) < 1772000000000000001 by decide).trans hlate
  · exact found_two ▸ hperm

end Mars.Listing
