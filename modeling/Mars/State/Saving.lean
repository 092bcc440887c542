import Mars.Core.JsonPrefix
import Mars.Core.OpenFiles
import Mars.State.Format

/-! # Several saves at once

Nothing keeps two saves of one container apart: they write the same staged file, and
one can rename it while the other has it open, or has left it half written. As long as
no save opens the file while another one writes to it, a reader still gets one record
or none.
-/

namespace Mars.Saving
open State Store OpenFiles Transition

inductive Entry where
  | state
  | staged
  deriving DecidableEq

instance entryFintype : Fintype Entry where
  elems := {.state, .staged}
  complete := by
    intro entry
    cases entry <;> decide

/-- A save, step by step; a file it has open it keeps by its number. -/
inductive Saver where
  | idle
  | dirMade
  | staging (n : Nat) (front back : List Char)
  | written
  | saved
  /-- The record has no text. -/
  | unprintable
  | noStaged
  | notRenamed
  | dead (whole : Bool)
  deriving DecidableEq

/-- It has written all of its text. -/
def Saver.whole : Saver → Bool
  | .staging _ _ [] | .written | .saved | .notRenamed => true
  | .dead whole => whole
  | _ => false

inductive Reader where
  | idle
  | reading (n : Nat) (before : List Char)
  | loaded (answer : Except Error Persisted)

structure World (ι κ : Type) where
  dir : Dir Entry Char
  savers : ι → Saver
  readers : κ → Reader

/-- Each write and each read goes as far as it does. -/
inductive Event (ι κ : Type) where
  | createDir (i : ι)
  | stage (i : ι)
  | write (i : ι) (length : Nat)
  | close (i : ι)
  | rename (i : ι)
  | die (i : ι)
  | openState (j : κ)
  | read (j : κ) (length : Nat)
  /-- A deletion goes through the directory. -/
  | unlink (entry : Entry)
  | removeDir

section step
variable {ι κ : Type} [DecidableEq ι] [DecidableEq κ]

def World.setSaver (w : World ι κ) (i : ι) (saver : Saver) : World ι κ :=
  { w with savers := Function.update w.savers i saver }

def World.setReader (w : World ι κ) (j : κ) (reader : Reader) : World ι κ :=
  { w with readers := Function.update w.readers j reader }

/-- `create_dir_all`; the directories above are there. -/
def createDir (w : World ι κ) (i : ι) : Option (World ι κ) :=
  match w.savers i with
  | .idle => some ({ w with dir := w.dir.make }.setSaver i .dirMade)
  | _ => none

/-- The text comes first, then the file for it. -/
def stage (serde : Serde) (states : ι → Persisted) (w : World ι κ) (i : ι) :
    Option (World ι κ) :=
  match w.savers i with
  | .dirMade =>
      match serde.toStringPretty (states i) with
      | none => some (w.setSaver i .unprintable)
      | some text =>
          match w.dir.create .staged with
          | some (n, dir) => some ({ w with dir }.setSaver i (.staging n [] text.toList))
          | none => some (w.setSaver i .noStaged)
  | _ => none

def write (w : World ι κ) (i : ι) (length : Nat) : Option (World ι κ) :=
  match w.savers i with
  | .staging n front back =>
      if 0 < length ∧ back ≠ [] then
        some ({ w with dir := w.dir.write '\x00' n front.length (back.take length) }.setSaver i
          (.staging n (front ++ back.take length) (back.drop length)))
      else none
  | _ => none

def close (w : World ι κ) (i : ι) : Option (World ι κ) :=
  match w.savers i with
  | .staging _ _ [] => some (w.setSaver i .written)
  | _ => none

def rename (w : World ι κ) (i : ι) : Option (World ι κ) :=
  match w.savers i with
  | .written =>
      match w.dir.rename .staged .state with
      | some dir => some ({ w with dir }.setSaver i .saved)
      | none => some (w.setSaver i .notRenamed)
  | _ => none

def openState (id : String) (w : World ι κ) (j : κ) : Option (World ι κ) :=
  match w.readers j with
  | .idle =>
      match w.dir.names .state with
      | some n => some (w.setReader j (.reading n []))
      | none => some (w.setReader j (.loaded (.error (.notFound id))))
  | _ => none

/-- Until there is nothing more. -/
def read (serde : Serde) (w : World ι κ) (j : κ) (length : Nat) : Option (World ι κ) :=
  match w.readers j with
  | .reading n before =>
      if length = 0 then none
      else
        match w.dir.read n before.length length with
        | [] =>
            match serde.fromStr (String.ofList before) with
            | some state => some (w.setReader j (.loaded (.ok state)))
            | none => some (w.setReader j (.loaded (.error .json)))
        | more => some (w.setReader j (.reading n (before ++ more)))
  | _ => none

def step (serde : Serde) (id : String) (states : ι → Persisted) (w : World ι κ) :
    Event ι κ → Option (World ι κ)
  | .createDir i => createDir w i
  | .stage i => stage serde states w i
  | .write i length => write w i length
  | .close i => close w i
  | .rename i => rename w i
  | .die i => some (w.setSaver i (.dead (w.savers i).whole))
  | .openState j => openState id w j
  | .read j length => read serde w j length
  | .unlink entry => (w.dir.unlink entry).map fun dir => { w with dir }
  | .removeDir => w.dir.remove.map fun dir => { w with dir }

def start : World ι κ where
  dir := { present := false, names := fun _ => none, data := fun _ => [], next := 0 }
  savers := fun _ => .idle
  readers := fun _ => .idle

/-- No save opens the staged file while another one writes to it. -/
def Alone (w : World ι κ) : Event ι κ → Prop
  | .stage _ => ∀ i n front back, w.savers i ≠ .staging n front back
  | _ => True

end step

/-- A text that breaks off is refused. -/
def RefusesFronts (serde : Serde) : Prop :=
  ∀ state text front, serde.toStringPretty state = some text → front <+: text.toList →
    front ≠ text.toList → serde.fromStr (String.ofList front) = none

/-! ## Every run -/

section runs
variable {ι κ : Type} {serde : Serde} {states : ι → Persisted} {w w' : World ι κ}

/-- The front of a text, and all of it only once it is written. -/
def World.Front (serde : Serde) (states : ι → Persisted) (w : World ι κ) (content : List Char) :
    Prop :=
  ∃ i text, serde.toStringPretty (states i) = some text ∧ content <+: text.toList ∧
    (content = text.toList → (w.savers i).whole = true)

structure Kept (serde : Serde) (states : ι → Persisted) (w : World ι κ) : Prop where
  tidy : w.dir.Tidy
  one : ∀ i i' n n' front front' back back', w.savers i = .staging n front back →
    w.savers i' = .staging n' front' back' → i = i'
  staging : ∀ i n front back, w.savers i = .staging n front back →
    n < w.dir.next ∧ w.dir.data n = front ∧
      serde.toStringPretty (states i) = some (String.ofList (front ++ back))
  files : ∀ n < w.dir.next, w.Front serde states (w.dir.data n)
  /-- What is read is staged no more. -/
  reading : ∀ j n before, w.readers j = .reading n before →
    n < w.dir.next ∧ w.dir.names .staged ≠ some n ∧ before <+: w.dir.data n
  loaded : ∀ j state, w.readers j = .loaded (.ok state) →
    ∃ i, (w.savers i).whole = true ∧ states i = state

theorem kept_start : Kept serde states (start : World ι κ) where
  tidy := ⟨by simp [start], by simp [start]⟩
  one := by
    intro i i' n n' front front' back back' hi
    cases hi
  staging := by
    intro i n front back hi
    cases hi
  files := fun n hn => absurd hn (Nat.not_lt_zero n)
  reading := by
    intro j n before hreader
    cases hreader
  loaded := by
    intro j state hreader
    cases hreader

theorem World.Front.mono {content : List Char} (h : w.Front serde states content)
    (hwhole : ∀ i, (w.savers i).whole = true → (w'.savers i).whole = true) :
    w'.Front serde states content := by
  obtain ⟨i, text, htext, hfront, hall⟩ := h
  exact ⟨i, text, htext, hfront, fun heq => hwhole i (hall heq)⟩

/-- A deletion takes names away. -/
theorem Kept.unnamed (h : Kept serde states w) {dir : Dir Entry Char}
    (hdata : dir.data = w.dir.data) (hnext : dir.next = w.dir.next)
    (hnames : ∀ entry n, dir.names entry = some n → w.dir.names entry = some n) :
    Kept serde states { w with dir } := by
  refine ⟨h.tidy.named hnames hnext, h.one, ?_, ?_, ?_, h.loaded⟩
  · intro i n front back hi
    show n < dir.next ∧ dir.data n = front ∧ _
    rw [hdata, hnext]
    exact h.staging i n front back hi
  · intro n hn
    show World.Front serde states _ (dir.data n)
    rw [hdata]
    exact h.files n (hnext ▸ hn)
  · intro j n before hreading
    obtain ⟨hn, hnot, hfront⟩ := h.reading j n before hreading
    exact ⟨hnext.symm ▸ hn, fun hname => hnot (hnames _ n hname), hdata.symm ▸ hfront⟩

section savers
variable [DecidableEq ι] {i : ι} {saver : Saver} {dir : Dir Entry Char}

theorem setSaver_cases (w : World ι κ) (i i' : ι) (saver : Saver) :
    i' = i ∧ (w.setSaver i saver).savers i' = saver ∨
      i' ≠ i ∧ (w.setSaver i saver).savers i' = w.savers i' := by
  unfold World.setSaver
  by_cases hi : i' = i
  · subst hi
    exact .inl ⟨rfl, Function.update_self _ _ _⟩
  · exact .inr ⟨hi, Function.update_of_ne hi _ _⟩

theorem setSaver_whole (hsaver : (w.savers i).whole = true → saver.whole = true) (i' : ι)
    (hwhole : (w.savers i').whole = true) : ((w.setSaver i saver).savers i').whole = true := by
  rcases setSaver_cases w i i' saver with ⟨rfl, hnew⟩ | ⟨-, hold⟩
  · rw [hnew]
    exact hsaver hwhole
  · rw [hold]
    exact hwhole

/-- A save goes on, and nothing is written. -/
theorem Kept.setSaver (h : Kept serde states w)
    (hsaver : (w.savers i).whole = true → saver.whole = true)
    (hopen : ∀ n front back, saver ≠ .staging n front back) (htidy : dir.Tidy)
    (hdata : dir.data = w.dir.data) (hnext : dir.next = w.dir.next)
    (hstaged : ∀ n, dir.names .staged = some n → w.dir.names .staged = some n) :
    Kept serde states ({ w with dir }.setSaver i saver) := by
  have hsame : ∀ {i' n front back},
      ({ w with dir }.setSaver i saver).savers i' = .staging n front back →
      w.savers i' = .staging n front back := by
    intro i' n front back hi'
    rcases setSaver_cases { w with dir } i i' saver with ⟨-, hnew⟩ | ⟨-, hold⟩
    · exact absurd (hnew.symm.trans hi') (hopen n front back)
    · exact hold.symm.trans hi'
  have hwhole := @setSaver_whole _ _ { w with dir } _ i saver hsaver
  refine ⟨htidy, ?_, ?_, ?_, ?_, ?_⟩
  · intro i₁ i₂ n n' front front' back back' h₁ h₂
    exact h.one i₁ i₂ n n' front front' back back' (hsame h₁) (hsame h₂)
  · intro i' n front back hi'
    show n < dir.next ∧ dir.data n = front ∧ _
    rw [hdata, hnext]
    exact h.staging i' n front back (hsame hi')
  · intro n hn
    show World.Front serde states _ (dir.data n)
    rw [hdata]
    exact (h.files n (hnext ▸ hn)).mono hwhole
  · intro j n before hreading
    obtain ⟨hn, hnot, hfront⟩ := h.reading j n before hreading
    exact ⟨hnext.symm ▸ hn, fun hname => hnot (hstaged n hname), hdata.symm ▸ hfront⟩
  · intro j state hloaded
    obtain ⟨i', hi', hstate⟩ := h.loaded j state hloaded
    exact ⟨i', hwhole i' hi', hstate⟩

/-- The directory stays as it is. -/
theorem Kept.setSaver_same (h : Kept serde states w)
    (hsaver : (w.savers i).whole = true → saver.whole = true)
    (hopen : ∀ n front back, saver ≠ .staging n front back) :
    Kept serde states (w.setSaver i saver) :=
  h.setSaver hsaver hopen h.tidy rfl rfl fun _ hn => hn

theorem Kept.createDir (h : Kept serde states w) (hstep : createDir w i = some w') :
    Kept serde states w' := by
  unfold Saving.createDir at hstep
  split at hstep
  next hidle =>
    cases hstep
    refine h.setSaver (by simp [hidle, Saver.whole]) (by simp) ?_ rfl rfl fun _ hn => hn
    exact h.tidy.named (fun _ _ hn => hn) rfl
  next => cases hstep

/-- The file that the save has open is the only one that changes. -/
theorem Kept.setStaging (h : Kept serde states w) {n : Nat} {front back : List Char}
    (htidy : dir.Tidy) (hn : n < dir.next)
    (hdata : dir.data = Function.update w.dir.data n front)
    (htext : serde.toStringPretty (states i) = some (String.ofList (front ++ back)))
    (hwhole : (w.savers i).whole = false)
    (hothers : ∀ i' m front back, w.savers i' = .staging m front back → i' = i)
    (hfiles : ∀ m < dir.next, m ≠ n → m < w.dir.next)
    (hreading : ∀ j m before, w.readers j = .reading m before →
      m < dir.next ∧ dir.names .staged ≠ some m ∧ before <+: dir.data m) :
    Kept serde states ({ w with dir }.setSaver i (.staging n front back)) := by
  have honly : ∀ {i' m front' back'},
      ({ w with dir }.setSaver i (.staging n front back)).savers i' = .staging m front' back' →
      i' = i ∧ m = n ∧ front' = front ∧ back' = back := by
    intro i' m front' back' hi'
    rcases setSaver_cases { w with dir } i i' (.staging n front back) with ⟨hi, hnew⟩ | ⟨hi, hold⟩
    · have hsame := hnew.symm.trans hi'
      cases hsame
      exact ⟨hi, rfl, rfl, rfl⟩
    · exact absurd (hothers i' m front' back' (hold.symm.trans hi')) hi
  have hgrow := @setSaver_whole _ _ { w with dir } _ i (.staging n front back) fun hold => by
    cases hwhole.symm.trans hold
  refine ⟨htidy, ?_, ?_, ?_, hreading, ?_⟩
  · intro i₁ i₂ _ _ _ _ _ _ h₁ h₂
    rw [(honly h₁).1, (honly h₂).1]
  · intro i' m front' back' hi'
    obtain ⟨rfl, rfl, rfl, rfl⟩ := honly hi'
    refine ⟨hn, ?_, htext⟩
    show dir.data m = front'
    rw [hdata, Function.update_self]
  · intro m hm
    show World.Front serde states _ (dir.data m)
    rw [hdata]
    by_cases hmn : m = n
    · subst hmn
      rw [Function.update_self]
      refine ⟨i, _, htext, ?_, ?_⟩
      · rw [String.toList_ofList]
        exact List.prefix_append front back
      · intro hall
        rw [String.toList_ofList] at hall
        obtain rfl : back = [] := by simpa using hall
        have hself : ({ w with dir }.setSaver i (.staging m front [])).savers i =
            .staging m front [] := Function.update_self _ _ _
        rw [hself]
        rfl
    · rw [Function.update_of_ne hmn]
      exact (h.files m (hfiles m hm hmn)).mono hgrow
  · intro j state hloaded
    obtain ⟨i', hi', hstate⟩ := h.loaded j state hloaded
    exact ⟨i', hgrow i' hi', hstate⟩

theorem Kept.stage (h : Kept serde states w) (halone : Alone w (.stage i))
    (hstep : stage serde states w i = some w') : Kept serde states w' := by
  unfold Saving.stage at hstep
  split at hstep
  next hmade =>
    have hnot : (w.savers i).whole = false := by rw [hmade]; rfl
    split at hstep
    next =>
      cases hstep
      exact h.setSaver_same (by simp [hnot]) (by simp)
    next text htext =>
      split at hstep
      next n dir hcreate =>
        cases hstep
        obtain ⟨hdata, hnames⟩ := create_eq_some hcreate
        have hn : n < dir.next ∧ ∀ m < dir.next, m ≠ n → m < w.dir.next := by
          rcases hnames with ⟨hname, -, hnext⟩ | ⟨-, rfl, -, hnext⟩
          · exact ⟨hnext.symm ▸ h.tidy.fresh _ n hname, fun m hm _ => hnext ▸ hm⟩
          · exact ⟨by omega, fun m hm hne => by omega⟩
        refine h.setStaging (h.tidy.create hcreate) hn.1 hdata ?_ hnot ?_ hn.2 ?_
        · rw [List.nil_append, String.ofList_toList]
          exact htext
        · intro i' m front back hi'
          exact absurd hi' (halone i' m front back)
        · intro j m before hreading
          obtain ⟨hm, hstaged, hfront⟩ := h.reading j m before hreading
          -- what is emptied is the file of the staged name, or a new one
          have hne : m ≠ n ∧ dir.names .staged ≠ some m ∧ m < dir.next := by
            rcases hnames with ⟨hname, hsame, hnext⟩ | ⟨-, rfl, hsame, hnext⟩
            · refine ⟨fun heq => hstaged (heq ▸ hname), ?_, hnext.symm ▸ hm⟩
              rw [hsame]
              exact hstaged
            · refine ⟨by omega, ?_, by omega⟩
              rw [hsame, Function.update_self]
              intro heq
              have := Option.some.inj heq
              omega
          refine ⟨hne.2.2, hne.2.1, ?_⟩
          rw [hdata, Function.update_of_ne hne.1]
          exact hfront
      next =>
        cases hstep
        exact h.setSaver_same (by simp [hnot]) (by simp)
  next => cases hstep

theorem Kept.write (h : Kept serde states w) {length : Nat}
    (hstep : write w i length = some w') : Kept serde states w' := by
  unfold Saving.write at hstep
  split at hstep
  next n front back hstaging =>
    split at hstep
    next hgoes =>
      cases hstep
      obtain ⟨hn, hfront, htext⟩ := h.staging i n front back hstaging
      have hdata : (w.dir.write '\x00' n front.length (back.take length)).data =
          Function.update w.dir.data n (front ++ back.take length) := by
        show Function.update w.dir.data n (splice _ front.length _ (w.dir.data n)) = _
        rw [hfront, splice_end]
      refine h.setStaging (h.tidy.named (fun _ _ hn => hn) rfl) hn hdata ?_ ?_ ?_
        (fun m hm _ => hm) ?_
      · rw [List.append_assoc, List.take_append_drop]
        exact htext
      · rw [hstaging]
        cases back with
        | nil => exact absurd rfl hgoes.2
        | cons c rest => rfl
      · intro i' m front' back' hi'
        exact h.one i' i m n front' front back' back hi' hstaging
      · intro j m before hreading
        obtain ⟨hm, hstaged, hbefore⟩ := h.reading j m before hreading
        refine ⟨hm, hstaged, ?_⟩
        rw [hdata]
        by_cases hmn : m = n
        · rw [hmn, Function.update_self]
          rw [hmn, hfront] at hbefore
          exact hbefore.trans (List.prefix_append front _)
        · rw [Function.update_of_ne hmn]
          exact hbefore
    next => cases hstep
  next => cases hstep

theorem Kept.close (h : Kept serde states w) (hstep : close w i = some w') :
    Kept serde states w' := by
  unfold Saving.close at hstep
  split at hstep
  next =>
    cases hstep
    exact h.setSaver_same (fun _ => rfl) (by simp)
  next => cases hstep

theorem Kept.rename (h : Kept serde states w) (hstep : rename w i = some w') :
    Kept serde states w' := by
  unfold Saving.rename at hstep
  split at hstep
  next =>
    split at hstep
    next dir hrename =>
      cases hstep
      obtain ⟨hdata, hnext, hnone⟩ := rename_names hrename (by decide)
      refine h.setSaver (fun _ => rfl) (by simp) (h.tidy.rename hrename) hdata hnext ?_
      intro n hn
      rw [hnone] at hn
      cases hn
    next =>
      cases hstep
      exact h.setSaver_same (fun _ => rfl) (by simp)
  next => cases hstep

end savers

section readers
variable [DecidableEq κ]

theorem Kept.setReader (h : Kept serde states w) {j : κ} {reader : Reader}
    (hreading : ∀ n before, reader = .reading n before →
      n < w.dir.next ∧ w.dir.names .staged ≠ some n ∧ before <+: w.dir.data n)
    (hloaded : ∀ state, reader = .loaded (.ok state) →
      ∃ i, (w.savers i).whole = true ∧ states i = state) :
    Kept serde states (w.setReader j reader) := by
  refine ⟨h.tidy, h.one, h.staging, h.files, ?_, ?_⟩
  · intro j' n before hj
    unfold World.setReader at hj
    dsimp only at hj
    by_cases hj' : j' = j
    · rw [hj', Function.update_self] at hj
      exact hreading n before hj
    · rw [Function.update_of_ne hj'] at hj
      exact h.reading j' n before hj
  · intro j' state hj
    unfold World.setReader at hj
    dsimp only at hj
    by_cases hj' : j' = j
    · rw [hj', Function.update_self] at hj
      exact hloaded state hj
    · rw [Function.update_of_ne hj'] at hj
      exact h.loaded j' state hj

theorem Kept.openState (h : Kept serde states w) {id : String} {j : κ}
    (hstep : openState id w j = some w') : Kept serde states w' := by
  unfold Saving.openState at hstep
  split at hstep
  next =>
    split at hstep
    next n hname =>
      cases hstep
      refine h.setReader ?_ (fun state hreader => by cases hreader)
      intro m before hreader
      cases hreader
      refine ⟨h.tidy.fresh _ _ hname, ?_, List.nil_prefix⟩
      intro hstaged
      cases h.tidy.apart _ _ _ hname hstaged
    next =>
      cases hstep
      exact h.setReader (fun n before hreader => by cases hreader)
        (fun state hreader => by cases hreader)
  next => cases hstep

theorem Kept.read (h : Kept serde states w) (hserde : serde.RoundTrips)
    (hrefuses : RefusesFronts serde) {j : κ} {length : Nat}
    (hstep : read serde w j length = some w') : Kept serde states w' := by
  unfold Saving.read at hstep
  split at hstep
  next n before hreading =>
    obtain ⟨hn, hstaged, hbefore⟩ := h.reading j n before hreading
    split at hstep
    next => cases hstep
    next hlength =>
      split at hstep
      next hnone =>
        have hend := read_end hbefore (Nat.pos_of_ne_zero hlength) hnone
        split at hstep
        next state hstate =>
          cases hstep
          refine h.setReader (fun n before hreader => by cases hreader) ?_
          intro found hfound
          obtain rfl : state = found := by
            cases hfound
            rfl
          obtain ⟨i, text, htext, hfront, hwhole⟩ := h.files n hn
          rw [← hend] at hfront hwhole
          by_cases hall : before = text.toList
          · rw [hall, String.ofList_toList, hserde (states i) text htext] at hstate
            exact ⟨i, hwhole hall, Option.some.inj hstate⟩
          · rw [hrefuses (states i) text before htext hfront hall] at hstate
            cases hstate
        next =>
          cases hstep
          exact h.setReader (fun n before hreader => by cases hreader)
            (fun state hreader => by cases hreader)
      next =>
        cases hstep
        refine h.setReader ?_ (fun state hreader => by cases hreader)
        intro m after hreader
        cases hreader
        exact ⟨hn, hstaged, read_front hbefore⟩
  next => cases hstep

end readers

variable [DecidableEq ι] [DecidableEq κ]

theorem Kept.step (hserde : serde.RoundTrips) (hrefuses : RefusesFronts serde)
    (h : Kept serde states w) {id : String} {event : Event ι κ} (halone : Alone w event)
    (hstep : step serde id states w event = some w') : Kept serde states w' := by
  cases event with
  | createDir i => exact h.createDir hstep
  | stage i => exact h.stage halone hstep
  | write i length => exact h.write hstep
  | close i => exact h.close hstep
  | rename i => exact h.rename hstep
  | die i =>
      cases hstep
      exact h.setSaver_same (fun hwhole => hwhole) (by simp)
  | openState j => exact h.openState hstep
  | read j length => exact h.read hserde hrefuses hstep
  | unlink entry =>
      obtain ⟨dir, hunlink, rfl⟩ := Option.map_eq_some_iff.mp hstep
      obtain ⟨hdata, hnext, hnames⟩ := unlink_names hunlink
      exact h.unnamed hdata hnext hnames
  | removeDir =>
      obtain ⟨dir, hremove, rfl⟩ := Option.map_eq_some_iff.mp hstep
      obtain ⟨hdata, hnext, hnames⟩ := remove_names hremove
      exact h.unnamed hdata hnext fun entry n hn => hnames ▸ hn

/-- However many saves and loads of a container run at once, with deletions in between and each
of them dying anywhere: as long as no save opens the staged file while another one writes to it,
what anybody loads is a record that one of them has written out whole. -/
theorem never_mixed (hserde : serde.RoundTrips) (hrefuses : RefusesFronts serde) {id : String}
    {events : List (Event ι κ)} (h : run (Saving.step serde id states) start events = some w)
    (halone : Along (Saving.step serde id states) Alone start events) {j : κ} {state : Persisted}
    (hload : w.readers j = .loaded (.ok state)) :
    ∃ i, (w.savers i).whole = true ∧ states i = state :=
  (run_invariant_along (fun _ _ _ hkept hok hstep => hkept.step hserde hrefuses hok hstep)
    kept_start h halone).loaded j state hload

end runs

/-! ## A save that dies, and one behind it -/

section text
open JsonRead
open JsonText (escapeChar)
variable {state : Persisted} {text : String}

theorem toStringPretty_getLast? (h : toStringPretty state = some text) :
    text.toList.getLast? = some '\x7d' := by
  unfold toStringPretty at h
  split at h
  next =>
    rw [← Option.some.inj h, String.toList_ofList]
    exact pretty_object_getLast? 0 _
  next => cases h

theorem serde_refusesFronts : RefusesFronts serde := by
  rintro state text front htext ⟨back, hback⟩ hne
  cases hread : serde.fromStr (String.ofList front) with
  | none => rfl
  | some found =>
      obtain ⟨v, hparse, hv⟩ := Option.bind_eq_some_iff.mp hread
      rw [String.toList_ofList] at hparse
      have hclosed : v.Closed := by
        cases v with
        | object members => trivial
        | _ => cases hv
      -- a text ends in its brace, and nothing may follow the value that the front has
      have hlast := toStringPretty_getLast? htext
      have hblank : skip back ≠ [] := by
        intro hskip
        cases back with
        | nil => exact hne (by rw [← hback, List.append_nil])
        | cons c rest =>
            rw [← hback, List.getLast?_append_cons] at hlast
            cases List.dropWhile_eq_nil_iff.mp hskip '\x7d' (List.mem_of_getLast? hlast)
      have hnone := parse_append hparse hclosed hblank
      rw [hback, toStringPretty_parse htext] at hnone
      cases hnone

end text

/-- The first dies in its text; a reader comes when the second has renamed the file. -/
def halfAndWhole (length : Nat) : List (Event Bool Unit) :=
  [.createDir true, .createDir false, .stage true, .write true 3, .die true, .stage false,
    .write false length, .close false, .rename false, .openState (), .read () length, .read () 1]

def twoStates : Bool → Persisted
  | true => demoState "a"
  | false => demoState "b"

theorem halfAndWhole_loads : ∃ length,
    (run (Saving.step serde "c1" twoStates) start (halfAndWhole length)).map
        (fun w => w.readers ()) = some (.loaded (.ok (demoState "b"))) ∧
      Along (Saving.step serde "c1" twoStates) Alone start (halfAndWhole length) := by
  obtain ⟨first, hfirst⟩ : ∃ text, toStringPretty (demoState "a") = some text :=
    ⟨_, if_pos (by decide)⟩
  obtain ⟨second, hsecond⟩ : ∃ text, toStringPretty (demoState "b") = some text :=
    ⟨_, if_pos (by decide)⟩
  have hfirst : serde.toStringPretty (twoStates true) = some first := hfirst
  have hsecond : serde.toStringPretty (twoStates false) = some second := hsecond
  have hread : serde.fromStr (String.ofList second.toList) = some (demoState "b") := by
    rw [String.ofList_toList]
    exact serde_roundTrips _ _ hsecond
  have hne : ∀ {state : Persisted} {text : String}, serde.toStringPretty state = some text →
      ∃ c rest, text.toList = c :: rest := by
    intro state text htext
    have hlast := toStringPretty_getLast? htext
    cases htext : text.toList with
    | nil => rw [htext] at hlast; cases hlast
    | cons c rest => exact ⟨c, rest, rfl⟩
  obtain ⟨c, rest, hcons⟩ := hne hfirst
  obtain ⟨d, rest', hcons'⟩ := hne hsecond
  rw [hcons'] at hread
  refine ⟨rest'.length + 1, ?_, ?_⟩
  · simp [halfAndWhole, run, Saving.step, createDir, stage, write, close, rename, openState, read,
      start, World.setSaver, World.setReader, Dir.make, Dir.create, Dir.write, splice, Dir.rename,
      Dir.read, hfirst, hsecond, hcons, hcons', hread, -String.ofList_cons]
  · simp [halfAndWhole, Along, Alone, Saving.step, createDir, stage, write, close, rename,
      openState, read, start, World.setSaver, World.setReader, Dir.make, Dir.create, Dir.write,
      splice, Dir.rename, Dir.read, hfirst, hsecond, hcons, hcons', hread, -String.ofList_cons]

theorem never_mixed_halfAndWhole : ∃ length w,
    run (Saving.step serde "c1" twoStates) start (halfAndWhole length) = some w ∧
      ∃ i, (w.savers i).whole = true ∧ twoStates i = demoState "b" := by
  obtain ⟨length, hloads, halone⟩ := halfAndWhole_loads
  obtain ⟨w, hrun, hload⟩ := Option.map_eq_some_iff.mp hloads
  exact ⟨length, w, hrun, never_mixed serde_roundTrips serde_refusesFronts hrun halone hload⟩

end Mars.Saving
