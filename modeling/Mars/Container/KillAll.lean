import Mars.Container.StatusMoves

/-! # Signalling a whole container

`kill --all` freezes the container, reads the pids of its cgroup and signals them one
after the other. A process that has been signalled may take others down with it, listed
ones too: what is gone is said for each turn of the loop. To the container's life the
whole is a `kill` (`killAll_world`).
-/

namespace Mars.KillAll
open UnixPath V2 State Text Lifecycle

/-! ## The list of processes -/

/-- One sign and decimal digits, within 32 bits. -/
def parseI32 : List Char → Option Int
  | '-' :: digits =>
      (parseUnsigned 32 digits).bind fun n =>
        if digits.head? ≠ some '+' ∧ n ≤ 2 ^ 31 then some (-(n : Int)) else none
  | text => (parseUnsigned 32 text).bind fun n => if n < 2 ^ 31 then some (n : Int) else none

/-- The pids in the text of `cgroup.procs`, line by line. -/
def pidsOf (text : List Char) : List Int :=
  (Events.lines text).filterMap fun line => parseI32 (trim line)

example : pidsOf "12\n 7\nx\n+3\n".toList = [12, 7, 3] := by decide

/-! ## The loop -/

variable {Signal : Type}

/-- A signal sent, and at which turn. -/
structure Sent (Signal : Type) where
  turn : Nat
  pid : Int
  signal : Signal
  deriving DecidableEq

/-- The loop over the pids from a turn on. The first that is gone ends it. -/
def signalEach (signal : Signal) (gone : Nat → Bool) :
    Nat → List Int → List (Sent Signal) × Except Error Unit
  | _, [] => ([], .ok ())
  | turn, pid :: rest =>
      if gone turn then ([], .error .syscall)
      else
        let later := signalEach signal gone (turn + 1) rest
        (⟨turn, pid, signal⟩ :: later.1, later.2)

theorem signalEach_ok_iff {signal : Signal} {gone : Nat → Bool} {turn : Nat} {pids : List Int} :
    (signalEach signal gone turn pids).2 = .ok () ↔
      ∀ k < pids.length, gone (turn + k) = false := by
  induction pids generalizing turn with
  | nil => simp [signalEach]
  | cons pid rest ih =>
      unfold signalEach
      cases hgone : gone turn with
      | true =>
          have hfirst : ¬∀ k < (pid :: rest).length, gone (turn + k) = false := by
            intro hall
            have hnow := hall 0 (by simp)
            simp [hgone] at hnow
          simpa using hfirst
      | false =>
          simp only [Bool.false_eq_true, if_false]
          rw [ih]
          constructor
          · intro hall k hk
            cases k with
            | zero => exact hgone
            | succ k =>
                have hnext := hall k (by simpa using hk)
                rwa [Nat.add_assoc, Nat.add_comm 1 k] at hnext
          · intro hall k hk
            have hnext := hall (k + 1) (by simpa using hk)
            rwa [Nat.add_comm k 1, ← Nat.add_assoc] at hnext

/-- A loop that comes to its end has signalled every process, each at its turn. -/
theorem sent_of_ok {signal : Signal} {gone : Nat → Bool} {turn : Nat} {pids : List Int}
    (hok : (signalEach signal gone turn pids).2 = .ok ()) {k : Nat} {pid : Int}
    (hlisted : pids[k]? = some pid) :
    ⟨turn + k, pid, signal⟩ ∈ (signalEach signal gone turn pids).1 := by
  induction pids generalizing turn k with
  | nil => simp at hlisted
  | cons first rest ih =>
      have hgone : gone turn = false := by simpa using signalEach_ok_iff.mp hok 0 (by simp)
      have hrest : (signalEach signal gone (turn + 1) rest).2 = .ok () := by
        simpa [signalEach, hgone] using hok
      simp only [signalEach, hgone, Bool.false_eq_true, if_false]
      cases k with
      | zero =>
          obtain rfl : first = pid := by simpa using hlisted
          exact List.mem_cons_self
      | succ k =>
          have hmem := ih hrest (by simpa using hlisted)
          rw [Nat.add_assoc, Nat.add_comm 1 k] at hmem
          exact List.mem_cons_of_mem _ hmem

/-! ## The command -/

/-- What the host answers to a `kill --all`: the two writes to the freezer, the text of
`cgroup.procs`, and which of the listed processes have gone before their turn. -/
structure Answers where
  freezing : Freeze
  procs : Except Error (List Char)
  gone : Nat → Bool
  thawing : Freeze

structure Outcome (Signal : Type) where
  world : Lifecycle.World
  listed : Option (List Int)
  sent : List (Sent Signal)

/-- The list, the signals, and what the two come to. -/
def signalListed (signal : Signal) (a : Answers) :
    Option (List Int) × List (Sent Signal) × Except Error Unit :=
  match a.procs with
  | .error error => (none, [], .error error)
  | .ok text => (some (pidsOf text), signalEach signal a.gone 0 (pidsOf text))

variable (place : Place)

def killAll (w : Lifecycle.World) (signal : Signal) (a : Answers) : Outcome Signal :=
  match w.load place with
  | .error error => ⟨w.finish (.error error), none, []⟩
  | .ok container =>
      match container.require (w.host place container) [.created, .running, .paused] with
      | .error error => ⟨w.finish (.error error), none, []⟩
      | .ok _ =>
          if isFrozen (w.host place container) container.cgroup = true then
            let (listed, sent, result) := signalListed signal a
            ⟨w.finish result, listed, sent⟩
          else
            match freeze w container.cgroup true a.freezing with
            | (w', .error error) => ⟨w'.finish (.error error), none, []⟩
            | (w', .ok ()) =>
                let (listed, sent, result) := signalListed signal a
                match freeze w' container.cgroup false a.thawing with
                | (w'', .error error) => ⟨w''.finish (.error error), listed, sent⟩
                | (w'', .ok ()) => ⟨w''.finish result, listed, sent⟩

/-- To the container's life it is a `kill` with the outcome of its signals. -/
theorem killAll_world (w : Lifecycle.World) (signal : Signal) (a : Answers) :
    (killAll place w signal a).world =
      kill place w true a.freezing a.thawing (signalListed signal a).2.2 := by
  unfold killAll kill Lifecycle.World.requiring
  cases w.load place with
  | error error => rfl
  | ok container =>
      simp only
      cases container.require (w.host place container) [.created, .running, .paused] with
      | error error => rfl
      | ok status =>
          simp only [Bool.true_eq_false, false_or]
          split
          next => rfl
          next =>
            cases a.freezing with
            | refused error => rfl
            | late => rfl
            | reached => cases a.thawing <;> rfl

/-! ## Reaching every process -/

/-- What `kill --all` has to do with the processes it lists. -/
structure Reaches (a : Answers) (signal : Signal) (outcome : Outcome Signal) : Prop where
  signalled : ∀ pids, outcome.listed = some pids → ∀ turn pid, pids[turn]? = some pid →
    a.gone turn = false → ⟨turn, pid, signal⟩ ∈ outcome.sent
  returned : ∀ pids, outcome.listed = some pids →
    (∀ turn pid, pids[turn]? = some pid →
      ⟨turn, pid, signal⟩ ∈ outcome.sent ∨ a.gone turn = true) →
    outcome.world.result = .ok ()

/-- The container is there and was frozen before. -/
def Frozen (w : Lifecycle.World) : Prop :=
  ∃ container, w.load place = .ok container ∧
    isFrozen (w.host place container) container.cgroup = true

/-- The command comes to read this text from `cgroup.procs`. -/
structure Lists (w : Lifecycle.World) (a : Answers) (text : List Char) : Prop where
  status : ∃ status ∈ [Status.created, .running, .paused], w.status place = some status
  freezer : Frozen place w ∨ a.freezing = .reached
  procs : a.procs = .ok text

section spec

variable {place} {w : Lifecycle.World} {signal : Signal} {a : Answers} {text : List Char}

theorem signalListed_ok (hprocs : a.procs = .ok text) :
    signalListed signal a =
      (some (pidsOf text), signalEach signal a.gone 0 (pidsOf text)) := by
  rw [signalListed, hprocs]

theorem signalListed_listed {pids : List Int} (hlisted : (signalListed signal a).1 = some pids) :
    ∃ text, a.procs = .ok text ∧ pidsOf text = pids := by
  unfold signalListed at hlisted
  cases hprocs : a.procs with
  | error error => simp [hprocs] at hlisted
  | ok text =>
      refine ⟨text, rfl, ?_⟩
      simpa [hprocs] using hlisted

/-- A command that has a list was let through, and came to read it. -/
theorem lists_of_listed {pids : List Int}
    (hlisted : (killAll place w signal a).listed = some pids) :
    ∃ text, Lists place w a text ∧ pidsOf text = pids := by
  unfold killAll at hlisted
  cases hload : w.load place with
  | error error => simp [hload] at hlisted
  | ok container =>
      rw [hload] at hlisted
      simp only at hlisted
      cases hrequire : container.require (w.host place container) [.created, .running, .paused] with
      | error error => simp [hrequire] at hlisted
      | ok status =>
          rw [hrequire] at hlisted
          simp only at hlisted
          obtain ⟨hstatus, hmem⟩ := Container.require_ok_iff.mp hrequire
          have hlet : ∃ status ∈ [Status.created, .running, .paused],
              w.status place = some status :=
            ⟨status, hmem, by simp [Lifecycle.World.status, hload, hstatus]⟩
          split at hlisted
          next hfrozen =>
            obtain ⟨text, hprocs, hpids⟩ := signalListed_listed hlisted
            exact ⟨text, ⟨hlet, .inl ⟨container, hload, hfrozen⟩, hprocs⟩, hpids⟩
          next =>
            cases hfreezing : a.freezing with
            | refused error => simp [hfreezing, freeze] at hlisted
            | late => simp [hfreezing, freeze] at hlisted
            | reached =>
                have hlist : (signalListed signal a).1 = some pids := by
                  cases hthawing : a.thawing <;>
                    simpa [hfreezing, hthawing, freeze] using hlisted
                obtain ⟨text, hprocs, hpids⟩ := signalListed_listed hlist
                exact ⟨text, ⟨hlet, .inr hfreezing, hprocs⟩, hpids⟩

/-- The spec of a command that comes to its list. -/
theorem killAll_of_lists (lists : Lists place w a text) :
    (killAll place w signal a).listed = some (pidsOf text) ∧
      (killAll place w signal a).sent = (signalEach signal a.gone 0 (pidsOf text)).1 ∧
      ((killAll place w signal a).world.result = .ok () ↔
        (signalEach signal a.gone 0 (pidsOf text)).2 = .ok () ∧
          (Frozen place w ∨ a.thawing = .reached)) := by
  obtain ⟨status, hmem, hstatus⟩ := lists.status
  cases hload : w.load place with
  | error error => simp [Lifecycle.World.status, hload] at hstatus
  | ok container =>
      have hactual : container.status (w.host place container) = status := by
        simpa [Lifecycle.World.status, hload] using hstatus
      have hrequire : container.require (w.host place container) [.created, .running, .paused] =
          .ok status := Container.require_ok_iff.mpr ⟨hactual, hmem⟩
      have hfrozen : Frozen place w ↔
          isFrozen (w.host place container) container.cgroup = true := by
        simp [Frozen, hload]
      have hfreezer := lists.freezer
      rw [hfrozen] at hfreezer ⊢
      simp only [killAll, hload, hrequire, signalListed_ok lists.procs]
      split
      next hwas => simp [Lifecycle.World.finish, hwas]
      next hwas =>
        have hfreezing := hfreezer.resolve_left hwas
        cases hthawing : a.thawing with
        | refused error => simp [hfreezing, freeze, Lifecycle.World.finish, hwas]
        | late => simp [hfreezing, freeze, Lifecycle.World.finish, hwas]
        | reached => simp [hfreezing, freeze, Lifecycle.World.finish]

end spec

/-- `kill --all` reaches every process exactly when none that it lists has gone before its
turn and the container, unless it was frozen before, is seen to thaw. -/
theorem reaches_iff {w : Lifecycle.World} {signal : Signal} {a : Answers} :
    Reaches a signal (killAll place w signal a) ↔
      ∀ text, Lists place w a text →
        (∀ turn < (pidsOf text).length, a.gone turn = false) ∧
          (Frozen place w ∨ a.thawing = .reached) := by
  constructor
  · intro reaches text lists
    obtain ⟨hlisted, hsent, hresult⟩ := @killAll_of_lists Signal place w signal a text lists
    have hall : ∀ turn pid, (pidsOf text)[turn]? = some pid →
        ⟨turn, pid, signal⟩ ∈ (killAll place w signal a).sent ∨ a.gone turn = true := by
      intro turn pid hpid
      cases hgone : a.gone turn with
      | true => exact .inr rfl
      | false => exact .inl (reaches.signalled _ hlisted turn pid hpid hgone)
    obtain ⟨hloop, hthawed⟩ := hresult.mp (reaches.returned _ hlisted hall)
    refine ⟨fun turn hturn => ?_, hthawed⟩
    simpa using signalEach_ok_iff.mp hloop turn hturn
  · intro hcond
    constructor
    · intro pids hlisted turn pid hpid hgone
      obtain ⟨text, lists, rfl⟩ := lists_of_listed hlisted
      obtain ⟨hpresent, -⟩ := hcond text lists
      rw [(killAll_of_lists lists).2.1]
      have hloop : (signalEach signal a.gone 0 (pidsOf text)).2 = .ok () :=
        signalEach_ok_iff.mpr fun k hk => by simpa using hpresent k hk
      simpa using sent_of_ok hloop hpid
    · intro pids hlisted hall
      obtain ⟨text, lists, rfl⟩ := lists_of_listed hlisted
      obtain ⟨hpresent, hthawed⟩ := hcond text lists
      exact (killAll_of_lists lists).2.2.mpr
        ⟨signalEach_ok_iff.mpr fun k hk => by simpa using hpresent k hk, hthawed⟩

/-! ## Init first -/

/-- Init takes the second process with it; the third is in another pid namespace. -/
def initFirst : Answers where
  freezing := .reached
  procs := .ok "7\n8\n9\n".toList
  gone := fun turn => turn = 1
  thawing := .reached

def runningWorld : Lifecycle.World := Option.get _ runningLife_enabled

/-- The loop ends at the process that is gone: a living one is left out. -/
theorem init_first_misses :
    ¬Reaches initFirst "TERM" (killAll demoPlace runningWorld "TERM" initFirst) := by
  intro reaches
  have hlisted : (killAll demoPlace runningWorld "TERM" initFirst).listed = some [7, 8, 9] := by
    decide +kernel
  have hsent : (killAll demoPlace runningWorld "TERM" initFirst).sent = [⟨0, 7, "TERM"⟩] := by
    decide +kernel
  have hlast := reaches.signalled _ hlisted 2 9 rfl rfl
  rw [hsent] at hlast
  simp at hlast

end Mars.KillAll
