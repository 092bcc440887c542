import Mathlib.Data.Finset.Card
import Mars.Core.Reaping
import Mars.Core.Transition

/-! # Supervising init

The runtime blocks what it forwards before it has a child, and then takes signals
from those that are pending. One SIGCHLD may stand for several deaths, and
orphans of the container become children at any moment. Once init is dead and
nothing else happens, `supervise` does return (`returns_alone`).
-/

namespace Mars.Supervise
open Reaping Transition

inductive Signal where
  | sigterm
  | sigint
  | sigquit
  | sighup
  | sigusr1
  | sigusr2
  | sigwinch
  | sigchld
  deriving DecidableEq

def FORWARDED : List Signal := [.sigterm, .sigint, .sigquit, .sighup, .sigusr1, .sigusr2, .sigwinch]

/-- The set of `block_forwardable`. -/
def blockForwardable : List Signal := FORWARDED ++ [.sigchld]

/-- The number of a signal that can end a process. -/
structure Terminator where
  number : Nat
  valid : 1 ≤ number ∧ number ≤ 31
  deriving DecidableEq

inductive Ended where
  | exited (code : Fin 256)
  | signaled (terminator : Terminator)
  deriving DecidableEq

/-- What `supervise` is to report. -/
def Ended.value : Ended → Nat
  | .exited code => code
  | .signaled terminator => 128 + terminator.number

/-! ## The source's loop -/

/-- What `waitpid` answers with `WNOHANG`. -/
inductive WaitStatus where
  | exited (pid : Nat) (code : Fin 256)
  | signaled (pid : Nat) (terminator : Terminator)
  | stillAlive
  | echild
  deriving DecidableEq

/-- Where the runtime is: before `supervise`, in `wait`, about to send a signal on,
in the inner loop, or done. -/
inductive Pc where
  | preparing
  | waiting
  | forwarding (signal : Signal)
  | draining
  | returned (code : Nat)
  deriving DecidableEq

/-- After `wait`. -/
def taken (signal : Signal) : Pc :=
  if signal ≠ .sigchld then .forwarding signal else .draining

/-- After `waitpid`. The result is one byte. -/
def reaped (init : Nat) : WaitStatus → Pc
  | .exited pid code => if pid = init then .returned (code % 256) else .draining
  | .signaled pid terminator =>
      if pid = init then .returned ((128 + terminator.number) % 256) else .draining
  | .stillAlive => .waiting
  | .echild => .waiting

/-! ## The runtime among other processes -/

structure Init where
  pid : Nat
  ident : Nat
  deriving DecidableEq

/-- A signal that was sent on, with the process that had the pid. -/
structure Sent where
  signal : Signal
  target : Option (Proc Ended)
  deriving DecidableEq

structure World where
  table : Table Ended
  pending : Finset Signal
  init : Option Init
  pc : Pc
  sent : List Sent

/-- A parent hears of a child that ends, and so does one that inherits an ended child. -/
def World.raise (w : World) (ended : Bool) : World :=
  if ended then { w with pending := insert .sigchld w.pending } else w

inductive Event where
  | appear (pid : Nat)
  | adopt (pid : Nat)
  | die (pid : Nat) (ended : Ended)
  | leave (pid : Nat)
  | signal (signal : Signal)
  | spawn (pid : Nat)
  | forkInit (pid : Nat) (direct : Bool)
  | waitFor (pid : Nat)
  | supervise
  | wait (signal : Signal)
  | kill
  | waitpid (status : WaitStatus)
  deriving DecidableEq

def isLiving (p : Proc Ended) : Bool := decide (p.life = .living)

/-- The process `waitpid` picks, by the kernel's rules: a child that has ended. -/
def World.reap (w : World) (pid : Nat) (ended : Ended) : Option (Table Ended) :=
  match h : w.table.find pid with
  | some p =>
      if p.child ∧ p.life = .zombie ended then
        some (w.table.bury p (Table.find_eq_some.mp h).1)
      else none
  | none => none

/-- What the kernel does when it gives this answer. -/
def World.answer (w : World) : WaitStatus → Option (Table Ended)
  | .exited pid code => w.reap pid (.exited code)
  | .signaled pid terminator => w.reap pid (.signaled terminator)
  | .stillAlive =>
      if w.table.endedChildren = [] ∧ w.table.procs.any Proc.child then some w.table else none
  | .echild => if w.table.procs.any Proc.child then none else some w.table

/-- Processes of others come and go at any time, and so do signals. Before
`supervise` the runtime waits for one named child of its own at a time, and the
process between it and init waits for nobody. -/
def step (w : World) : Event → Option World
  | .appear pid => (w.table.appear pid false).map fun table => { w with table }
  | .adopt pid => do
      let p ← w.table.find pid
      if p.child then none
      else some ({ w with table := w.table.adopt p }.raise (! isLiving p))
  | .die pid ended => do
      let p ← w.table.find pid
      if isLiving p then some ({ w with table := w.table.die p ended }.raise p.child) else none
  | .leave pid =>
      match h : w.table.find pid with
      | some p =>
          if p.child ∨ isLiving p ∨ w.init.map Init.pid = some pid then none
          else some { w with table := w.table.bury p (Table.find_eq_some.mp h).1 }
      | none => none
  | .signal signal => some { w with pending := insert signal w.pending }
  | .spawn pid =>
      if w.pc = .preparing then (w.table.appear pid true).map fun table => { w with table }
      else none
  | .forkInit pid direct =>
      if w.pc = .preparing ∧ w.init = none then
        (w.table.appear pid direct).map fun table =>
          { w with table, init := some ⟨pid, w.table.next⟩ }
      else none
  | .waitFor pid =>
      match h : w.table.find pid with
      | some p =>
          if w.pc = .preparing ∧ p.child ∧ ¬ isLiving p ∧ w.init.map Init.pid ≠ some pid then
            some { w with table := w.table.bury p (Table.find_eq_some.mp h).1 }
          else none
      | none => none
  | .supervise => do
      let init ← w.init
      let p ← w.table.find init.pid
      if w.pc = .preparing ∧ p.child then some { w with pc := .waiting } else none
  | .wait signal =>
      if w.pc = .waiting ∧ signal ∈ w.pending ∧ signal ∈ blockForwardable then
        some { w with pending := w.pending.erase signal, pc := taken signal }
      else none
  | .kill => do
      let init ← w.init
      match w.pc with
      | .forwarding signal =>
          some { w with sent := ⟨signal, w.table.find init.pid⟩ :: w.sent, pc := .waiting }
      | _ => none
  | .waitpid status => do
      let init ← w.init
      if w.pc = .draining then
        (w.answer status).map fun table => { w with table, pc := reaped init.pid status }
      else none

/-- The signals are blocked, and init is not there yet. -/
def start (table : Table Ended) (pending : Finset Signal) : World :=
  ⟨table, pending, none, .preparing, []⟩

/-! ## The invariant -/

def Pc.isReturned : Pc → Bool
  | .returned _ => true
  | _ => false

/-- Init has not been waited for, and its death is on the way or being looked for. -/
structure Watched (w : World) (init : Init) (p : Proc Ended) : Prop where
  there : w.table.find init.pid = some p
  same : p.ident = init.ident
  ours : w.pc ≠ .preparing → p.child = true
  heard : p.child = true → p.life ≠ .living → w.pc = .draining ∨ .sigchld ∈ w.pending

/-- The runtime has waited for init, and this is how init ended. -/
def Reported (w : World) (init : Init) (code : Nat) : Prop :=
  ∃ p ∈ w.table.gone, p.ident = init.ident ∧ p.child = true ∧
    ∃ ended, p.life = .zombie ended ∧ code = ended.value

/-- The signal went to init, which had not been waited for. -/
def Reached (w : World) (sent : Sent) : Prop :=
  ∃ init ∈ w.init, ∃ p, sent.target = some p ∧ p.ident = init.ident ∧ p.child = true

structure Inv (w : World) : Prop where
  started : w.pc ≠ .preparing → w.init.isSome
  watched : ∀ init ∈ w.init, w.pc.isReturned = false → ∃ p, Watched w init p
  returned : ∀ code, w.pc = .returned code → ∃ init ∈ w.init, Reported w init code
  sent : ∀ sent ∈ w.sent, Reached w sent

theorem inv_start (table : Table Ended) (pending : Finset Signal) : Inv (start table pending) :=
  ⟨fun h => absurd rfl h, nofun, nofun, nofun⟩

/-! ## What others do -/

section others
variable {w w' : World} {table : Table Ended} {pending : Finset Signal} {p : Proc Ended}
  {pid : Nat} {ended : Ended}

/-- Init may become a child or end, if the runtime is told. -/
theorem Inv.others (h : Inv w) (hpending : w.pending ⊆ pending)
    (hgone : ∀ p ∈ w.table.gone, p ∈ table.gone)
    (hinit : ∀ init ∈ w.init, ∀ p, w.table.find init.pid = some p → ∃ p',
      table.find init.pid = some p' ∧ p'.ident = p.ident ∧ (p.child = true → p'.child = true) ∧
        (p'.child = true → p'.life ≠ .living →
          p.child = true ∧ p.life ≠ .living ∨ .sigchld ∈ pending)) :
    Inv { w with table, pending } := by
  refine ⟨h.started, ?_, ?_, h.sent⟩
  · intro init hmem hrunning
    obtain ⟨p, hp⟩ := h.watched init hmem hrunning
    obtain ⟨p', hthere, hident, hchild, hheard⟩ := hinit init hmem p hp.there
    refine ⟨p', hthere, hident.trans hp.same, fun hpc => hchild (hp.ours hpc), ?_⟩
    intro hours hlife
    rcases hheard hours hlife with ⟨hold, hended⟩ | hraised
    · exact (hp.heard hold hended).imp_right fun hin => hpending hin
    · exact .inr hraised
  · intro code hpc
    obtain ⟨init, hmem, q, hq, hreport⟩ := h.returned code hpc
    exact ⟨init, hmem, q, hgone q hq, hreport⟩

/-- Nothing about init changes. -/
theorem Inv.aside (h : Inv w) (hgone : ∀ p ∈ w.table.gone, p ∈ table.gone)
    (hinit : ∀ init ∈ w.init, ∀ p, w.table.find init.pid = some p →
      table.find init.pid = some p) : Inv { w with table } :=
  h.others (Finset.Subset.refl _) hgone fun init hmem p hp =>
    ⟨p, hinit init hmem p hp, rfl, id, fun hchild hlife => .inl ⟨hchild, hlife⟩⟩

theorem raise_eq (w : World) (ended : Bool) :
    w.raise ended =
      { w with pending := if ended then insert .sigchld w.pending else w.pending } := by
  cases ended <;> rfl

theorem subset_raise (pending : Finset Signal) (ended : Bool) :
    pending ⊆ if ended then insert .sigchld pending else pending := by
  cases ended with
  | false => exact Finset.Subset.refl _
  | true => exact Finset.subset_insert _ _

theorem Inv.appear {child : Bool} (h : Inv w) (happear : w.table.appear pid child = some table) :
    Inv { w with table } :=
  h.aside (fun p hp => by rwa [Table.gone_appear happear]) fun _ _ _ hp =>
    Table.find_of_appear happear hp

theorem Inv.adopt (h : Inv w) (hp : w.table.find pid = some p) (hchild : p.child = false) :
    Inv ({ w with table := w.table.adopt p }.raise (! isLiving p)) := by
  obtain ⟨-, rfl⟩ := Table.find_eq_some.mp hp
  rw [raise_eq]
  refine h.others (subset_raise _ _) (fun _ hq => hq) fun init hmem q hq => ?_
  by_cases hpid : init.pid = p.pid
  · obtain rfl : q = p := by rw [hpid, hp] at hq; exact (Option.some.inj hq).symm
    refine ⟨q.amend true q.life, ?_, rfl, fun _ => rfl, fun _ hlife => .inr ?_⟩
    · rw [hpid]
      exact Table.find_amend_self hp
    · have hended : isLiving q = false := by simpa [isLiving, Proc.amend] using hlife
      simp [hended]
  · exact ⟨q, Table.find_amend_other hpid hq, rfl, id, fun hours hlife => .inl ⟨hours, hlife⟩⟩

theorem Inv.die (h : Inv w) (hp : w.table.find pid = some p) :
    Inv ({ w with table := w.table.die p ended }.raise p.child) := by
  obtain ⟨-, rfl⟩ := Table.find_eq_some.mp hp
  rw [raise_eq]
  refine h.others (subset_raise _ _) (fun _ hq => hq) fun init hmem q hq => ?_
  by_cases hpid : init.pid = p.pid
  · obtain rfl : q = p := by rw [hpid, hp] at hq; exact (Option.some.inj hq).symm
    refine ⟨q.amend q.child (.zombie ended), ?_, rfl, id, fun hours _ => .inr ?_⟩
    · rw [hpid]
      exact Table.find_amend_self hp
    · have hchild : q.child = true := hours
      simp [hchild]
  · exact ⟨q, Table.find_amend_other hpid hq, rfl, id, fun hours hlife => .inl ⟨hours, hlife⟩⟩

/-- Another process than init has been waited for. -/
theorem Inv.bury (h : Inv w) (hp : p ∈ w.table.procs) (hinit : w.init.map Init.pid ≠ some p.pid) :
    Inv { w with table := w.table.bury p hp } := by
  refine h.aside (fun _ hq => Table.gone_bury hp hq) fun init hmem q hq => ?_
  have hne : init.pid ≠ p.pid := by
    intro heq
    exact hinit (by rw [Option.mem_def.mp hmem, Option.map_some, heq])
  exact Table.find_bury hp hne hq

end others

/-! ## What the runtime does -/

section runtime
variable {w w' : World} {table : Table Ended} {p : Proc Ended} {pid : Nat} {ended : Ended}
  {init : Init} {signal : Signal}

theorem Inv.forkInit {direct : Bool} (h : Inv w) (hpc : w.pc = .preparing) (hinit : w.init = none)
    (happear : w.table.appear pid direct = some table) :
    Inv { w with table, init := some ⟨pid, w.table.next⟩ } := by
  have hnew := @Table.find_appear _ _ _ pid pid direct happear
  rw [if_pos rfl] at hnew
  refine ⟨fun _ => rfl, ?_, ?_, ?_⟩
  · intro init hmem _
    obtain rfl := Option.some.inj hmem
    exact ⟨_, hnew, rfl, fun hne => absurd hpc hne, fun _ hlife => absurd rfl hlife⟩
  · intro code hreturned
    exact absurd (hpc.symm.trans hreturned) (by simp)
  · intro sent hsent
    obtain ⟨init, hmem, -⟩ := h.sent sent hsent
    rw [hinit] at hmem
    cases hmem

theorem Inv.supervise (h : Inv w) (hinit : w.init = some init) (hpc : w.pc = .preparing)
    (hp : w.table.find init.pid = some p) (hchild : p.child = true) :
    Inv { w with pc := .waiting } := by
  refine ⟨fun _ => by simp [hinit], ?_, nofun, h.sent⟩
  intro init' hmem _
  obtain rfl : init = init' := Option.some.inj (hinit.symm.trans hmem)
  obtain ⟨q, hq⟩ := h.watched init hmem (by rw [hpc]; rfl)
  obtain rfl : q = p := Option.some.inj (hq.there.symm.trans hp)
  refine ⟨q, hq.there, hq.same, fun _ => hchild, fun hours hlife => ?_⟩
  rcases hq.heard hours hlife with hdraining | hpending
  · exact absurd (hpc.symm.trans hdraining) (by simp)
  · exact .inr hpending

theorem Inv.wait (h : Inv w) (hpc : w.pc = .waiting) :
    Inv { w with pending := w.pending.erase signal, pc := taken signal } := by
  refine ⟨fun _ => h.started (by simp [hpc]), ?_, ?_, h.sent⟩
  · intro init hmem _
    obtain ⟨p, hp⟩ := h.watched init hmem (by rw [hpc]; rfl)
    refine ⟨p, hp.there, hp.same, fun _ => hp.ours (by simp [hpc]), fun hours hlife => ?_⟩
    have hpending : .sigchld ∈ w.pending := by
      rcases hp.heard hours hlife with hdraining | hpending
      · exact absurd (hpc.symm.trans hdraining) (by simp)
      · exact hpending
    by_cases hsignal : signal = .sigchld
    · exact .inl (by simp [taken, hsignal])
    · exact .inr (Finset.mem_erase.mpr ⟨Ne.symm hsignal, hpending⟩)
  · intro code hreturned
    simp only [taken] at hreturned
    split at hreturned <;> cases hreturned

theorem Inv.kill (h : Inv w) (hinit : w.init = some init) (hpc : w.pc = .forwarding signal) :
    Inv { w with sent := ⟨signal, w.table.find init.pid⟩ :: w.sent, pc := .waiting } := by
  obtain ⟨p, hp⟩ := h.watched init hinit (by rw [hpc]; rfl)
  refine ⟨fun _ => h.started (by simp [hpc]), ?_, nofun, ?_⟩
  · intro init' hmem _
    obtain rfl : init = init' := Option.some.inj (hinit.symm.trans hmem)
    refine ⟨p, hp.there, hp.same, fun _ => hp.ours (by simp [hpc]), fun hours hlife => ?_⟩
    rcases hp.heard hours hlife with hdraining | hpending
    · exact absurd (hpc.symm.trans hdraining) (by simp)
    · exact .inr hpending
  · intro sent hsent
    rcases List.mem_cons.mp hsent with rfl | hold
    · exact ⟨init, hinit, p, hp.there, hp.same, hp.ours (by simp [hpc])⟩
    · exact h.sent sent hold

/-- The inner loop is left for `wait` only when no child has ended. -/
theorem Inv.drained (h : Inv w) (hpc : w.pc = .draining)
    (hnone : ∀ p ∈ w.table.procs, p.child = true → p.life = .living) :
    Inv { w with pc := .waiting } := by
  refine ⟨fun _ => h.started (by simp [hpc]), ?_, nofun, h.sent⟩
  intro init hmem _
  obtain ⟨p, hp⟩ := h.watched init hmem (by rw [hpc]; rfl)
  have hchild := hp.ours (by simp [hpc])
  have hliving := hnone p (Table.find_eq_some.mp hp.there).1 hchild
  exact ⟨p, hp.there, hp.same, fun _ => hchild, fun _ hlife => absurd hliving hlife⟩

theorem Inv.reapOther (h : Inv w) (hp : p ∈ w.table.procs) (hinit : w.init = some init)
    (hne : p.pid ≠ init.pid) (hpc : w.pc = .draining) :
    Inv { w with table := w.table.bury p hp, pc := .draining } := by
  have hkept := h.bury hp (by simpa [hinit] using Ne.symm hne)
  rw [← hpc]
  exact hkept

theorem Inv.reapInit (h : Inv w) (hp : p ∈ w.table.procs) (hinit : w.init = some init)
    (hpid : p.pid = init.pid) (hpc : w.pc = .draining) (hlife : p.life = .zombie ended)
    {code : Nat} (hcode : code = ended.value) :
    Inv { w with table := w.table.bury p hp, pc := .returned code } := by
  obtain ⟨q, hq⟩ := h.watched init hinit (by rw [hpc]; rfl)
  have hfind : w.table.find init.pid = some p := Table.find_eq_some.mpr ⟨hp, hpid⟩
  obtain rfl : q = p := Option.some.inj (hq.there.symm.trans hfind)
  refine ⟨fun _ => by simp [hinit], nofun, ?_, h.sent⟩
  intro code' hreturned
  obtain rfl := Pc.returned.inj hreturned
  exact ⟨init, hinit, q, Table.mem_gone_bury hp, hq.same, hq.ours (by simp [hpc]), ended, hlife,
    hcode⟩

theorem reap_eq_some (h : w.reap pid ended = some table) :
    ∃ (p : Proc Ended) (hp : p ∈ w.table.procs), p.pid = pid ∧ p.child = true ∧
      p.life = .zombie ended ∧ table = w.table.bury p hp := by
  unfold World.reap at h
  split at h
  next p hfind =>
    split at h
    next hends =>
      obtain rfl := Option.some.inj h
      obtain ⟨hmem, hpid⟩ := Table.find_eq_some.mp hfind
      exact ⟨p, hmem, hpid, hends.1, hends.2, rfl⟩
    next => cases h
  next => cases h

/-- Whatever child is reaped, the loop goes on or returns what that child left. -/
theorem Inv.reap (h : Inv w) (hinit : w.init = some init) (hpc : w.pc = .draining)
    (hreap : w.reap pid ended = some table) {code : Nat} (hcode : code = ended.value) :
    Inv { w with table, pc := if pid = init.pid then .returned code else .draining } := by
  obtain ⟨p, hp, rfl, -, hlife, rfl⟩ := reap_eq_some hreap
  split
  next hpid => exact h.reapInit hp hinit hpid hpc hlife hcode
  next hne => exact h.reapOther hp hinit hne hpc

theorem living_of_stillAlive (h : w.answer .stillAlive = some table) :
    table = w.table ∧ ∀ p ∈ w.table.procs, p.child = true → p.life = .living := by
  simp only [World.answer] at h
  split at h
  next hnone =>
    obtain rfl := Option.some.inj h
    refine ⟨rfl, fun p hp hchild => ?_⟩
    cases hlife : p.life with
    | living => rfl
    | zombie ended =>
        have hmem := Table.mem_endedChildren.mpr
          ⟨hp, Table.endedChild_iff.mpr ⟨hchild, ended, hlife⟩⟩
        rw [hnone.1] at hmem
        cases hmem
  next => cases h

theorem childless_of_echild (h : w.answer .echild = some table) :
    table = w.table ∧ ∀ p ∈ w.table.procs, p.child = true → p.life = .living := by
  simp only [World.answer] at h
  split at h
  next => cases h
  next hnone =>
    obtain rfl := Option.some.inj h
    refine ⟨rfl, fun p hp hchild => ?_⟩
    exact absurd (List.any_eq_true.mpr ⟨p, hp, hchild⟩) hnone

/-- The result fits in its byte. -/
theorem value_mod (ended : Ended) : ended.value % 256 = ended.value := by
  cases ended with
  | exited code => exact Nat.mod_eq_of_lt code.isLt
  | signaled terminator =>
      have hvalid := terminator.valid
      exact Nat.mod_eq_of_lt (by simp only [Ended.value]; omega)

theorem Inv.waitpid {status : WaitStatus} (h : Inv w) (hinit : w.init = some init)
    (hpc : w.pc = .draining) (hanswer : w.answer status = some table) :
    Inv { w with table, pc := reaped init.pid status } := by
  cases status with
  | exited pid code => exact h.reap hinit hpc hanswer (value_mod (.exited code))
  | signaled pid terminator => exact h.reap hinit hpc hanswer (value_mod (.signaled terminator))
  | stillAlive =>
      obtain ⟨rfl, hliving⟩ := living_of_stillAlive hanswer
      exact h.drained hpc hliving
  | echild =>
      obtain ⟨rfl, hliving⟩ := childless_of_echild hanswer
      exact h.drained hpc hliving

end runtime

/-! ## Every run -/

theorem Inv.step {w w' : World} {e : Event} (h : Inv w) (hstep : step w e = some w') : Inv w' := by
  cases e with
  | appear pid =>
      obtain ⟨table, happear, rfl⟩ := Option.map_eq_some_iff.mp hstep
      exact h.appear happear
  | adopt pid =>
      obtain ⟨p, hp, hrest⟩ := Option.bind_eq_some_iff.mp hstep
      split at hrest
      next => cases hrest
      next hchild =>
        obtain rfl := Option.some.inj hrest
        exact h.adopt hp (by simpa using hchild)
  | die pid ended =>
      obtain ⟨p, hp, hrest⟩ := Option.bind_eq_some_iff.mp hstep
      split at hrest
      next =>
        obtain rfl := Option.some.inj hrest
        exact h.die hp
      next => cases hrest
  | leave pid =>
      simp only [Supervise.step] at hstep
      split at hstep
      next p hp =>
        split at hstep
        next => cases hstep
        next hother =>
          obtain rfl := Option.some.inj hstep
          obtain ⟨hmem, rfl⟩ := Table.find_eq_some.mp hp
          exact h.bury hmem fun hinit => hother (.inr (.inr hinit))
      next => cases hstep
  | signal signal =>
      obtain rfl := Option.some.inj hstep
      exact h.others (Finset.subset_insert _ _) (fun _ hp => hp) fun init _ p hp =>
        ⟨p, hp, rfl, id, fun hchild hlife => .inl ⟨hchild, hlife⟩⟩
  | spawn pid =>
      simp only [Supervise.step] at hstep
      split at hstep
      next =>
        obtain ⟨table, happear, rfl⟩ := Option.map_eq_some_iff.mp hstep
        exact h.appear happear
      next => cases hstep
  | forkInit pid direct =>
      simp only [Supervise.step] at hstep
      split at hstep
      next hfirst =>
        obtain ⟨table, happear, rfl⟩ := Option.map_eq_some_iff.mp hstep
        exact h.forkInit hfirst.1 hfirst.2 happear
      next => cases hstep
  | waitFor pid =>
      simp only [Supervise.step] at hstep
      split at hstep
      next p hp =>
        split at hstep
        next hother =>
          obtain rfl := Option.some.inj hstep
          obtain ⟨hmem, rfl⟩ := Table.find_eq_some.mp hp
          exact h.bury hmem hother.2.2.2
        next => cases hstep
      next => cases hstep
  | supervise =>
      obtain ⟨init, hinit, hrest⟩ := Option.bind_eq_some_iff.mp hstep
      obtain ⟨p, hp, hready⟩ := Option.bind_eq_some_iff.mp hrest
      split at hready
      next hcalled =>
        obtain rfl := Option.some.inj hready
        exact h.supervise hinit hcalled.1 hp hcalled.2
      next => cases hready
  | wait signal =>
      simp only [Supervise.step] at hstep
      split at hstep
      next htaken =>
        obtain rfl := Option.some.inj hstep
        exact h.wait htaken.1
      next => cases hstep
  | kill =>
      obtain ⟨init, hinit, hrest⟩ := Option.bind_eq_some_iff.mp hstep
      split at hrest
      next signal hpc =>
        obtain rfl := Option.some.inj hrest
        exact h.kill hinit hpc
      next => cases hrest
  | waitpid status =>
      obtain ⟨init, hinit, hrest⟩ := Option.bind_eq_some_iff.mp hstep
      split at hrest
      next hpc =>
        obtain ⟨table, hanswer, rfl⟩ := Option.map_eq_some_iff.mp hrest
        exact h.waitpid hinit hpc hanswer
      next => cases hrest

theorem inv_run {table : Table Ended} {pending : Finset Signal} {events : List Event} {w : World}
    (hrun : run step (start table pending) events = some w) : Inv w :=
  run_invariant (fun _ _ _ h hstep => Inv.step h hstep) (inv_start table pending) hrun

theorem reported_unique {w : World} {init : Init} {code other : Nat} (h : Reported w init code)
    (hother : Reported w init other) : other = code := by
  obtain ⟨p, hp, hident, -, ended, hlife, rfl⟩ := h
  obtain ⟨q, hq, hsame, -, ended', hlife', rfl⟩ := hother
  obtain rfl : q = p := List.inj_on_of_nodup_map w.table.idents (List.mem_append_right _ hq)
    (List.mem_append_right _ hp) (hsame.trans hident.symm)
  rw [Life.zombie.inj (hlife.symm.trans hlife')]

/-- Init has ended and has not been waited for. -/
def Dead (w : World) : Prop :=
  ∃ init ∈ w.init, ∃ p, w.table.find init.pid = some p ∧ p.ident = init.ident ∧ p.life ≠ .living

/-- Init is dead, and `wait` has nothing to wake it up with. -/
structure Missed (w : World) : Prop where
  dead : Dead w
  waiting : w.pc = .waiting
  unheard : .sigchld ∉ w.pending

theorem Inv.not_missed {w : World} (h : Inv w) : ¬ Missed w := by
  rintro ⟨⟨init, hinit, p, hp, -, hlife⟩, hwaiting, hunheard⟩
  obtain ⟨q, hq⟩ := h.watched init hinit (by rw [hwaiting]; rfl)
  obtain rfl : q = p := Option.some.inj (hq.there.symm.trans hp)
  rcases hq.heard (hq.ours (by simp [hwaiting])) hlife with hdraining | hpending
  · exact absurd (hwaiting.symm.trans hdraining) (by simp)
  · exact hunheard hpending

/-- `supervise` returns what it has learnt by waiting for init, never sleeps through
the death of init, and sends signals to nobody else. -/
theorem supervise_exact {table : Table Ended} {pending : Finset Signal} {events : List Event}
    {w : World} (hrun : run step (start table pending) events = some w) :
    (∀ code, w.pc = .returned code →
      ∃ init ∈ w.init, ∀ other, Reported w init other ↔ other = code) ∧
    ¬ Missed w ∧
    ∀ sent ∈ w.sent, Reached w sent := by
  have hinv := inv_run hrun
  refine ⟨fun code hcode => ?_, hinv.not_missed, hinv.sent⟩
  obtain ⟨init, hinit, hreported⟩ := hinv.returned code hcode
  refine ⟨init, hinit, fun other => ⟨fun hother => reported_unique hreported hother, ?_⟩⟩
  rintro rfl
  exact hreported

/-! ## Left alone, it returns -/

def Event.own : Event → Bool
  | .wait _ => true
  | .kill => true
  | .waitpid _ => true
  | _ => false

def Pc.left : Pc → Nat
  | .forwarding _ => 1
  | .draining => 2
  | _ => 0

/-- A bound for what the runtime can do on its own once init is dead. -/
def World.left (w : World) : Nat :=
  3 * w.pending.card + w.table.endedChildren.length + w.pc.left

section alone
variable {w w' : World} {table : Table Ended} {e : Event}

theorem endedChild_of_dead (h : Inv w) (hpc : w.pc ≠ .preparing) {init : Init}
    (hinit : w.init = some init) {p : Proc Ended} (hp : w.table.find init.pid = some p)
    (hlife : p.life ≠ .living) (hrunning : w.pc.isReturned = false) :
    p.child = true ∧ ∃ ended, p.life = .zombie ended := by
  obtain ⟨q, hq⟩ := h.watched init hinit hrunning
  obtain rfl : q = p := Option.some.inj (hq.there.symm.trans hp)
  refine ⟨hq.ours hpc, ?_⟩
  cases hended : q.life with
  | living => exact absurd hended hlife
  | zombie ended => exact ⟨ended, rfl⟩

/-- While init is dead and not waited for, the runtime can go on. -/
theorem can_go_on (h : Inv w) (hdead : Dead w) (hpc : w.pc ≠ .preparing)
    (hrunning : w.pc.isReturned = false) : ∃ e, e.own = true ∧ (step w e).isSome := by
  obtain ⟨init, hinit, p, hp, hident, hlife⟩ := hdead
  obtain ⟨hchild, ended, hended⟩ := endedChild_of_dead h hpc hinit hp hlife hrunning
  rw [Option.mem_def] at hinit
  cases hwhere : w.pc with
  | preparing => exact absurd hwhere hpc
  | waiting =>
      have hpending : .sigchld ∈ w.pending := by
        by_contra hunheard
        exact h.not_missed ⟨⟨init, hinit, p, hp, hident, hlife⟩, hwhere, hunheard⟩
      refine ⟨.wait .sigchld, rfl, ?_⟩
      simp [step, hwhere, hpending, blockForwardable]
  | forwarding signal => exact ⟨.kill, rfl, by simp [step, hinit, hwhere]⟩
  | draining =>
      have hreap : (w.reap init.pid ended).isSome := by
        unfold World.reap
        split
        next q hq =>
          obtain rfl : q = p := Option.some.inj (hq.symm.trans hp)
          simp [hchild, hended]
        next hnone =>
          rw [hp] at hnone
          cases hnone
      cases ended with
      | exited code =>
          refine ⟨.waitpid (.exited init.pid code), rfl, ?_⟩
          simpa [step, hinit, hwhere, World.answer] using hreap
      | signaled terminator =>
          refine ⟨.waitpid (.signaled init.pid terminator), rfl, ?_⟩
          simpa [step, hinit, hwhere, World.answer] using hreap
  | returned code => rw [hwhere] at hrunning; cases hrunning

theorem left_reap {pid : Nat} {ended : Ended} (hreap : w.reap pid ended = some table)
    (hpc : w.pc = .draining) {pc : Pc} (hleft : pc.left ≤ 2) :
    World.left { w with table, pc } < w.left := by
  obtain ⟨p, hp, -, hchild, hlife, rfl⟩ := reap_eq_some hreap
  have hfewer := Table.length_endedChildren_bury hp
    (Table.endedChild_iff.mpr ⟨hchild, ended, hlife⟩)
  have hbefore : w.pc.left = 2 := by rw [hpc]; rfl
  simp only [World.left]
  omega

theorem left_wait {signal : Signal} (hpc : w.pc = .waiting) (hsignal : signal ∈ w.pending) :
    World.left { w with pending := w.pending.erase signal, pc := taken signal } < w.left := by
  have hcard := Finset.card_erase_of_mem hsignal
  have hpos := Finset.card_pos.mpr ⟨signal, hsignal⟩
  have hafter : (taken signal).left ≤ 2 := by
    unfold taken
    split <;> simp [Pc.left]
  simp only [World.left, hpc]
  omega

theorem left_answer {status : WaitStatus} {init : Nat} (hpc : w.pc = .draining)
    (hanswer : w.answer status = some table) :
    World.left { w with table, pc := reaped init status } < w.left := by
  have hbefore : w.pc.left = 2 := by rw [hpc]; rfl
  cases status with
  | exited pid code =>
      refine left_reap hanswer hpc ?_
      simp only [reaped]
      split <;> simp [Pc.left]
  | signaled pid terminator =>
      refine left_reap hanswer hpc ?_
      simp only [reaped]
      split <;> simp [Pc.left]
  | stillAlive =>
      obtain ⟨rfl, -⟩ := living_of_stillAlive hanswer
      simp [World.left, reaped, Pc.left, hpc]
  | echild =>
      obtain ⟨rfl, -⟩ := childless_of_echild hanswer
      simp [World.left, reaped, Pc.left, hpc]

/-- What the runtime does on its own takes it nearer to the end. -/
theorem left_step (hown : e.own = true) (hstep : step w e = some w') : w'.left < w.left := by
  cases e with
  | wait signal =>
      simp only [step] at hstep
      split at hstep
      next htaken =>
        obtain rfl := Option.some.inj hstep
        exact left_wait htaken.1 htaken.2.1
      next => cases hstep
  | kill =>
      obtain ⟨init, -, hrest⟩ := Option.bind_eq_some_iff.mp hstep
      split at hrest
      next signal hpc =>
        obtain rfl := Option.some.inj hrest
        simp [World.left, Pc.left, hpc]
      next => cases hrest
  | waitpid status =>
      obtain ⟨init, -, hrest⟩ := Option.bind_eq_some_iff.mp hstep
      split at hrest
      next hpc =>
        obtain ⟨table, hanswer, rfl⟩ := Option.map_eq_some_iff.mp hrest
        exact left_answer hpc hanswer
      next => cases hrest
  | _ => cases hown

theorem called_step (hown : e.own = true) (hstep : step w e = some w') :
    w'.pc ≠ .preparing := by
  cases e with
  | wait signal =>
      simp only [step, taken] at hstep
      split at hstep
      next =>
        obtain rfl := Option.some.inj hstep
        split <;> simp
      next => cases hstep
  | kill =>
      obtain ⟨init, -, hrest⟩ := Option.bind_eq_some_iff.mp hstep
      split at hrest
      next =>
        obtain rfl := Option.some.inj hrest
        simp
      next => cases hrest
  | waitpid status =>
      obtain ⟨init, -, hrest⟩ := Option.bind_eq_some_iff.mp hstep
      split at hrest
      next =>
        obtain ⟨table, -, rfl⟩ := Option.map_eq_some_iff.mp hrest
        cases status <;> simp only [reaped] <;> first | (split <;> simp) | simp
      next => cases hrest
  | _ => cases hown

theorem left_run {events : List Event} (hown : ∀ e ∈ events, e.own = true)
    (hcalled : w.pc ≠ .preparing) (hrun : run step w events = some w') :
    events.length + w'.left ≤ w.left ∧ w'.pc ≠ .preparing := by
  induction events generalizing w with
  | nil =>
      obtain rfl := Option.some.inj hrun
      exact ⟨by simp, hcalled⟩
  | cons e rest ih =>
      obtain ⟨next, hnext, hrest⟩ := run_cons_eq_some.mp hrun
      obtain ⟨he, hothers⟩ := List.forall_mem_cons.mp hown
      have hstep := left_step he hnext
      obtain ⟨hlater, hstill⟩ := ih hothers (called_step he hnext) hrest
      refine ⟨?_, hstill⟩
      rw [List.length_cons]
      omega

end alone

/-- With init dead and nothing else happening, the runtime's own steps run out,
and nowhere but in a return. -/
theorem returns_alone {table : Table Ended} {pending : Finset Signal} {front back : List Event}
    {w w' : World} (hrun : run step (start table pending) front = some w)
    (hcalled : w.pc ≠ .preparing) (hown : ∀ e ∈ back, e.own = true)
    (hback : run step w back = some w') :
    back.length ≤ w.left ∧
      (Dead w' → w'.pc.isReturned = false → ∃ e, e.own = true ∧ (step w' e).isSome) := by
  have hboth : run step (start table pending) (front ++ back) = some w' := by
    rw [run_append, hrun, Option.bind_some, hback]
  obtain ⟨hleft, hstill⟩ := left_run hown hcalled hback
  refine ⟨by omega, fun hdead hrunning => ?_⟩
  exact can_go_on (inv_run hboth) hdead hstill hrunning

/-- An orphan and init end behind one SIGCHLD, with a signal before it. -/
def coalesced : List Event :=
  [.spawn 7, .appear 9, .forkInit 8 false, .die 7 (.exited 0), .adopt 8, .waitFor 7, .supervise,
    .adopt 9, .signal .sigterm, .wait .sigchld, .waitpid .stillAlive, .die 9 (.exited 1),
    .die 8 (.signaled ⟨9, by decide⟩), .wait .sigterm, .kill, .wait .sigchld,
    .waitpid (.exited 9 1), .appear 9, .waitpid (.signaled 8 ⟨9, by decide⟩)]

theorem coalesced_enabled : (run step (start Table.empty ∅) coalesced).isSome := by decide +kernel

theorem supervise_exact_coalesced :
    ∃ w, run step (start Table.empty ∅) coalesced = some w ∧ w.pc = .returned 137 ∧
      ∃ init ∈ w.init, Reported w init 137 := by
  have hreturned : ((run step (start Table.empty ∅) coalesced).get coalesced_enabled).pc =
      .returned 137 := by
    decide +kernel
  refine ⟨_, (Option.some_get coalesced_enabled).symm, hreturned, ?_⟩
  obtain ⟨init, hinit, hexact⟩ :=
    (supervise_exact (Option.some_get coalesced_enabled).symm).1 137 hreturned
  exact ⟨init, hinit, (hexact 137).mpr rfl⟩

end Mars.Supervise
