import Weverywhere.ExitReports
import Weverywhere.FairRuns
import Weverywhere.Messages
import Weverywhere.PidLifecycle
import Mathlib.Data.Nat.Pairing

/-!
The receive loops of a serve node (`src/src/command/serve.rs`), several at once on
one executor. A listener that got a program runs `create_pid` and
`wait_for_pid_exit` itself and passes an error of the wait on to its own caller,
so a failed program that is still listed when the listener looks ends the loop.
-/
namespace Weverywhere.Listeners

open ByteStrings FairRuns Identity Messages PidLifecycle PidTable Runs

inductive ListenerPc
  | ready
  | creating (t : ℕ) (program : ProgramData)
  | waiting (t : ℕ)
  | stopped
  deriving DecidableEq

/-- Listener `i` uses the waiter slot `i` of the table. -/
structure State where
  table : PidTable.State
  listeners : ℕ → ListenerPc

/-- A turn of a listener comes with the datagram it receives, should it be at
`recv_from`; a turn of a runner with the outcome, should the guest end. -/
inductive Action
  | runner (t : ℕ) (outcome : Outcome)
  | listener (i : ℕ) (received : Option NetworkMessage)

def start : State where
  table := init
  listeners := fun _ => .ready

variable (c : Crypto) (compiles : Bytes → Bool)

/-- The program `begin_exec` passes to `create_pid`, if the datagram has one. -/
def started : Option NetworkMessage → Option ProgramData
  | some (.executeRequest program) =>
      if program.source.checkSelfSignature c = .ok () then some program else none
  | _ => none

/-- The operation on the table that a turn performs. -/
def tableAction (s : State) : Action → Option PidTable.Action
  | .runner t outcome => some (.runner t outcome)
  | .listener i received =>
      match s.listeners i with
      | .ready => (started c received).map fun _ => .createPid
      | .creating t program =>
          match (s.table.tasks t).create with
          | .failed => none
          | .returned => some (.waitForPidExit i (pidOf t))
          | _ => some (.creator t (compiles program.wasmProgramBytes))
      | .waiting _ =>
          match (s.table.waiters i).pc with
          | .returned _ => none
          | _ => some (.waiter i)
      | .stopped => none

/-- Where a turn leaves the listener. An `Err` of `begin_exec` is only logged,
one of `wait_for_pid_exit` leaves the loop through `?`. -/
def nextPc (s : State) (i : ℕ) (received : Option NetworkMessage) : ListenerPc :=
  match s.listeners i with
  | .ready =>
      match started c received with
      | some program => .creating s.table.created program
      | none => .ready
  | .creating t program =>
      match (s.table.tasks t).create with
      | .failed => .ready
      | .returned => .waiting t
      | _ => .creating t program
  | .waiting t =>
      match (s.table.waiters i).pc with
      | .returned (.ok _) => .ready
      | .returned .err => .stopped
      | _ => .waiting t
  | .stopped => .stopped

/-- The table after an operation, if there is one. -/
def perform (table : PidTable.State) : Option PidTable.Action → PidTable.State
  | some operation => table.step operation
  | none => table

def step (s : State) (action : Action) : State where
  table := perform s.table (tableAction c compiles s action)
  listeners :=
    match action with
    | .listener i received => Function.update s.listeners i (nextPc c s i received)
    | .runner _ _ => s.listeners

/-- The waiter is about to take an error that a failed runner has left. -/
def takesError (s : PidTable.State) (w : ℕ) : Bool :=
  match (s.waiters w).pc with
  | .takeError t => (s.tasks t).spawnError
  | _ => false

/-- An operation none of the three races happens at: no PID is removed before it
is inserted, no waiter finds an error to take, and no PID is used twice. -/
def Smooth (s : PidTable.State) : PidTable.Action → Prop
  | .createPid => s.created < 2 ^ 64
  | .runner t outcome => RemovesAfterInsert s (.runner t outcome)
  | .waiter w => takesError s w = false
  | _ => True

/-- The turn performs a smooth operation or none. -/
def SmoothTurn (s : State) (action : Action) : Prop :=
  ∀ operation ∈ tableAction c compiles s action, Smooth s.table operation

/-- The call has begun and not returned. -/
def inCall : WaitPc → Bool
  | .idle => false
  | .returned _ => false
  | _ => true

/-- The table after smooth operations only. -/
structure Healthy (s : PidTable.State) : Prop where
  orderly : Orderly s
  created_le : s.created ≤ 2 ^ 64
  no_err : ∀ w, (s.waiters w).pc ≠ .returned .err

theorem smooth_takeError {s : PidTable.State} {w t : ℕ} (h : Smooth s (.waiter w))
    (hpc : (s.waiters w).pc = .takeError t) : (s.tasks t).spawnError = false := by
  simpa only [Smooth, takesError, hpc] using h

theorem smooth_removes {s : PidTable.State} {operation : PidTable.Action}
    (h : Smooth s operation) : RemovesAfterInsert s operation := by
  cases operation with
  | runner t outcome => exact h
  | createPid => trivial
  | creator t compiles => trivial
  | waitForPidExit w pid => trivial
  | waiter w => trivial

theorem healthy_step {s : PidTable.State} {operation : PidTable.Action}
    (hsmooth : Smooth s operation) (h : Healthy s) : Healthy (s.step operation) := by
  have horderly := orderly_step s operation (smooth_removes hsmooth) h.orderly
  rcases PidTable.step_cases s operation with hsame | hmove
  · rwa [hsame]
  generalize s.step operation = s' at hmove horderly
  refine ⟨horderly, ?_, ?_⟩
  · have hle := h.created_le
    cases hmove <;> grind [Smooth, takesError]
  · intro w
    have hnone := h.no_err w
    cases hmove <;> grind [Smooth, takesError]

/-- In a healthy table a PID names one program in use. -/
theorem Healthy.pid_inj {s : PidTable.State} (h : Healthy s) {t t' : ℕ}
    (ht : (s.tasks t).create ≠ .unused) (ht' : (s.tasks t').create ≠ .unused)
    (hpid : pidOf t = pidOf t') : t = t' := by
  have hused : ∀ t, (s.tasks t).create ≠ .unused → t < 2 ^ 64 := by
    intro t ht
    by_contra hge
    have hle := h.created_le
    have hunused := h.orderly.wellFormed.unused t (by omega)
    exact ht (by rw [hunused])
  exact pidOf_inj (hused t ht) (hused t' ht') hpid

/-- A finished program is listed under no PID. -/
theorem Healthy.unlisted {s : PidTable.State} (h : Healthy s) {t : ℕ}
    (hcreate : (s.tasks t).create = .returned) {o : Outcome}
    (hdone : (s.tasks t).runner = .done o) : s.running (pidOf t) = none := by
  cases hrunning : s.running (pidOf t) with
  | none => rfl
  | some t' =>
    obtain ⟨hpid, hfiled⟩ := h.orderly.wellFormed.filed _ _ hrunning
    have hused : (s.tasks t').create ≠ .unused := by
      intro hunused
      simp [hunused, CreatePc.filed] at hfiled
    obtain rfl := h.pid_inj hused (by simp [hcreate]) hpid
    have hlive := h.orderly.live _ _ hrunning
    simp [hdone, RunnerPc.removed] at hlive

/-! How far a process still has to go. -/

def createRank : CreatePc → ℕ
  | .unused => 4
  | .spawn => 3
  | .insert => 2
  | .finish => 1
  | .returned => 0
  | .failed => 0

def runnerRank : RunnerPc → ℕ
  | .unspawned => 6
  | .running => 5
  | .setError _ => 4
  | .remove _ => 3
  | .record _ => 2
  | .notify _ => 1
  | .done _ => 0

/-- The way to the return of a call whose program is finished. -/
def waitRank : WaitPc → ℕ
  | .get => 6
  | .takeError _ => 5
  | .parked => 4
  | .enlist => 3
  | .containsKey => 2
  | .readCode => 1
  | .idle => 0
  | .returned _ => 0

/-- No operation sets `create_pid` or a runner back. -/
theorem ranks_step_le {s : PidTable.State} (h : WellFormed s) (operation : PidTable.Action)
    (t : ℕ) :
    createRank ((s.step operation).tasks t).create ≤ createRank (s.tasks t).create ∧
      runnerRank ((s.step operation).tasks t).runner ≤ runnerRank (s.tasks t).runner := by
  rcases PidTable.step_cases s operation with hsame | hmove
  · rw [hsame]
    exact ⟨le_refl _, le_refl _⟩
  generalize s.step operation = s' at hmove
  have hunused := h.unused t
  have hspawned := h.spawned t
  constructor
  · cases hmove <;> grind [createRank]
  · cases hmove <;> grind [runnerRank, CreatePc.spawned]

theorem createRank_creator_lt {s : PidTable.State} {t : ℕ} (compiles : Bool)
    (hunused : (s.tasks t).create ≠ .unused) (hreturned : (s.tasks t).create ≠ .returned)
    (hfailed : (s.tasks t).create ≠ .failed) :
    createRank ((s.creator t compiles).tasks t).create < createRank (s.tasks t).create := by
  cases hcreate : (s.tasks t).create <;>
    simp_all [PidTable.State.creator, createRank]
  split_ifs <;> simp

theorem runnerRank_runner_lt {s : PidTable.State} {t : ℕ} (outcome : Outcome)
    (hactive : (s.tasks t).runner.active = true) :
    runnerRank ((s.runner t outcome).tasks t).runner < runnerRank (s.tasks t).runner := by
  cases hrunner : (s.tasks t).runner <;>
    simp_all [PidTable.State.runner, runnerRank, RunnerPc.active]
  split_ifs <;> simp

/-- A call for a finished program gets closer to its return with every turn. -/
theorem waitRank_waiter_lt {s : PidTable.State} (h : Healthy s) {w t : ℕ} {o : Outcome}
    (hsmooth : Smooth s (.waiter w)) (hcall : inCall (s.waiters w).pc = true)
    (hpid : (s.waiters w).pid = pidOf t) (hcreate : (s.tasks t).create = .returned)
    (hdone : (s.tasks t).runner = .done o) :
    waitRank ((s.waiter w).waiters w).pc < waitRank (s.waiters w).pc := by
  have hunlisted := h.unlisted hcreate hdone
  rw [← hpid] at hunlisted
  cases hpc : (s.waiters w).pc with
  | idle => simp [hpc, inCall] at hcall
  | returned r => simp [hpc, inCall] at hcall
  | enlist => simp [PidTable.State.waiter, hpc, waitRank]
  | containsKey => simp [PidTable.State.waiter, hpc, hunlisted, waitRank]
  | get => simp [PidTable.State.waiter, hpc, hunlisted, waitRank]
  | takeError t' => simp [PidTable.State.waiter, hpc, smooth_takeError hsmooth hpc, waitRank]
  | readCode => simp [PidTable.State.waiter, hpc, waitRank]
  | parked =>
    -- the only program of this PID is finished, so the notification has come
    have hnotified : (s.waiters w).notified = true := by
      by_contra hnot
      obtain ⟨t', ht', hactive⟩ := h.orderly.pending w (by rw [hpc]; rfl) (by simpa using hnot)
      have hused : (s.tasks t').create ≠ .unused := by
        intro hunused
        have hrunner :=
          (h.orderly.wellFormed.spawned t').not.mp (by simp [hunused, CreatePc.spawned])
        rw [not_not] at hrunner
        simp [hrunner, RunnerPc.active] at hactive
      obtain rfl := h.pid_inj hused (by simp [hcreate]) (ht'.trans hpid)
      simp [hdone, RunnerPc.active] at hactive
    simp [PidTable.State.waiter, hpc, hnotified, waitRank]

/-- Only a waiter's own operations move it. -/
theorem waiter_step_of_ne (s : PidTable.State) (operation : PidTable.Action) (w : ℕ)
    (hwaiter : operation ≠ .waiter w) (hcall : ∀ pid, operation ≠ .waitForPidExit w pid) :
    ((s.step operation).waiters w).pc = (s.waiters w).pc ∧
      ((s.step operation).waiters w).pid = (s.waiters w).pid := by
  rcases PidTable.step_cases s operation with hsame | hmove
  · rw [hsame]
    exact ⟨rfl, rfl⟩
  generalize s.step operation = s' at hmove
  cases hmove <;> grind

/-- A `create_pid` that has returned, or has at least begun, stays so. -/
theorem create_step {s : PidTable.State} (h : WellFormed s) (operation : PidTable.Action) (t : ℕ) :
    ((s.tasks t).create = .returned → ((s.step operation).tasks t).create = .returned) ∧
      ((s.tasks t).create ≠ .unused → ((s.step operation).tasks t).create ≠ .unused) := by
  rcases PidTable.step_cases s operation with hsame | hmove
  · rw [hsame]
    exact ⟨id, id⟩
  generalize s.step operation = s' at hmove
  have hunused := h.unused t
  constructor
  · cases hmove <;> grind
  · cases hmove <;> grind

/-- What one turn of a listener does: its operation and where it goes. -/
inductive Turn (s : State) (i : ℕ) : Option PidTable.Action → ListenerPc → Prop
  | ignore (h : s.listeners i = .ready) : Turn s i none .ready
  | accept (program : ProgramData) (h : s.listeners i = .ready) :
      Turn s i (some .createPid) (.creating s.table.created program)
  | create (t : ℕ) (program : ProgramData) (compiles : Bool)
      (h : s.listeners i = .creating t program) (hreturned : (s.table.tasks t).create ≠ .returned)
      (hfailed : (s.table.tasks t).create ≠ .failed) :
      Turn s i (some (.creator t compiles)) (.creating t program)
  | refused (t : ℕ) (program : ProgramData) (h : s.listeners i = .creating t program) :
      Turn s i none .ready
  | call (t : ℕ) (program : ProgramData) (h : s.listeners i = .creating t program)
      (hcreate : (s.table.tasks t).create = .returned) :
      Turn s i (some (.waitForPidExit i (pidOf t))) (.waiting t)
  | wait (t : ℕ) (h : s.listeners i = .waiting t)
      (hpc : ∀ r, (s.table.waiters i).pc ≠ .returned r) :
      Turn s i (some (.waiter i)) (.waiting t)
  | exited (t : ℕ) (h : s.listeners i = .waiting t)
      (hpc : inCall (s.table.waiters i).pc = false) : Turn s i none .ready
  | failed (t : ℕ) (h : s.listeners i = .waiting t)
      (hpc : (s.table.waiters i).pc = .returned .err) : Turn s i none .stopped
  | stopped (h : s.listeners i = .stopped) : Turn s i none .stopped

theorem turn_of_listener (s : State) (i : ℕ) (received : Option NetworkMessage) :
    Turn s i (tableAction c compiles s (.listener i received)) (nextPc c s i received) := by
  cases hpc : s.listeners i with
  | ready =>
    cases hstarted : started c received with
    | none => simpa [tableAction, nextPc, hpc, hstarted] using Turn.ignore hpc
    | some program => simpa [tableAction, nextPc, hpc, hstarted] using Turn.accept program hpc
  | creating t program =>
    cases hcreate : (s.table.tasks t).create with
    | failed => simpa [tableAction, nextPc, hpc, hcreate] using Turn.refused t program hpc
    | returned => simpa [tableAction, nextPc, hpc, hcreate] using Turn.call t program hpc hcreate
    | _ =>
      simpa [tableAction, nextPc, hpc, hcreate] using Turn.create t program
        (compiles program.wasmProgramBytes) hpc (by simp [hcreate]) (by simp [hcreate])
  | waiting t =>
    cases hwait : (s.table.waiters i).pc with
    | returned r =>
      cases r with
      | ok code =>
        simpa [tableAction, nextPc, hpc, hwait] using Turn.exited t hpc (by rw [hwait]; rfl)
      | err => simpa [tableAction, nextPc, hpc, hwait] using Turn.failed t hpc hwait
    | _ => simpa [tableAction, nextPc, hpc, hwait] using Turn.wait t hpc (by simp [hwait])
  | stopped => simpa [tableAction, nextPc, hpc] using Turn.stopped hpc

/-- A listener is where its slot and its program say it is, and in its loop. -/
structure ServingAt (table : PidTable.State) (i : ℕ) (pc : ListenerPc) : Prop where
  used : ∀ t program, pc = .creating t program → (table.tasks t).create ≠ .unused
  call : inCall (table.waiters i).pc = true → ∃ t, pc = .waiting t
  waiting : ∀ t, pc = .waiting t →
    (table.waiters i).pid = pidOf t ∧ (table.waiters i).pc ≠ .idle ∧
      (table.tasks t).create = .returned
  going : pc ≠ .stopped

structure Serving (s : State) : Prop where
  healthy : Healthy s.table
  listener : ∀ i, ServingAt s.table i (s.listeners i)

theorem serving_start : Serving start where
  healthy := {
    orderly := orderly_init
    created_le := by simp [start, init]
    no_err := by simp [start, init] }
  listener := fun i => {
    used := by simp [start]
    call := by simp [start, init, inCall]
    waiting := by simp [start]
    going := by simp [start] }

theorem healthy_perform {table : PidTable.State} {operation : Option PidTable.Action}
    (hsmooth : ∀ op, operation = some op → Smooth table op) (h : Healthy table) :
    Healthy (perform table operation) := by
  cases operation with
  | none => exact h
  | some op => exact healthy_step (hsmooth op rfl) h

theorem create_perform {table : PidTable.State} (h : WellFormed table)
    (operation : Option PidTable.Action) (t : ℕ) :
    ((table.tasks t).create = .returned →
      ((perform table operation).tasks t).create = .returned) ∧
      ((table.tasks t).create ≠ .unused →
        ((perform table operation).tasks t).create ≠ .unused) := by
  cases operation with
  | none => exact ⟨id, id⟩
  | some op => exact create_step h op t

/-- An operation that leaves a listener's slot alone leaves it where it is. -/
theorem ServingAt.of_frame {table : PidTable.State} {i : ℕ} {pc : ListenerPc}
    (h : ServingAt table i pc) (hwellFormed : WellFormed table)
    (operation : Option PidTable.Action)
    (hpc : ((perform table operation).waiters i).pc = (table.waiters i).pc)
    (hpid : ((perform table operation).waiters i).pid = (table.waiters i).pid) :
    ServingAt (perform table operation) i pc where
  used := fun t program hcreating =>
    (create_perform hwellFormed operation t).2 (h.used t program hcreating)
  call := by
    rw [hpc]
    exact h.call
  waiting := by
    intro t hwaiting
    obtain ⟨hslot, hidle, hcreate⟩ := h.waiting t hwaiting
    rw [hpc, hpid]
    exact ⟨hslot, hidle, (create_perform hwellFormed operation t).1 hcreate⟩
  going := h.going

/-- A turn of listener `i` leaves the slots of the others alone. -/
theorem Turn.waiter_of_ne {s : State} {i j : ℕ} {operation : Option PidTable.Action}
    {pc : ListenerPc} (h : Turn s i operation pc) (hne : j ≠ i) :
    ((perform s.table operation).waiters j).pc = (s.table.waiters j).pc ∧
      ((perform s.table operation).waiters j).pid = (s.table.waiters j).pid := by
  cases h with
  | ignore => exact ⟨rfl, rfl⟩
  | refused => exact ⟨rfl, rfl⟩
  | exited => exact ⟨rfl, rfl⟩
  | failed => exact ⟨rfl, rfl⟩
  | stopped => exact ⟨rfl, rfl⟩
  | accept => exact ⟨rfl, rfl⟩
  | create => exact waiter_step_of_ne _ _ _ (by simp) (by simp)
  | call => exact waiter_step_of_ne _ _ _ (by simp) (by simp [hne.symm])
  | wait => exact waiter_step_of_ne _ _ _ (by simp [hne.symm]) (by simp)

/-- A free slot takes a new call. -/
theorem waitForPidExit_of_free {table : PidTable.State} {i : ℕ} (pid : UInt64)
    (h : inCall (table.waiters i).pc = false) :
    table.waitForPidExit i pid = table.setWaiter i ⟨pid, .enlist, false⟩ := by
  cases hpc : (table.waiters i).pc <;> simp_all [PidTable.State.waitForPidExit, inCall]

/-- A call that has begun does not become idle, or another's. -/
theorem waiter_waiter {table : PidTable.State} {i : ℕ} (h : (table.waiters i).pc ≠ .idle) :
    ((table.waiter i).waiters i).pc ≠ .idle ∧
      ((table.waiter i).waiters i).pid = (table.waiters i).pid := by
  rcases PidTable.waiter_cases table i with hsame | hmove
  · rw [hsame]
    exact ⟨h, rfl⟩
  generalize table.waiter i = table' at hmove
  cases hmove <;> grind

/-- A turn of a serving listener leaves it serving. -/
theorem Turn.servingAt {s : State} {i : ℕ} {operation : Option PidTable.Action}
    {pc : ListenerPc} (hturn : Turn s i operation pc) (h : Serving s) :
    ServingAt (perform s.table operation) i pc := by
  have hmine := h.listener i
  have hwellFormed := h.healthy.orderly.wellFormed
  have hfree : (∀ t, s.listeners i ≠ .waiting t) → inCall (s.table.waiters i).pc = false := by
    intro hnot
    by_contra hcall
    obtain ⟨t, ht⟩ := hmine.call (by simpa using hcall)
    exact hnot t ht
  cases hturn with
  | ignore hpc =>
    rw [hpc] at hmine
    exact hmine
  | accept program hpc =>
    have hslot := hfree (by simp [hpc])
    exact {
      used := by
        intro t program' heq
        rw [ListenerPc.creating.injEq] at heq
        rw [← heq.1]
        simp [perform, PidTable.State.step]
      call := by simp [perform, PidTable.State.step, hslot]
      waiting := by simp
      going := by simp }
  | create t program compiles hpc hreturned hfailed =>
    rw [hpc] at hmine
    obtain ⟨hsame, hpid⟩ := waiter_step_of_ne s.table (.creator t compiles) i (by simp) (by simp)
    exact hmine.of_frame hwellFormed _ hsame hpid
  | refused t program hpc =>
    have hslot := hfree (by simp [hpc])
    exact ⟨by simp, by simp [perform, hslot], by simp, by simp⟩
  | call t program hpc hcreate =>
    have hslot := hfree (by simp [hpc])
    have hstep : perform s.table (some (.waitForPidExit i (pidOf t))) =
        s.table.setWaiter i ⟨pidOf t, .enlist, false⟩ :=
      waitForPidExit_of_free (pidOf t) hslot
    rw [hstep]
    exact {
      used := by simp
      call := fun _ => ⟨t, rfl⟩
      waiting := by simp [hcreate]
      going := by simp }
  | wait t hpc hnot =>
    obtain ⟨hslot, hidle, hcreate⟩ := hmine.waiting t hpc
    obtain ⟨hidle', hpid⟩ := waiter_waiter hidle
    exact {
      used := by simp
      call := fun _ => ⟨t, rfl⟩
      waiting := by
        intro t' heq
        rw [ListenerPc.waiting.injEq] at heq
        subst heq
        exact ⟨hpid.trans hslot, hidle', (create_step hwellFormed _ t).1 hcreate⟩
      going := by simp }
  | exited t hpc hreturned =>
    exact ⟨by simp, by simp [perform, hreturned], by simp, by simp⟩
  | failed t hpc herr => exact absurd herr (h.healthy.no_err i)
  | stopped hpc => exact absurd hpc hmine.going

/-- Step lemma: smooth turns keep every listener serving. -/
theorem serving_step (s : State) (action : Action) (hsmooth : SmoothTurn c compiles s action)
    (h : Serving s) : Serving (step c compiles s action) := by
  refine ⟨healthy_perform hsmooth h.healthy, fun j => ?_⟩
  have hmine := h.listener j
  have hwellFormed := h.healthy.orderly.wellFormed
  cases action with
  | runner t outcome =>
    obtain ⟨hpc, hpid⟩ := waiter_step_of_ne s.table (.runner t outcome) j (by simp) (by simp)
    exact hmine.of_frame hwellFormed (some (.runner t outcome)) hpc hpid
  | listener i received =>
    have hturn := turn_of_listener c compiles s i received
    by_cases hji : j = i
    · subst hji
      simpa [step] using hturn.servingAt h
    · obtain ⟨hpc, hpid⟩ := hturn.waiter_of_ne hji
      simpa [step, hji] using hmine.of_frame hwellFormed _ hpc hpid

/-- A listener's step, taken apart. -/
theorem step_listener (s : State) (i : ℕ) (received : Option NetworkMessage) :
    ∃ operation pc, Turn s i operation pc ∧
      tableAction c compiles s (.listener i received) = operation ∧
      (step c compiles s (.listener i received)).table = perform s.table operation ∧
      (step c compiles s (.listener i received)).listeners i = pc :=
  ⟨_, _, turn_of_listener c compiles s i received, rfl, rfl, by simp [step]⟩

/-! Progress: what one turn does to the rank of the phase a listener is in. -/

/-- Turns of others do not move a listener. -/
theorem listeners_of_other (s : State) {action : Action} {i : ℕ}
    (hother : ∀ received, action ≠ .listener i received) :
    (step c compiles s action).listeners i = s.listeners i := by
  cases action with
  | runner t outcome => rfl
  | listener j received =>
    have hne : i ≠ j := by
      rintro rfl
      exact hother received rfl
    simp [step, hne]

theorem ranks_turn_le {s : State} (h : Serving s) (action : Action) (t : ℕ) :
    createRank ((step c compiles s action).table.tasks t).create ≤
        createRank (s.table.tasks t).create ∧
      runnerRank ((step c compiles s action).table.tasks t).runner ≤
        runnerRank (s.table.tasks t).runner := by
  simp only [step]
  cases tableAction c compiles s action with
  | none => exact ⟨le_refl _, le_refl _⟩
  | some operation => exact ranks_step_le h.healthy.orderly.wellFormed operation t

/-- A listener that starts a program gets through `create_pid`. -/
theorem creating_step {s : State} (h : Serving s) {i t : ℕ} {program : ProgramData}
    (hpc : s.listeners i = .creating t program) (action : Action) :
    ((step c compiles s action).listeners i = .ready ∨
        ∃ t', (step c compiles s action).listeners i = .waiting t') ∨
      (step c compiles s action).listeners i = .creating t program ∧
        createRank ((step c compiles s action).table.tasks t).create ≤
          createRank (s.table.tasks t).create ∧
        ((∃ received, action = .listener i received) →
          createRank ((step c compiles s action).table.tasks t).create <
            createRank (s.table.tasks t).create) := by
  have hle := (ranks_turn_le c compiles h action t).1
  by_cases hmine : ∃ received, action = .listener i received
  · obtain ⟨received, rfl⟩ := hmine
    obtain ⟨operation, pc, hturn, -, htable, hnext⟩ := step_listener c compiles s i received
    rw [htable] at hle
    rw [htable, hnext]
    cases hturn with
    | create t' program' compiles' hpc' hreturned hfailed =>
      obtain ⟨rfl, rfl⟩ := ListenerPc.creating.inj (hpc.symm.trans hpc')
      exact Or.inr ⟨rfl, hle, fun _ =>
        createRank_creator_lt compiles' ((h.listener i).used t program hpc) hreturned hfailed⟩
    | refused t' program' hpc' => exact Or.inl (Or.inl rfl)
    | call t' program' hpc' hcreate => exact Or.inl (Or.inr ⟨t', rfl⟩)
    | ignore hpc' => simp [hpc] at hpc'
    | accept program' hpc' => simp [hpc] at hpc'
    | wait t' hpc' hnot => simp [hpc] at hpc'
    | exited t' hpc' hreturned => simp [hpc] at hpc'
    | failed t' hpc' herr => simp [hpc] at hpc'
    | stopped hpc' => simp [hpc] at hpc'
  · have hother : ∀ received, action ≠ .listener i received := fun received heq =>
      hmine ⟨received, heq⟩
    rw [listeners_of_other c compiles s hother, hpc]
    exact Or.inr ⟨rfl, hle, fun h => absurd h hmine⟩

/-- In its turn a waiting listener is done with its program or goes on with its call. -/
theorem Turn.of_waiting {s : State} {i t : ℕ} {operation : Option PidTable.Action}
    {pc : ListenerPc} (hturn : Turn s i operation pc) (h : Serving s)
    (hpc : s.listeners i = .waiting t) :
    pc = .ready ∨ operation = some (.waiter i) ∧ pc = .waiting t ∧
      ∀ r, (s.table.waiters i).pc ≠ .returned r := by
  cases hturn with
  | wait t' hpc' hnot =>
    obtain rfl := ListenerPc.waiting.inj (hpc.symm.trans hpc')
    exact Or.inr ⟨rfl, rfl, hnot⟩
  | exited t' hpc' hreturned => exact Or.inl rfl
  | failed t' hpc' herr => exact absurd herr (h.healthy.no_err i)
  | ignore hpc' => simp [hpc] at hpc'
  | accept program' hpc' => simp [hpc] at hpc'
  | create t' program' compiles' hpc' hreturned hfailed => simp [hpc] at hpc'
  | refused t' program' hpc' => simp [hpc] at hpc'
  | call t' program' hpc' hcreate => simp [hpc] at hpc'
  | stopped hpc' => simp [hpc] at hpc'

/-- A waiting listener keeps waiting or is done with its program. -/
theorem waiting_step {s : State} (h : Serving s) {i t : ℕ} (hpc : s.listeners i = .waiting t)
    (action : Action) :
    (step c compiles s action).listeners i = .ready ∨
      (step c compiles s action).listeners i = .waiting t := by
  by_cases hmine : ∃ received, action = .listener i received
  · obtain ⟨received, rfl⟩ := hmine
    obtain ⟨operation, pc, hturn, -, -, hnext⟩ := step_listener c compiles s i received
    rw [hnext]
    exact (hturn.of_waiting h hpc).imp_right fun hkept => hkept.2.1
  · rw [listeners_of_other c compiles s fun received heq => hmine ⟨received, heq⟩]
    exact Or.inr hpc

theorem runnerRank_eq_zero_iff {pc : RunnerPc} : runnerRank pc = 0 ↔ ∃ o, pc = .done o := by
  cases pc <;> simp [runnerRank]

/-- The runner of a program that is waited for has been spawned. -/
theorem active_of_waiting {s : State} (h : Serving s) {i t : ℕ}
    (hpc : s.listeners i = .waiting t) (hrank : runnerRank (s.table.tasks t).runner ≠ 0) :
    (s.table.tasks t).runner.active = true := by
  obtain ⟨-, -, hcreate⟩ := (h.listener i).waiting t hpc
  have hspawned := (h.healthy.orderly.wellFormed.spawned t).mp
    (by simp [hcreate, CreatePc.spawned])
  cases hrunner : (s.table.tasks t).runner <;>
    simp_all [RunnerPc.active, runnerRank]

/-- Turns of others leave a listener's call where it is. -/
theorem slot_of_other (s : State) {action : Action} {i : ℕ}
    (hother : ∀ received, action ≠ .listener i received) :
    ((step c compiles s action).table.waiters i).pc = (s.table.waiters i).pc := by
  cases action with
  | runner t outcome => exact (waiter_step_of_ne _ _ _ (by simp) (by simp)).1
  | listener j received =>
    have hne : i ≠ j := by
      rintro rfl
      exact hother received rfl
    exact ((turn_of_listener c compiles s j received).waiter_of_ne hne).1

/-- With its program finished, a listener's own turns bring its call to an end. -/
theorem finished_step {s : State} (h : Serving s) {i t : ℕ} (hpc : s.listeners i = .waiting t)
    (hrank : runnerRank (s.table.tasks t).runner = 0) (received : Option NetworkMessage)
    (hsmooth : SmoothTurn c compiles s (.listener i received)) :
    (step c compiles s (.listener i received)).listeners i = .ready ∨
      waitRank ((step c compiles s (.listener i received)).table.waiters i).pc <
        waitRank (s.table.waiters i).pc := by
  obtain ⟨o, hdone⟩ := runnerRank_eq_zero_iff.mp hrank
  obtain ⟨hpid, hidle, hcreate⟩ := (h.listener i).waiting t hpc
  obtain ⟨operation, pc, hturn, hop, htable, hnext⟩ := step_listener c compiles s i received
  rw [htable, hnext]
  rcases hturn.of_waiting h hpc with hready | ⟨rfl, -, hnot⟩
  · exact Or.inl hready
  · have hcall : inCall (s.table.waiters i).pc = true := by
      cases hslot : (s.table.waiters i).pc <;> simp_all [inCall]
    exact Or.inr (waitRank_waiter_lt h.healthy (hsmooth _ hop) hcall hpid hcreate hdone)

/-- The states of the node under a schedule. -/
abbrev run (schedule : ℕ → Action) : ℕ → State := stateAt (step c compiles) start schedule

theorem run_succ (schedule : ℕ → Action) (n : ℕ) :
    run c compiles schedule (n + 1) =
      step c compiles (run c compiles schedule n) (schedule n) := rfl

section Schedules

variable {c compiles} {schedule : ℕ → Action}

/-- The scheduler gives every listener and every runner turns without end. -/
structure FairSchedule (schedule : ℕ → Action) : Prop where
  listener : ∀ i, Fair schedule fun action => ∃ received, action = .listener i received
  runner : ∀ t, Fair schedule fun action => ∃ outcome, action = .runner t outcome

variable (hsmooth : ∀ n, SmoothTurn c compiles (run c compiles schedule n) (schedule n))

include hsmooth

theorem serving_stateAt (n : ℕ) : Serving (run c compiles schedule n) :=
  invariant_stateAt (serving_step c compiles) hsmooth serving_start n

variable (hfair : FairSchedule schedule)

include hfair

/-- What a listener creates it comes to wait for, unless it is refused. -/
theorem creating_leadsTo (i t : ℕ) (program : ProgramData) :
    LeadsTo (run c compiles schedule)
      (fun s => s.listeners i = .creating t program)
      (fun s => s.listeners i = .ready ∨ ∃ t', s.listeners i = .waiting t') := by
  refine leadsTo_of_rank (fun s => createRank (s.table.tasks t).create) (hfair.listener i)
    (fun n hn => ?_) (fun n hn hmine => ?_)
  · rcases creating_step c compiles (serving_stateAt hsmooth n) hn (schedule n) with
      hreached | ⟨hkept, hle, -⟩
    · exact Or.inl hreached
    · exact Or.inr ⟨hkept, hle⟩
  · rcases creating_step c compiles (serving_stateAt hsmooth n) hn (schedule n) with
      hreached | ⟨-, -, hlt⟩
    · exact Or.inl hreached
    · exact Or.inr (hlt hmine)

/-- The program a listener waits for finishes. -/
theorem waiting_leadsTo (i t : ℕ) :
    LeadsTo (run c compiles schedule)
      (fun s => s.listeners i = .waiting t)
      (fun s => s.listeners i = .ready ∨
        s.listeners i = .waiting t ∧ runnerRank (s.table.tasks t).runner = 0) := by
  refine leadsTo_of_rank (fun s => runnerRank (s.table.tasks t).runner) (hfair.runner t)
    (fun n hn => ?_) (fun n hn hmine => ?_)
  · have hserving := serving_stateAt hsmooth n
    have hle := (ranks_turn_le c compiles hserving (schedule n) t).2
    rcases waiting_step c compiles hserving hn (schedule n) with hready | hkept
    · exact Or.inl (Or.inl hready)
    · exact Or.inr ⟨hkept, hle⟩
  · have hserving := serving_stateAt hsmooth n
    obtain ⟨outcome, hturn⟩ := hmine
    by_cases hrank : runnerRank ((run c compiles schedule n).table.tasks t).runner = 0
    · have hle := (ranks_turn_le c compiles hserving (schedule n) t).2
      rcases waiting_step c compiles hserving hn (schedule n) with hready | hkept
      · exact Or.inl (Or.inl hready)
      · exact Or.inl (Or.inr ⟨hkept, Nat.le_zero.mp (hrank ▸ hle)⟩)
    · have hlt := runnerRank_runner_lt outcome (active_of_waiting hserving hn hrank)
      refine Or.inr ?_
      rw [run_succ, hturn]
      exact hlt

/-- A listener whose program has finished gets ready. -/
theorem finished_leadsTo (i t : ℕ) :
    LeadsTo (run c compiles schedule)
      (fun s => s.listeners i = .waiting t ∧ runnerRank (s.table.tasks t).runner = 0)
      (fun s => s.listeners i = .ready) := by
  refine leadsTo_of_rank (fun s => waitRank (s.table.waiters i).pc) (hfair.listener i)
    (fun n hn => ?_) (fun n hn hmine => ?_)
  · obtain ⟨hpc, hrank⟩ := hn
    have hserving := serving_stateAt hsmooth n
    have hle := (ranks_turn_le c compiles hserving (schedule n) t).2
    rcases waiting_step c compiles hserving hpc (schedule n) with hready | hkept
    · exact Or.inl hready
    · have hfinished := Nat.le_zero.mp (hrank ▸ hle)
      by_cases hmine : ∃ received, schedule n = .listener i received
      · obtain ⟨received, hturn⟩ := hmine
        have hsmoothTurn := hsmooth n
        rw [hturn] at hsmoothTurn
        rcases finished_step c compiles hserving hpc hrank received hsmoothTurn with hready | hlt
        · rw [← hturn] at hready
          exact Or.inl hready
        · rw [← hturn] at hlt
          exact Or.inr ⟨⟨hkept, hfinished⟩, Nat.le_of_lt hlt⟩
      · have hslot := slot_of_other c compiles (run c compiles schedule n)
          (fun received heq => hmine ⟨received, heq⟩)
        exact Or.inr ⟨⟨hkept, hfinished⟩, Nat.le_of_eq (congrArg waitRank hslot)⟩
  · obtain ⟨received, hturn⟩ := hmine
    have hsmoothTurn := hsmooth n
    rw [hturn] at hsmoothTurn
    rw [run_succ, hturn]
    exact finished_step c compiles (serving_stateAt hsmooth n) hn.1 hn.2 received hsmoothTurn

/-- Under a fair schedule of smooth turns every listener is ready again after
any moment. -/
theorem ready_again (i n : ℕ) :
    ∃ m, n ≤ m ∧ (run c compiles schedule m).listeners i = .ready := by
  have hwaiting : ∀ t, LeadsTo (run c compiles schedule) (fun s => s.listeners i = .waiting t)
      (fun s => s.listeners i = .ready) := by
    intro t
    exact (waiting_leadsTo hsmooth hfair i t).trans (finished_leadsTo hsmooth hfair i t).or_self
  cases hpc : (run c compiles schedule n).listeners i with
  | ready => exact ⟨n, le_refl n, hpc⟩
  | waiting t => exact hwaiting t n hpc
  | creating t program =>
    obtain ⟨m, hnm, hready | ⟨t', hm⟩⟩ := creating_leadsTo hsmooth hfair i t program n hpc
    · exact ⟨m, hnm, hready⟩
    · obtain ⟨k, hmk, hk⟩ := hwaiting t' m hm
      exact ⟨k, Nat.le_trans hnm hmk, hk⟩
  | stopped => exact absurd hpc ((serving_stateAt hsmooth n).listener i).going

end Schedules

/-- Whatever datagrams arrive, whatever programs they carry and however those
end: in a run of smooth turns no listener leaves its loop, and under a fair
schedule of smooth turns each is ready to receive again after any moment. -/
theorem listener_outlives_programs :
    (∀ actions, EachStep (step c compiles) (SmoothTurn c compiles) start actions →
      EveryState (step c compiles) (fun s => ∀ i, s.listeners i ≠ .stopped) start actions) ∧
    ∀ schedule, (∀ n, SmoothTurn c compiles (run c compiles schedule n) (schedule n)) →
      FairSchedule schedule →
        ∀ i n, ∃ m, n ≤ m ∧ (run c compiles schedule m).listeners i = .ready :=
  ⟨fun _ hsmooth => everyState_of_eachStep (step c compiles) (serving_step c compiles)
      (fun _ h i => (h.listener i).going) hsmooth serving_start,
    fun _ hsmooth hfair => ready_again hsmooth hfair⟩

/-- A listener that has left its loop never comes back. -/
theorem stopped_stays (actions : List Action) {s : State} {i : ℕ}
    (h : s.listeners i = .stopped) :
    (actions.foldl (step c compiles) s).listeners i = .stopped := by
  induction actions generalizing s with
  | nil => exact h
  | cons action rest ih =>
    apply ih
    by_cases hmine : ∃ received, action = .listener i received
    · obtain ⟨received, rfl⟩ := hmine
      simp [step, nextPc, h]
    · rw [listeners_of_other c compiles s fun received heq => hmine ⟨received, heq⟩]
      exact h

instance (s : PidTable.State) : (operation : PidTable.Action) → Decidable (Smooth s operation)
  | .createPid => inferInstanceAs (Decidable (_ < _))
  | .runner t outcome => inferInstanceAs (Decidable (RemovesAfterInsert s (.runner t outcome)))
  | .waiter _ => inferInstanceAs (Decidable (_ = _))
  | .creator _ _ => .isTrue trivial
  | .waitForPidExit _ _ => .isTrue trivial

instance (s : State) (action : Action) : Decidable (SmoothTurn c compiles s action) :=
  inferInstanceAs (Decidable (∀ operation ∈ tableAction c compiles s action, _))

/-- A request without a program worth naming, from a known sender. -/
def request : NetworkMessage :=
  .executeRequest {
    source := idealIdentity "alice" aliceKey 1760000000
    humanName := "hello"
    wasmProgramBytes := []
    signature := []
    requestUuid := Vector.replicate 16 0
    depthBudget := 0
    visited := []
    argList := []
    argMap := [] }

/-- A listener receives a request, creates the PID and begins to wait. -/
def accepted : List Action :=
  [.listener 0 (some request), .listener 0 none, .listener 0 none, .listener 0 none,
    .listener 0 none]

/-- The guest returns, and the listener reads its exit code. -/
def served : List Action :=
  accepted ++ [.listener 0 none, .listener 0 none, .listener 0 none, .runner 0 .returned,
    .runner 0 .returned, .runner 0 .returned, .runner 0 .returned, .listener 0 none,
    .listener 0 none, .listener 0 none, .listener 0 none, .listener 0 none, .listener 0 none]

/-- Nobody sends anything any more; listeners and runners take turns. -/
def idle (n : ℕ) : Action :=
  if n.unpair.1 % 2 = 0 then .listener n.unpair.2 none else .runner n.unpair.2 .returned

theorem fair_idle : FairSchedule idle where
  listener := by
    intro i n
    have hle := Nat.left_le_pair (2 * n) i
    refine ⟨Nat.pair (2 * n) i, by omega, none, ?_⟩
    simp [idle]
  runner := by
    intro t n
    have hle := Nat.left_le_pair (2 * n + 1) t
    refine ⟨Nat.pair (2 * n + 1) t, by omega, .returned, ?_⟩
    have hodd : (2 * n + 1) % 2 = 1 := by omega
    simp [idle, hodd]

/-- Every listener is at `recv_from` and no runner has anything left to do. -/
structure Quiet (s : State) : Prop where
  ready : ∀ i, s.listeners i = .ready
  inactive : ∀ t, (s.table.tasks t).runner.active = false

theorem runner_of_inactive {s : PidTable.State} {t : ℕ} (outcome : Outcome)
    (h : (s.tasks t).runner.active = false) : s.runner t outcome = s := by
  cases hrunner : (s.tasks t).runner <;> simp_all [PidTable.State.runner, RunnerPc.active]

theorem quiet_idle {s : State} (h : Quiet s) (n : ℕ) :
    SmoothTurn c compiles s (idle n) ∧ Quiet (step c compiles s (idle n)) := by
  unfold idle
  split_ifs
  · have hnone : tableAction c compiles s (.listener n.unpair.2 none) = none := by
      simp [tableAction, h.ready, started]
    refine ⟨by simp [SmoothTurn, hnone], ?_, ?_⟩
    · intro i
      simp [step, Function.update_apply, nextPc, h.ready, started]
    · intro t
      simp only [step, hnone]
      exact h.inactive t
  · have hsame : s.table.step (.runner n.unpair.2 .returned) = s.table :=
      runner_of_inactive .returned (h.inactive _)
    constructor
    · rintro operation ⟨rfl⟩
      intro hremoving
      have hinactive := h.inactive n.unpair.2
      cases hrunner : (s.table.tasks n.unpair.2).runner <;>
        simp_all [RunnerPc.active, RunnerPc.removing]
    · refine ⟨h.ready, fun t => ?_⟩
      simp only [step, tableAction, perform, hsame]
      exact h.inactive t

theorem quiet_stateAt {s : State} (h : Quiet s) (n : ℕ) :
    Quiet (stateAt (step c compiles) s idle n) := by
  induction n with
  | zero => exact h
  | succ n ih => exact (quiet_idle c compiles ih n).2

/-- Listeners without a turn stay where they are. -/
theorem listeners_foldl (actions : List Action) {i : ℕ}
    (hother : ∀ action ∈ actions, ∀ received, action ≠ .listener i received) (s : State) :
    (actions.foldl (step c compiles) s).listeners i = s.listeners i := by
  induction actions generalizing s with
  | nil => rfl
  | cons action rest ih =>
    rw [List.foldl_cons, ih (fun a ha => hother a (List.mem_cons_of_mem _ ha)),
      listeners_of_other c compiles s (hother action List.mem_cons_self)]

theorem smooth_served :
    EachStep (step (idealCrypto (aliceIssued [])) fun _ => true)
      (SmoothTurn (idealCrypto (aliceIssued [])) fun _ => true) start served := by
  decide

theorem quiet_served :
    Quiet (served.foldl (step (idealCrypto (aliceIssued [])) fun _ => true) start) where
  ready := by
    intro i
    by_cases hi : i = 0
    · subst hi
      decide
    · apply listeners_foldl
      intro action haction received heq
      subst heq
      simp [served, accepted, hi] at haction
  inactive := by
    intro t
    cases t with
    | zero => decide
    | succ t =>
      have hserving : EveryState (step (idealCrypto (aliceIssued [])) fun _ => true) Serving start
          served :=
        everyState_of_eachStep _ (serving_step _ _) (fun _ h => h) smooth_served serving_start
      have hcreated : (served.foldl (step (idealCrypto (aliceIssued [])) fun _ => true)
          start).table.created = 1 := by
        decide
      rw [hserving.last.healthy.orderly.wellFormed.unused (t + 1) (by omega)]
      rfl

/-- A request is served, and the listeners are ready again ever after. -/
theorem listener_outlives_programs_served :
    EveryState (step (idealCrypto (aliceIssued [])) fun _ => true)
      (fun s => ∀ i, s.listeners i ≠ .stopped) start served ∧
    ∀ i n, ∃ m, n ≤ m ∧ (run (idealCrypto (aliceIssued [])) (fun _ => true)
      (startingWith served idle) m).listeners i = .ready :=
  ⟨(listener_outlives_programs (idealCrypto (aliceIssued [])) fun _ => true).1 served
      smooth_served,
    (listener_outlives_programs (idealCrypto (aliceIssued [])) fun _ => true).2
      (startingWith served idle)
      (each_startingWith smooth_served fun n =>
        (quiet_idle _ _ (quiet_stateAt _ _ quiet_served n) n).1)
      ⟨fun i => (fair_idle.listener i).startingWith served,
        fun t => (fair_idle.runner t).startingWith served⟩⟩

/-- The guest has no `_start`, and the listener looks before the runner has
removed its PID. -/
def failedInSight : List Action :=
  accepted ++ [.runner 0 .noStart, .runner 0 .noStart, .listener 0 none, .listener 0 none,
    .listener 0 none, .listener 0 none, .listener 0 none]

/-- The failure of a guest ends the receive loop, for good. -/
theorem failed_guest_stops_listener :
    (failedInSight.foldl (step (idealCrypto (aliceIssued [])) fun _ => true) start).listeners 0 =
      .stopped ∧
    ∀ later, ((failedInSight ++ later).foldl (step (idealCrypto (aliceIssued [])) fun _ => true)
      start).listeners 0 = .stopped := by
  have hstopped : (failedInSight.foldl (step (idealCrypto (aliceIssued [])) fun _ => true)
      start).listeners 0 = .stopped := by
    decide
  refine ⟨hstopped, fun later => ?_⟩
  rw [List.foldl_append]
  exact stopped_stays _ _ later hstopped

end Weverywhere.Listeners
