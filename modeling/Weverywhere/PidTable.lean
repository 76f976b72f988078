import Weverywhere.Runs
import Mathlib.Algebra.Ring.Nat
import Mathlib.Logic.Function.Basic

/-!
The lifecycle of PIDs (`create_pid`, its runner tasks and `wait_for_pid_exit` in
`src/src/executor/mod.rs`). Each operation on `running_programs`, on
`pid_last_exit_code`, on a `spawn_error` and on `pid_exit_signal` is one step of
the process that performs it; an action whose process is at no such operation
changes nothing.
-/
namespace Weverywhere.PidTable

/-- How the run of a guest ends. -/
inductive Outcome
  | returned
  | instantiateFailed
  | noStart
  | callFailed
  deriving DecidableEq

/-- The code the runner records. -/
def Outcome.exitCode : Outcome → UInt32
  | .returned => 0
  | _ => 1

/-- The next operation of `create_pid` on behalf of one program. -/
inductive CreatePc
  | unused
  | spawn
  | insert
  | finish
  | returned
  | failed
  deriving DecidableEq

/-- The next operation of a runner task. -/
inductive RunnerPc
  | unspawned
  | running
  | setError (o : Outcome)
  | remove (o : Outcome)
  | record (o : Outcome)
  | notify (o : Outcome)
  | done (o : Outcome)
  deriving DecidableEq

/-- One program: the `create_pid` call that starts it, its runner and the
`spawn_error` slot of its `RunningProgram`. -/
structure Task where
  create : CreatePc
  runner : RunnerPc
  spawnError : Bool
  deriving DecidableEq

inductive WaitResult
  | ok (code : UInt32)
  | err
  deriving DecidableEq

/-- The next operation of `wait_for_pid_exit`. -/
inductive WaitPc
  | idle
  | enlist
  | containsKey
  | get
  | takeError (t : ℕ)
  | parked
  | readCode
  | returned (result : WaitResult)
  deriving DecidableEq

/-- `notified`: `notify_waiters` has reached the waiter's current `Notified`. -/
structure Waiter where
  pid : UInt64
  pc : WaitPc
  notified : Bool
  deriving DecidableEq

/-- `created` is what `next_pid` has counted to; program `t` has the PID it
showed, which wraps around. `running` maps a PID to the program filed under it. -/
structure State where
  created : ℕ
  tasks : ℕ → Task
  running : UInt64 → Option ℕ
  lastExit : UInt64 → Option UInt32
  waiters : ℕ → Waiter

def init : State where
  created := 0
  tasks := fun _ => ⟨.unused, .unspawned, false⟩
  running := fun _ => none
  lastExit := fun _ => none
  waiters := fun _ => ⟨0, .idle, false⟩

def pidOf (t : ℕ) : UInt64 := UInt64.ofNat t

/-- Up to 2^64 programs a PID names one program. -/
theorem pidOf_inj {t t' : ℕ} (ht : t < 2 ^ 64) (ht' : t' < 2 ^ 64) (h : pidOf t = pidOf t') :
    t = t' := by
  have hnat := congrArg UInt64.toNat h
  simp only [pidOf, UInt64.toNat_ofNat'] at hnat
  omega

inductive Action
  | createPid
  | creator (t : ℕ) (compiles : Bool)
  | runner (t : ℕ) (outcome : Outcome)
  | waitForPidExit (w : ℕ) (pid : UInt64)
  | waiter (w : ℕ)

namespace State

def setTask (s : State) (t : ℕ) (task : Task) : State :=
  { s with tasks := Function.update s.tasks t task }

def setWaiter (s : State) (w : ℕ) (waiter : Waiter) : State :=
  { s with waiters := Function.update s.waiters w waiter }

def setRunning (s : State) (pid : UInt64) (entry : Option ℕ) : State :=
  { s with running := Function.update s.running pid entry }

def setLastExit (s : State) (pid : UInt64) (code : UInt32) : State :=
  { s with lastExit := Function.update s.lastExit pid (some code) }

/-- `pid_exit_signal.notify_waiters()`. -/
def notifyWaiters (s : State) : State :=
  { s with waiters := fun w => { s.waiters w with notified := true } }

/-- `create_next_pid`. -/
def createPid (s : State) : State :=
  { s with created := s.created + 1 }.setTask s.created ⟨.spawn, .unspawned, false⟩

/-- The rest of `create_pid`; `compiles` is whether everything before the spawn
succeeds. -/
def creator (s : State) (t : ℕ) (compiles : Bool) : State :=
  let task := s.tasks t
  match task.create with
  | .spawn =>
      if compiles then s.setTask t { task with create := .insert, runner := .running }
      else s.setTask t { task with create := .failed }
  | .insert => (s.setRunning (pidOf t) (some t)).setTask t { task with create := .finish }
  | .finish => s.setTask t { task with create := .returned }
  | _ => s

/-- The spawned task. Every way to fail leaves its error, then does what a
normal return does with exit code 1. -/
def runner (s : State) (t : ℕ) (outcome : Outcome) : State :=
  let task := s.tasks t
  match task.runner with
  | .running =>
      s.setTask t { task with
        runner := if outcome = .returned then .remove outcome else .setError outcome }
  | .setError o => s.setTask t { task with runner := .remove o, spawnError := true }
  | .remove o => (s.setRunning (pidOf t) none).setTask t { task with runner := .record o }
  | .record o => (s.setLastExit (pidOf t) o.exitCode).setTask t { task with runner := .notify o }
  | .notify o => s.notifyWaiters.setTask t { task with runner := .done o }
  | _ => s

def waitForPidExit (s : State) (w : ℕ) (pid : UInt64) : State :=
  match (s.waiters w).pc with
  | .idle => s.setWaiter w ⟨pid, .enlist, false⟩
  | .returned _ => s.setWaiter w ⟨pid, .enlist, false⟩
  | _ => s

/-- One pass of the loop creates its `Notified` before it looks at the table. -/
def waiter (s : State) (w : ℕ) : State :=
  let me := s.waiters w
  match me.pc with
  | .enlist => s.setWaiter w { me with pc := .containsKey, notified := false }
  | .containsKey =>
      s.setWaiter w { me with pc := if (s.running me.pid).isSome then .get else .readCode }
  | .get =>
      s.setWaiter w { me with
        pc := match s.running me.pid with
          | some t => .takeError t
          | none => .parked }
  | .takeError t =>
      if (s.tasks t).spawnError then
        (s.setTask t { s.tasks t with spawnError := false }).setWaiter w
          { me with pc := .returned .err }
      else s.setWaiter w { me with pc := .parked }
  | .parked => if me.notified then s.setWaiter w { me with pc := .enlist } else s
  | .readCode =>
      s.setWaiter w { me with pc := .returned (.ok ((s.lastExit me.pid).getD 0)) }
  | _ => s

def step (s : State) : Action → State
  | .createPid => s.createPid
  | .creator t compiles => s.creator t compiles
  | .runner t outcome => s.runner t outcome
  | .waitForPidExit w pid => s.waitForPidExit w pid
  | .waiter w => s.waiter w

@[simp, grind =] theorem setTask_tasks (s : State) (t t' : ℕ) (task : Task) :
    (s.setTask t task).tasks t' = if t' = t then task else s.tasks t' :=
  Function.update_apply s.tasks t task t'

@[simp, grind =] theorem setTask_created (s : State) (t : ℕ) (task : Task) :
    (s.setTask t task).created = s.created := rfl

@[simp, grind =] theorem setTask_running (s : State) (t : ℕ) (task : Task) (pid' : UInt64) :
    (s.setTask t task).running pid' = s.running pid' := rfl

@[simp, grind =] theorem setTask_lastExit (s : State) (t : ℕ) (task : Task) (pid' : UInt64) :
    (s.setTask t task).lastExit pid' = s.lastExit pid' := rfl

@[simp, grind =] theorem setTask_waiters (s : State) (t : ℕ) (task : Task) (w' : ℕ) :
    (s.setTask t task).waiters w' = s.waiters w' := rfl

@[simp, grind =] theorem setWaiter_waiters (s : State) (w w' : ℕ) (waiter : Waiter) :
    (s.setWaiter w waiter).waiters w' = if w' = w then waiter else s.waiters w' :=
  Function.update_apply s.waiters w waiter w'

@[simp, grind =] theorem setWaiter_created (s : State) (w : ℕ) (waiter : Waiter) :
    (s.setWaiter w waiter).created = s.created := rfl

@[simp, grind =] theorem setWaiter_tasks (s : State) (w : ℕ) (waiter : Waiter) (t' : ℕ) :
    (s.setWaiter w waiter).tasks t' = s.tasks t' := rfl

@[simp, grind =] theorem setWaiter_running (s : State) (w : ℕ) (waiter : Waiter) (pid' : UInt64) :
    (s.setWaiter w waiter).running pid' = s.running pid' := rfl

@[simp, grind =] theorem setWaiter_lastExit (s : State) (w : ℕ) (waiter : Waiter) (pid' : UInt64) :
    (s.setWaiter w waiter).lastExit pid' = s.lastExit pid' := rfl

@[simp, grind =] theorem setRunning_running (s : State) (pid pid' : UInt64) (entry : Option ℕ) :
    (s.setRunning pid entry).running pid' = if pid' = pid then entry else s.running pid' :=
  Function.update_apply s.running pid entry pid'

@[simp, grind =] theorem setRunning_created (s : State) (pid : UInt64) (entry : Option ℕ) :
    (s.setRunning pid entry).created = s.created := rfl

@[simp, grind =] theorem setRunning_tasks (s : State) (pid : UInt64) (entry : Option ℕ) (t' : ℕ) :
    (s.setRunning pid entry).tasks t' = s.tasks t' := rfl

@[simp, grind =] theorem setRunning_lastExit (s : State) (pid : UInt64) (entry : Option ℕ)
    (pid' : UInt64) : (s.setRunning pid entry).lastExit pid' = s.lastExit pid' := rfl

@[simp, grind =] theorem setRunning_waiters (s : State) (pid : UInt64) (entry : Option ℕ) (w' : ℕ) :
    (s.setRunning pid entry).waiters w' = s.waiters w' := rfl

@[simp, grind =] theorem setLastExit_lastExit (s : State) (pid pid' : UInt64) (code : UInt32) :
    (s.setLastExit pid code).lastExit pid' = if pid' = pid then some code else s.lastExit pid' :=
  Function.update_apply s.lastExit pid (some code) pid'

@[simp, grind =] theorem setLastExit_created (s : State) (pid : UInt64) (code : UInt32) :
    (s.setLastExit pid code).created = s.created := rfl

@[simp, grind =] theorem setLastExit_tasks (s : State) (pid : UInt64) (code : UInt32) (t' : ℕ) :
    (s.setLastExit pid code).tasks t' = s.tasks t' := rfl

@[simp, grind =] theorem setLastExit_running (s : State) (pid : UInt64) (code : UInt32)
    (pid' : UInt64) : (s.setLastExit pid code).running pid' = s.running pid' := rfl

@[simp, grind =] theorem setLastExit_waiters (s : State) (pid : UInt64) (code : UInt32) (w' : ℕ) :
    (s.setLastExit pid code).waiters w' = s.waiters w' := rfl

@[simp, grind =] theorem notifyWaiters_waiters (s : State) (w : ℕ) :
    s.notifyWaiters.waiters w = { s.waiters w with notified := true } := rfl

@[simp, grind =] theorem notifyWaiters_created (s : State) :
    s.notifyWaiters.created = s.created := rfl

@[simp, grind =] theorem notifyWaiters_tasks (s : State) (t' : ℕ) :
    s.notifyWaiters.tasks t' = s.tasks t' := rfl

@[simp, grind =] theorem notifyWaiters_running (s : State) (pid' : UInt64) :
    s.notifyWaiters.running pid' = s.running pid' := rfl

@[simp, grind =] theorem notifyWaiters_lastExit (s : State) (pid' : UInt64) :
    s.notifyWaiters.lastExit pid' = s.lastExit pid' := rfl

@[simp, grind =] theorem createPid_created (s : State) : s.createPid.created = s.created + 1 := rfl

@[simp, grind =] theorem createPid_tasks (s : State) (t : ℕ) :
    s.createPid.tasks t = if t = s.created then ⟨.spawn, .unspawned, false⟩ else s.tasks t :=
  Function.update_apply s.tasks s.created _ t

@[simp, grind =] theorem createPid_running (s : State) (pid' : UInt64) :
    s.createPid.running pid' = s.running pid' := rfl

@[simp, grind =] theorem createPid_lastExit (s : State) (pid' : UInt64) :
    s.createPid.lastExit pid' = s.lastExit pid' := rfl

@[simp, grind =] theorem createPid_waiters (s : State) (w' : ℕ) :
    s.createPid.waiters w' = s.waiters w' := rfl

end State

/-- The operations, each with the point its process has to be at. -/
inductive Moves (s : State) : Action → State → Prop
  | createPid : Moves s .createPid s.createPid
  | refuse (t : ℕ) (h : (s.tasks t).create = .spawn) : Moves s (.creator t false)
      (s.setTask t { s.tasks t with create := .failed })
  | spawn (t : ℕ) (h : (s.tasks t).create = .spawn) : Moves s (.creator t true)
      (s.setTask t { s.tasks t with create := .insert, runner := .running })
  | insert (t : ℕ) (compiles : Bool) (h : (s.tasks t).create = .insert) :
      Moves s (.creator t compiles)
        ((s.setRunning (pidOf t) (some t)).setTask t { s.tasks t with create := .finish })
  | finish (t : ℕ) (compiles : Bool) (h : (s.tasks t).create = .finish) :
      Moves s (.creator t compiles) (s.setTask t { s.tasks t with create := .returned })
  | run (t : ℕ) (o : Outcome) (h : (s.tasks t).runner = .running) : Moves s (.runner t o)
      (s.setTask t { s.tasks t with
        runner := if o = .returned then .remove o else .setError o })
  | setError (t : ℕ) (o o' : Outcome) (h : (s.tasks t).runner = .setError o) :
      Moves s (.runner t o')
        (s.setTask t { s.tasks t with runner := .remove o, spawnError := true })
  | remove (t : ℕ) (o o' : Outcome) (h : (s.tasks t).runner = .remove o) :
      Moves s (.runner t o')
        ((s.setRunning (pidOf t) none).setTask t { s.tasks t with runner := .record o })
  | record (t : ℕ) (o o' : Outcome) (h : (s.tasks t).runner = .record o) :
      Moves s (.runner t o')
        ((s.setLastExit (pidOf t) o.exitCode).setTask t { s.tasks t with runner := .notify o })
  | notify (t : ℕ) (o o' : Outcome) (h : (s.tasks t).runner = .notify o) :
      Moves s (.runner t o') (s.notifyWaiters.setTask t { s.tasks t with runner := .done o })
  | call (w : ℕ) (pid : UInt64)
      (h : (s.waiters w).pc = .idle ∨ ∃ r, (s.waiters w).pc = .returned r) :
      Moves s (.waitForPidExit w pid) (s.setWaiter w ⟨pid, .enlist, false⟩)
  | enlist (w : ℕ) (h : (s.waiters w).pc = .enlist) : Moves s (.waiter w)
      (s.setWaiter w { s.waiters w with pc := .containsKey, notified := false })
  | present (w t : ℕ) (h : (s.waiters w).pc = .containsKey)
      (hrunning : s.running (s.waiters w).pid = some t) : Moves s (.waiter w)
      (s.setWaiter w { s.waiters w with pc := .get })
  | absent (w : ℕ) (h : (s.waiters w).pc = .containsKey)
      (hrunning : s.running (s.waiters w).pid = none) : Moves s (.waiter w)
      (s.setWaiter w { s.waiters w with pc := .readCode })
  | get (w t : ℕ) (h : (s.waiters w).pc = .get)
      (hrunning : s.running (s.waiters w).pid = some t) : Moves s (.waiter w)
      (s.setWaiter w { s.waiters w with pc := .takeError t })
  | gone (w : ℕ) (h : (s.waiters w).pc = .get)
      (hrunning : s.running (s.waiters w).pid = none) : Moves s (.waiter w)
      (s.setWaiter w { s.waiters w with pc := .parked })
  | takeError (w t : ℕ) (h : (s.waiters w).pc = .takeError t)
      (herror : (s.tasks t).spawnError = true) : Moves s (.waiter w)
      ((s.setTask t { s.tasks t with spawnError := false }).setWaiter w
        { s.waiters w with pc := .returned .err })
  | noError (w t : ℕ) (h : (s.waiters w).pc = .takeError t)
      (herror : (s.tasks t).spawnError = false) : Moves s (.waiter w)
      (s.setWaiter w { s.waiters w with pc := .parked })
  | wake (w : ℕ) (h : (s.waiters w).pc = .parked) (hnotified : (s.waiters w).notified = true) :
      Moves s (.waiter w) (s.setWaiter w { s.waiters w with pc := .enlist })
  | readCode (w : ℕ) (h : (s.waiters w).pc = .readCode) : Moves s (.waiter w)
      (s.setWaiter w { s.waiters w with
        pc := .returned (.ok ((s.lastExit (s.waiters w).pid).getD 0)) })

theorem creator_cases (s : State) (t : ℕ) (compiles : Bool) :
    s.creator t compiles = s ∨ Moves s (.creator t compiles) (s.creator t compiles) := by
  cases hcreate : (s.tasks t).create <;> simp only [State.creator, hcreate, true_or]
  case spawn =>
    cases compiles with
    | true => exact Or.inr (Moves.spawn t hcreate)
    | false => exact Or.inr (Moves.refuse t hcreate)
  case insert => exact Or.inr (Moves.insert t compiles hcreate)
  case finish => exact Or.inr (Moves.finish t compiles hcreate)

theorem runner_cases (s : State) (t : ℕ) (outcome : Outcome) :
    s.runner t outcome = s ∨ Moves s (.runner t outcome) (s.runner t outcome) := by
  cases hrunner : (s.tasks t).runner <;> simp only [State.runner, hrunner, true_or]
  case running => exact Or.inr (Moves.run t outcome hrunner)
  case setError o => exact Or.inr (Moves.setError t o outcome hrunner)
  case remove o => exact Or.inr (Moves.remove t o outcome hrunner)
  case record o => exact Or.inr (Moves.record t o outcome hrunner)
  case notify o => exact Or.inr (Moves.notify t o outcome hrunner)

theorem waitForPidExit_cases (s : State) (w : ℕ) (pid : UInt64) :
    s.waitForPidExit w pid = s ∨
      Moves s (.waitForPidExit w pid) (s.waitForPidExit w pid) := by
  cases hpc : (s.waiters w).pc <;> simp only [State.waitForPidExit, hpc, true_or]
  case idle => exact Or.inr (Moves.call w pid (Or.inl hpc))
  case returned r => exact Or.inr (Moves.call w pid (Or.inr ⟨r, hpc⟩))

theorem waiter_cases (s : State) (w : ℕ) :
    s.waiter w = s ∨ Moves s (.waiter w) (s.waiter w) := by
  cases hpc : (s.waiters w).pc <;> simp only [State.waiter, hpc, true_or]
  case enlist => exact Or.inr (Moves.enlist w hpc)
  case containsKey =>
    cases hrunning : s.running (s.waiters w).pid with
    | none => exact Or.inr (Moves.absent w hpc hrunning)
    | some t => exact Or.inr (Moves.present w t hpc hrunning)
  case get =>
    cases hrunning : s.running (s.waiters w).pid with
    | none => exact Or.inr (Moves.gone w hpc hrunning)
    | some t => exact Or.inr (Moves.get w t hpc hrunning)
  case takeError t =>
    cases herror : (s.tasks t).spawnError with
    | true => exact Or.inr (Moves.takeError w t hpc herror)
    | false => exact Or.inr (Moves.noError w t hpc herror)
  case parked =>
    cases hnotified : (s.waiters w).notified with
    | true => exact Or.inr (by simpa only [hnotified, if_true] using Moves.wake w hpc hnotified)
    | false => exact Or.inl rfl
  case readCode => exact Or.inr (Moves.readCode w hpc)

/-- A step changes nothing or performs one of the operations. -/
theorem step_cases (s : State) (action : Action) :
    s.step action = s ∨ Moves s action (s.step action) := by
  cases action with
  | createPid => exact Or.inr Moves.createPid
  | creator t compiles => exact creator_cases s t compiles
  | runner t outcome => exact runner_cases s t outcome
  | waitForPidExit w pid => exact waitForPidExit_cases s w pid
  | waiter w => exact waiter_cases s w

/-- What every operation keeps, every step keeps. -/
theorem step_of_moves {Inv : State → Prop} {s : State} {action : Action} (h : Inv s)
    (hmoves : ∀ s', Moves s action s' → Inv s') : Inv (s.step action) := by
  rcases step_cases s action with hsame | hmove
  · rwa [hsame]
  · exact hmoves _ hmove

/-- `create_pid` has spawned the runner. -/
def CreatePc.spawned : CreatePc → Bool
  | .insert => true
  | .finish => true
  | .returned => true
  | _ => false

/-- `create_pid` has inserted the PID. -/
def CreatePc.filed : CreatePc → Bool
  | .finish => true
  | .returned => true
  | _ => false

/-- The runner has operations left. -/
def RunnerPc.active : RunnerPc → Bool
  | .unspawned => false
  | .done _ => false
  | _ => true

/-- The runner is about to remove the PID. -/
def RunnerPc.removing : RunnerPc → Bool
  | .remove _ => true
  | _ => false

theorem RunnerPc.removing_iff {pc : RunnerPc} : pc.removing = true ↔ ∃ o, pc = .remove o := by
  cases pc <;> simp [RunnerPc.removing]

/-- The runner has removed the PID. -/
def RunnerPc.removed : RunnerPc → Bool
  | .record _ => true
  | .notify _ => true
  | .done _ => true
  | _ => false

/-- The waiter found the PID in the table, in this pass of its loop. -/
def WaitPc.sawPid : WaitPc → Bool
  | .get => true
  | .takeError _ => true
  | .parked => true
  | _ => false

/-- What holds whatever the order of the operations. -/
structure WellFormed (s : State) : Prop where
  unused : ∀ t, s.created ≤ t → s.tasks t = ⟨.unused, .unspawned, false⟩
  spawned : ∀ t, (s.tasks t).create.spawned = true ↔ (s.tasks t).runner ≠ .unspawned
  filed : ∀ pid t, s.running pid = some t → pidOf t = pid ∧ (s.tasks t).create.filed = true
  taking : ∀ w t, (s.waiters w).pc = .takeError t →
    pidOf t = (s.waiters w).pid ∧ (s.tasks t).create.filed = true

theorem wellFormed_init : WellFormed init where
  unused := fun _ _ => rfl
  spawned := by simp [init, CreatePc.spawned]
  filed := by simp [init]
  taking := by simp [init]

theorem wellFormed_step {s : State} (action : Action) (h : WellFormed s) :
    WellFormed (s.step action) := by
  refine step_of_moves h ?_
  intro s' hmove
  obtain ⟨hunused, hspawned, hfiled, htaking⟩ := h
  -- the cases are equations between points of the processes; there is no order to reason about
  constructor
  · intro t ht
    cases hmove <;> grind -linarith
  · intro t
    cases hmove <;> grind -linarith [CreatePc.spawned]
  · intro pid t hrunning
    cases hmove <;> grind -linarith [CreatePc.filed]
  · intro w t hpc
    cases hmove <;> grind -linarith [CreatePc.filed]

/-- A PID in the table has been spawned. -/
theorem CreatePc.spawned_of_filed {pc : CreatePc} (h : pc.filed = true) : pc.spawned = true := by
  cases pc <;> simp_all [CreatePc.filed, CreatePc.spawned]

end Weverywhere.PidTable
