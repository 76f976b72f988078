import Weverywhere.PidTable

/-!
What `wait_for_pid_exit` reports. A runner removes its PID before it records the
exit code, and a waiter that finds no PID reads a missing code as zero. Every
report is true exactly when no waiter reads between a failed runner's removal and
its recording.
-/
namespace Weverywhere.ExitReports

open Runs PidTable

/-- The program a PID names, as long as PIDs are not reused. -/
def programOf (pid : UInt64) : ℕ := pid.toNat

/-- How the run ended, once it has. -/
def outcome : RunnerPc → Option Outcome
  | .unspawned => none
  | .running => none
  | .setError o => some o
  | .remove o => some o
  | .record o => some o
  | .notify o => some o
  | .done o => some o

/-- The runner has recorded its exit code. -/
def recorded : RunnerPc → Bool
  | .notify _ => true
  | .done _ => true
  | _ => false

/-- A report says zero only for a run that returned normally, and an error or
one for a run that failed. -/
def TrueReport (result : WaitResult) (ended : Option Outcome) : Prop :=
  (result = .ok 0 → ended = some .returned) ∧
    (ended ≠ some .returned → result = .err ∨ result = .ok 1)

/-- Every call that has returned reported how the program of its PID ended. -/
def TrueReports (s : State) : Prop :=
  ∀ w result, (s.waiters w).pc = .returned result →
    TrueReport result (outcome (s.tasks (programOf (s.waiters w).pid)).runner)

/-- PIDs are not reused, and a call waits for a PID that `create_pid` returned. -/
def Admissible (s : State) : Action → Prop
  | .createPid => s.created < 2 ^ 64
  | .waitForPidExit _ pid => (s.tasks (programOf pid)).create = .returned
  | _ => True

/-- A failed runner between the removal and the recording. -/
def unrecordedFailure : RunnerPc → Bool
  | .record o => o != .returned
  | _ => false

/-- No waiter reads the exit code of a failed program before it is recorded. -/
def ReadsAfterRecord (s : State) : Action → Prop
  | .waiter w => (s.waiters w).pc = .readCode →
      unrecordedFailure (s.tasks (programOf (s.waiters w).pid)).runner = false
  | _ => True

@[grind =] theorem pidOf_programOf (pid : UInt64) : pidOf (programOf pid) = pid := by
  simp [pidOf, programOf]

theorem programOf_lt (pid : UInt64) : programOf pid < 2 ^ 64 := UInt64.toNat_lt pid

/-- The table, the exit codes and the waiters agree on every program. -/
structure Consistent (s : State) : Prop where
  wellFormed : WellFormed s
  created_le : s.created ≤ 2 ^ 64
  started : ∀ w, (s.waiters w).pc ≠ .idle →
    (s.tasks (programOf (s.waiters w).pid)).create = .returned
  listed : ∀ t, (s.tasks t).create.filed = true → (s.tasks t).runner.removed = false →
    s.running (pidOf t) = some t
  reading : ∀ w, (s.waiters w).pc = .readCode →
    (s.tasks (programOf (s.waiters w).pid)).runner.removed = true
  code : ∀ t, t < 2 ^ 64 → recorded (s.tasks t).runner = true →
    s.lastExit (pidOf t) = (outcome (s.tasks t).runner).map Outcome.exitCode
  no_code : ∀ t, t < 2 ^ 64 → recorded (s.tasks t).runner = false →
    s.lastExit (pidOf t) = none

theorem consistent_init : Consistent init where
  wellFormed := wellFormed_init
  created_le := by simp [init]
  started := by simp [init]
  listed := by simp [init, CreatePc.filed]
  reading := by simp [init]
  code := by simp [init, recorded]
  no_code := by simp [init]

/-- A program that `create_pid` was called for is among the first 2^64. -/
theorem Consistent.lt_of_used {s : State} (h : Consistent s) {t : ℕ}
    (hused : (s.tasks t).create ≠ .unused) : t < 2 ^ 64 := by
  by_contra hge
  have hle := h.created_le
  exact hused (by rw [h.wellFormed.unused t (by omega)])

theorem Consistent.used_of_runner {s : State} (h : Consistent s) {t : ℕ}
    (hrunner : (s.tasks t).runner ≠ .unspawned) : (s.tasks t).create ≠ .unused := by
  intro hunused
  have hspawned := (h.wellFormed.spawned t).mpr hrunner
  simp [hunused, CreatePc.spawned] at hspawned

/-- Two programs of which one runs under the other's PID are the same. -/
theorem Consistent.same_program {s : State} (h : Consistent s) (t t' : ℕ) (ht : t < 2 ^ 64)
    (hrunner : (s.tasks t').runner ≠ .unspawned) (hpid : pidOf t = pidOf t') : t = t' :=
  pidOf_inj ht (h.lt_of_used (h.used_of_runner hrunner)) hpid

/-- A run that has ended keeps its outcome. -/
theorem outcome_of_moves {s s' : State} {action : Action} (hmove : Moves s action s')
    (h : WellFormed s) {t : ℕ} {o : Outcome} (ho : outcome (s.tasks t).runner = some o) :
    outcome (s'.tasks t).runner = some o := by
  have hunused := h.unused t
  have hspawned := h.spawned t
  cases hmove <;> grind -linarith [outcome, CreatePc.spawned]

section Moves

variable {s s' : State} {action : Action} (hmove : Moves s action s') (h : Consistent s)

include hmove h

theorem created_le_of_moves (ha : Admissible s action) : s'.created ≤ 2 ^ 64 := by
  have hle := h.created_le
  cases hmove with
  | createPid => exact Nat.succ_le_of_lt ha
  | _ => exact hle

/-- `create_pid` does not come back from its return. -/
theorem returned_stays {t : ℕ} (hreturned : (s.tasks t).create = .returned) :
    (s'.tasks t).create = .returned := by
  have hunused := h.wellFormed.unused t
  cases hmove <;> grind -linarith

theorem started_of_moves (ha : Admissible s action) {w : ℕ} (hpc : (s'.waiters w).pc ≠ .idle) :
    (s'.tasks (programOf (s'.waiters w).pid)).create = .returned := by
  have hstays : ∀ t, (s.tasks t).create = .returned → (s'.tasks t).create = .returned :=
    fun _ => returned_stays hmove h
  have hbefore := h.started w
  have hpid : (s'.waiters w).pid = (s.waiters w).pid ∧ (s.waiters w).pc ≠ .idle ∨
      (s.tasks (programOf (s'.waiters w).pid)).create = .returned := by
    clear hstays
    cases hmove <;> grind -linarith [Admissible]
  rcases hpid with ⟨hpid, hactive⟩ | hreturned
  · rw [hpid]
    exact hstays _ (hbefore hactive)
  · exact hstays _ hreturned

theorem listed_of_moves {t : ℕ} (hfiled : (s'.tasks t).create.filed = true)
    (hremoved : (s'.tasks t).runner.removed = false) : s'.running (pidOf t) = some t := by
  have hbefore := h.listed t
  have hunused := h.wellFormed.unused t
  have hsame := h.same_program t
  have hlt : (s.tasks t).create ≠ .unused → t < 2 ^ 64 := h.lt_of_used
  have hspawned := h.wellFormed.spawned
  cases hmove <;> grind -linarith [CreatePc.filed, CreatePc.spawned, RunnerPc.removed]

theorem reading_of_moves {w : ℕ} (hpc : (s'.waiters w).pc = .readCode) :
    (s'.tasks (programOf (s'.waiters w).pid)).runner.removed = true := by
  have hbefore := h.reading w
  have hlisted := h.listed (programOf (s.waiters w).pid)
  have hstarted := h.started w
  have hunused := h.wellFormed.unused (programOf (s.waiters w).pid)
  cases hmove <;> grind -linarith [CreatePc.filed, RunnerPc.removed]

/-- Only the program's own recording touches its exit code. -/
theorem code_cases {t : ℕ} (ht : t < 2 ^ 64) :
    (recorded (s'.tasks t).runner = recorded (s.tasks t).runner ∧
        s'.lastExit (pidOf t) = s.lastExit (pidOf t)) ∨
      ∃ o, (s'.tasks t).runner = .notify o ∧ s'.lastExit (pidOf t) = some o.exitCode := by
  have hunused := h.wellFormed.unused t
  have hspawned := h.wellFormed.spawned t
  cases hmove with
  | record t' o o' hrunner =>
    by_cases htt' : t = t'
    · subst htt'
      exact .inr ⟨o, by simp, by simp⟩
    · have hpid : pidOf t ≠ pidOf t' := fun hpid =>
        htt' (h.same_program t t' ht (by simp [hrunner]) hpid)
      exact .inl ⟨by simp [htt'], by simp [hpid]⟩
  | _ =>
    left
    constructor <;> grind -linarith [recorded, CreatePc.spawned]

theorem code_of_moves {t : ℕ} (ht : t < 2 ^ 64) (hrecorded : recorded (s'.tasks t).runner = true) :
    s'.lastExit (pidOf t) = (outcome (s'.tasks t).runner).map Outcome.exitCode := by
  rcases code_cases hmove h ht with ⟨hsame, hcode⟩ | ⟨o, hrunner, hcode⟩
  · rw [hsame] at hrecorded
    obtain ⟨o, ho⟩ : ∃ o, outcome (s.tasks t).runner = some o := by
      cases hrunner : (s.tasks t).runner <;> simp_all [recorded, outcome]
    rw [hcode, h.code t ht hrecorded, ho, outcome_of_moves hmove h.wellFormed ho]
  · rw [hcode, hrunner]
    rfl

theorem no_code_of_moves {t : ℕ} (ht : t < 2 ^ 64)
    (hrecorded : recorded (s'.tasks t).runner = false) : s'.lastExit (pidOf t) = none := by
  rcases code_cases hmove h ht with ⟨hsame, hcode⟩ | ⟨o, hrunner, -⟩
  · rw [hcode, h.no_code t ht (by rw [← hsame, hrecorded])]
  · simp [hrunner, recorded] at hrecorded

end Moves

/-- Step lemma. -/
theorem consistent_step (s : State) (action : Action) (ha : Admissible s action)
    (h : Consistent s) : Consistent (s.step action) := by
  rcases step_cases s action with hsame | hmove
  · rwa [hsame]
  · exact {
      wellFormed := wellFormed_step action h.wellFormed
      created_le := created_le_of_moves hmove h ha
      started := fun _ => started_of_moves hmove h ha
      listed := fun _ => listed_of_moves hmove h
      reading := fun _ => reading_of_moves hmove h
      code := fun _ => code_of_moves hmove h
      no_code := fun _ => no_code_of_moves hmove h }

/-- With its own code recorded, or none and no failure, a read tells the truth. -/
theorem trueReport_read_iff {s : State} (h : Consistent s) {w : ℕ}
    (hpc : (s.waiters w).pc = .readCode) :
    TrueReport (.ok ((s.lastExit (s.waiters w).pid).getD 0))
        (outcome (s.tasks (programOf (s.waiters w).pid)).runner) ↔
      unrecordedFailure (s.tasks (programOf (s.waiters w).pid)).runner = false := by
  have hremoved := h.reading w hpc
  have hcode := h.code _ (programOf_lt (s.waiters w).pid)
  have hnone := h.no_code _ (programOf_lt (s.waiters w).pid)
  rw [pidOf_programOf] at hcode hnone
  cases hrunner : (s.tasks (programOf (s.waiters w).pid)).runner with
  | record o =>
    rw [hnone (by rw [hrunner]; rfl)]
    cases o <;> simp [TrueReport, outcome, unrecordedFailure]
  | notify o =>
    rw [hcode (by rw [hrunner]; rfl), hrunner]
    cases o <;> simp [TrueReport, outcome, unrecordedFailure, Outcome.exitCode]
  | done o =>
    rw [hcode (by rw [hrunner]; rfl), hrunner]
    cases o <;> simp [TrueReport, outcome, unrecordedFailure, Outcome.exitCode]
  | unspawned => simp [hrunner, RunnerPc.removed] at hremoved
  | running => simp [hrunner, RunnerPc.removed] at hremoved
  | setError o => simp [hrunner, RunnerPc.removed] at hremoved
  | remove o => simp [hrunner, RunnerPc.removed] at hremoved

/-- What is true of a run stays true as it goes on. -/
theorem TrueReport.of_moves {s s' : State} {action : Action} (hmove : Moves s action s')
    (h : WellFormed s) {result : WaitResult} {t : ℕ}
    (hreport : TrueReport result (outcome (s.tasks t).runner)) :
    TrueReport result (outcome (s'.tasks t).runner) := by
  constructor
  · intro hzero
    exact outcome_of_moves hmove h (hreport.1 hzero)
  · intro hended
    exact hreport.2 (fun hreturned => hended (outcome_of_moves hmove h hreturned))

theorem trueReport_err (ended : Option Outcome) : TrueReport .err ended := by
  simp [TrueReport]

/-- Away from a read, a call that has returned had done so before, or returns
the error it took. -/
theorem returned_of_moves {s s' : State} {action : Action} (hmove : Moves s action s')
    (hread : ∀ w, action = .waiter w → (s.waiters w).pc ≠ .readCode) {w : ℕ}
    {result : WaitResult} (hpc : (s'.waiters w).pc = .returned result) :
    result = .err ∨
      (s.waiters w).pc = .returned result ∧ (s'.waiters w).pid = (s.waiters w).pid := by
  cases hmove <;> grind -linarith

theorem trueReports_read_iff {s : State} (h : Consistent s) (hreports : TrueReports s) {w : ℕ}
    (hpc : (s.waiters w).pc = .readCode) :
    TrueReports (s.step (.waiter w)) ↔ ReadsAfterRecord s (.waiter w) := by
  have hstep : s.step (.waiter w) = s.setWaiter w { s.waiters w with
      pc := .returned (.ok ((s.lastExit (s.waiters w).pid).getD 0)) } := by
    simp only [State.step, State.waiter, hpc]
  have hreport := trueReport_read_iff h hpc
  rw [hstep]
  constructor
  · intro hafter _
    have hmine := hafter w (.ok ((s.lastExit (s.waiters w).pid).getD 0)) (by simp)
    simp only [State.setWaiter_tasks, State.setWaiter_waiters, if_true] at hmine
    exact hreport.mp hmine
  · intro hok w' result hreturned
    by_cases hw : w' = w
    · subst hw
      simp only [State.setWaiter_tasks, State.setWaiter_waiters, if_true,
        WaitPc.returned.injEq] at hreturned ⊢
      rw [← hreturned]
      exact hreport.mpr (hok hpc)
    · simp only [State.setWaiter_tasks, State.setWaiter_waiters, hw, if_false] at hreturned ⊢
      exact hreports w' result hreturned

/-- Step lemma: the reports stay true exactly when no waiter reads too early. -/
theorem trueReports_step_iff (s : State) (action : Action) (h : Consistent s)
    (hreports : TrueReports s) :
    TrueReports (s.step action) ↔ ReadsAfterRecord s action := by
  by_cases hread : ∃ w, action = .waiter w ∧ (s.waiters w).pc = .readCode
  · obtain ⟨w, rfl, hpc⟩ := hread
    exact trueReports_read_iff h hreports hpc
  · have hnot : ∀ w, action = .waiter w → (s.waiters w).pc ≠ .readCode :=
      fun w hw hpc => hread ⟨w, hw, hpc⟩
    refine iff_of_true (step_of_moves hreports fun s' hmove w result hpc => ?_) ?_
    · rcases returned_of_moves hmove hnot hpc with rfl | ⟨hbefore, hpid⟩
      · exact trueReport_err _
      · rw [hpid]
        exact (hreports w result hbefore).of_moves hmove h.wellFormed
    · unfold ReadsAfterRecord
      split
      · next w => exact fun hpc => absurd hpc (hnot w rfl)
      · trivial

/-- Along every run, for every program, every outcome and every interleaving,
the reports are true in every state exactly when no waiter reads the code of a
failed program before it is recorded. -/
theorem true_reports_iff {actions : List Action}
    (hadmissible : EachStep State.step Admissible init actions) :
    EveryState State.step TrueReports init actions ↔
      EachStep State.step ReadsAfterRecord init actions :=
  everyState_iff_eachStep State.step consistent_step
    (fun s action _ => trueReports_step_iff s action)
    hadmissible consistent_init (by simp [TrueReports, init])

instance (s : State) : (action : Action) → Decidable (Admissible s action)
  | .createPid => inferInstanceAs (Decidable (_ < _))
  | .waitForPidExit _ _ => inferInstanceAs (Decidable (_ = _))
  | .creator _ _ => .isTrue trivial
  | .runner _ _ => .isTrue trivial
  | .waiter _ => .isTrue trivial

instance (s : State) : (action : Action) → Decidable (ReadsAfterRecord s action)
  | .waiter _ => inferInstanceAs (Decidable (_ → _))
  | .createPid => .isTrue trivial
  | .creator _ _ => .isTrue trivial
  | .runner _ _ => .isTrue trivial
  | .waitForPidExit _ _ => .isTrue trivial

/-- A guest without `_start`, and a call that waits for it. -/
def failedRun (outcome : Outcome) : List Action :=
  [.createPid, .creator 0 true, .creator 0 true, .creator 0 true, .runner 0 outcome,
    .runner 0 outcome, .runner 0 outcome, .waitForPidExit 0 0, .waiter 0, .waiter 0]

theorem true_reports_iff_recorded :
    EveryState State.step TrueReports init
      (failedRun .noStart ++ [Action.runner 0 .noStart, .waiter 0]) :=
  (true_reports_iff (by decide)).mpr (by decide)

/-- Read one operation earlier, the failed run is reported as a success. -/
theorem failed_run_reported_ok :
    EachStep State.step Admissible init (failedRun .noStart ++ [Action.waiter 0]) ∧
    ((failedRun .noStart ++ [Action.waiter 0]).foldl State.step init).waiters 0 =
      ⟨0, .returned (.ok 0), false⟩ ∧
    ¬ EveryState State.step TrueReports init (failedRun .noStart ++ [Action.waiter 0]) := by
  refine ⟨by decide, by decide, fun h => ?_⟩
  have hreport := h.last 0 (.ok 0) (by decide)
  exact absurd (hreport.1 rfl) (by decide)

end Weverywhere.ExitReports
