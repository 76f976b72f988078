import Weverywhere.PidTable

/-!
No zombie PIDs and no stuck waiters. A runner removes its PID on its own, while
`create_pid` may still be about to insert it; a removal that comes first removes
nothing and the PID stays for good. When every removal follows its insertion,
the table lists only programs still running and every parked waiter has a
notification pending or a runner left that will send one.
-/
namespace Weverywhere.PidLifecycle

open Runs PidTable

/-- No finished program is listed, and nobody is parked on a finished program
without a notification pending. -/
structure NoneLeftBehind (s : State) : Prop where
  no_zombie : ∀ pid t o, s.running pid = some t → (s.tasks t).create = .returned →
    (s.tasks t).runner ≠ .done o
  no_stuck : ∀ w, (s.waiters w).pc = .parked → (s.waiters w).notified = false →
    ∃ t, pidOf t = (s.waiters w).pid ∧ (s.tasks t).runner.active = true

/-- The step removes no PID that `create_pid` has yet to insert. -/
def RemovesAfterInsert (s : State) : Action → Prop
  | .runner t _ => (s.tasks t).runner.removing = true → (s.tasks t).create.filed = true
  | _ => True

instance (s : State) : (action : Action) → Decidable (RemovesAfterInsert s action)
  | .runner _ _ => inferInstanceAs (Decidable (_ → _))
  | .createPid => .isTrue trivial
  | .creator _ _ => .isTrue trivial
  | .waitForPidExit _ _ => .isTrue trivial
  | .waiter _ => .isTrue trivial

/-- What the order of insertion and removal buys. -/
structure Orderly (s : State) : Prop where
  wellFormed : WellFormed s
  removed : ∀ t, (s.tasks t).runner.removed = true → (s.tasks t).create.filed = true
  live : ∀ pid t, s.running pid = some t → (s.tasks t).runner.removed = false
  pending : ∀ w, (s.waiters w).pc.sawPid = true → (s.waiters w).notified = false →
    ∃ t, pidOf t = (s.waiters w).pid ∧ (s.tasks t).runner.active = true

theorem orderly_init : Orderly init where
  wellFormed := wellFormed_init
  removed := by simp [init, RunnerPc.removed]
  live := by simp [init]
  pending := by simp [init, WaitPc.sawPid]

/-- A program in the table still has operations to perform. -/
theorem Orderly.active {s : State} (h : Orderly s) {pid : UInt64} {t : ℕ}
    (hrunning : s.running pid = some t) : (s.tasks t).runner.active = true := by
  have hlive := h.live pid t hrunning
  have hfiled := (h.wellFormed.filed pid t hrunning).2
  have hspawned := (h.wellFormed.spawned t).mp (CreatePc.spawned_of_filed hfiled)
  cases hrunner : (s.tasks t).runner <;> simp_all [RunnerPc.active, RunnerPc.removed]

/-- A runner stays active until it notifies everyone. -/
theorem active_of_moves {s s' : State} {action : Action} (hmove : Moves s action s')
    (h : WellFormed s) {t : ℕ} (hactive : (s.tasks t).runner.active = true) :
    (s'.tasks t).runner.active = true ∨ ∀ w, (s'.waiters w).notified = true := by
  have hunused := h.unused t
  cases hmove <;> grind -linarith [RunnerPc.active]

/-- Whoever is past the table check without a notification was so before, or
has just found the PID listed. -/
theorem sawPid_of_moves {s s' : State} {action : Action} (hmove : Moves s action s') {w : ℕ}
    (hpc : (s'.waiters w).pc.sawPid = true) (hnotified : (s'.waiters w).notified = false) :
    (s'.waiters w).pid = (s.waiters w).pid ∧ (s.waiters w).notified = false ∧
      ((s.waiters w).pc.sawPid = true ∨ s.running (s.waiters w).pid ≠ none) := by
  cases hmove <;> grind -linarith [WaitPc.sawPid]

theorem pending_of_moves {s s' : State} {action : Action} (hmove : Moves s action s')
    (h : Orderly s) (w : ℕ) (hpc : (s'.waiters w).pc.sawPid = true)
    (hnotified : (s'.waiters w).notified = false) :
    ∃ t, pidOf t = (s'.waiters w).pid ∧ (s'.tasks t).runner.active = true := by
  obtain ⟨hpid, hbefore, hsaw⟩ := sawPid_of_moves hmove hpc hnotified
  have hactive : ∃ t, pidOf t = (s.waiters w).pid ∧ (s.tasks t).runner.active = true := by
    rcases hsaw with hsaw | hlisted
    · exact h.pending w hsaw hbefore
    · obtain ⟨t, hrunning⟩ := Option.ne_none_iff_exists'.mp hlisted
      exact ⟨t, (h.wellFormed.filed _ t hrunning).1, h.active hrunning⟩
  obtain ⟨t, ht, hrunner⟩ := hactive
  rcases active_of_moves hmove h.wellFormed hrunner with hstill | hall
  · exact ⟨t, by rw [hpid, ht], hstill⟩
  · rw [hall w] at hnotified
    cases hnotified

/-- Step lemma: a removal after the insertion keeps the table orderly, and so
does every other operation. -/
theorem orderly_step (s : State) (action : Action) (hok : RemovesAfterInsert s action)
    (h : Orderly s) : Orderly (s.step action) := by
  rcases step_cases s action with hsame | hmove
  · rwa [hsame]
  have hwellFormed := wellFormed_step action h.wellFormed
  generalize s.step action = s' at hmove hwellFormed
  refine ⟨hwellFormed, ?_, ?_, pending_of_moves hmove h⟩
  · intro t hremoved
    have hbefore := h.removed
    have hunused := h.wellFormed.unused
    cases hmove <;>
      grind -linarith [RunnerPc.removed, RunnerPc.removing, CreatePc.filed, RemovesAfterInsert]
  · intro pid t hrunning
    have hlive := h.live
    have hremoved := h.removed
    have hfiled := h.wellFormed.filed
    have hunused := h.wellFormed.unused
    cases hmove <;> grind -linarith [RunnerPc.removed, CreatePc.filed]

theorem Orderly.noneLeftBehind {s : State} (h : Orderly s) : NoneLeftBehind s where
  no_zombie := by
    intro pid t o hrunning _ hdone
    have hactive := h.active hrunning
    simp [hdone, RunnerPc.active] at hactive
  no_stuck := fun w hparked hnotified => h.pending w (by rw [hparked]; rfl) hnotified

/-- In every run whose removals all follow the insertions, for any number of
programs and waiters and every interleaving, nothing is ever left behind. -/
theorem none_left_behind {actions : List Action}
    (hok : EachStep State.step RemovesAfterInsert init actions) :
    EveryState State.step NoneLeftBehind init actions :=
  everyState_of_eachStep State.step orderly_step (fun _ => Orderly.noneLeftBehind) hok orderly_init

/-- Letting a runner that removes too early and its `create_pid` finish leaves a
zombie. -/
theorem zombie_of_early_removal (s : State) (t : ℕ) (o o' : Outcome)
    (hrunner : (s.tasks t).runner = .remove o) (hcreate : (s.tasks t).create = .insert) :
    ¬ NoneLeftBehind ([Action.runner t o', .runner t o', .runner t o', .creator t true,
      .creator t true].foldl State.step s) := by
  intro h
  refine h.no_zombie (pidOf t) t o ?_ ?_ ?_ <;>
    simp [State.step, State.runner, State.creator, hrunner, hcreate]

/-- Converse of the run theorem: after a step outside the condition the run can
always go on to a state that leaves something behind. -/
theorem exists_left_behind {s : State} {action : Action} (h : WellFormed s)
    (hnot : ¬ RemovesAfterInsert s action) :
    ∃ rest : List Action, ¬ NoneLeftBehind ((action :: rest).foldl State.step s) := by
  unfold RemovesAfterInsert at hnot
  split at hnot
  · next t o' =>
    obtain ⟨hremoving, hfiled⟩ := Classical.not_imp.mp hnot
    obtain ⟨o, hrunner⟩ := RunnerPc.removing_iff.mp hremoving
    have hspawned := (h.spawned t).mpr (by simp [hrunner])
    have hcreate : (s.tasks t).create = .insert := by
      cases hcreate : (s.tasks t).create <;> simp_all [CreatePc.spawned, CreatePc.filed]
    exact ⟨_, zombie_of_early_removal s t o o' hrunner hcreate⟩
  · exact absurd trivial hnot

/-- The same in an orderly run: the caller parks, is notified and reads the code. -/
theorem none_left_behind_returned :
    EveryState State.step NoneLeftBehind init
      [.createPid, .creator 0 true, .creator 0 true, .creator 0 true, .waitForPidExit 0 0,
        .waiter 0, .waiter 0, .waiter 0, .waiter 0, .runner 0 .returned, .runner 0 .returned,
        .runner 0 .returned, .runner 0 .returned, .waiter 0, .waiter 0, .waiter 0, .waiter 0] := by
  exact none_left_behind (by decide)

/-- A guest that returns at once, on a runner that overtakes `create_pid`, and a
call that waits for it. -/
def overtaken : List Action :=
  [.createPid, .creator 0 true, .runner 0 .returned, .runner 0 .returned, .runner 0 .returned,
    .runner 0 .returned, .creator 0 true, .creator 0 true, .waitForPidExit 0 0, .waiter 0,
    .waiter 0, .waiter 0, .waiter 0]

/-- The finished program stays listed and the caller stays parked. -/
theorem overtaken_left_behind :
    ((overtaken.foldl State.step init).tasks 0 = ⟨.returned, .done .returned, false⟩ ∧
      (overtaken.foldl State.step init).running 0 = some 0 ∧
      (overtaken.foldl State.step init).waiters 0 = ⟨0, .parked, false⟩) ∧
    ¬ EveryState State.step NoneLeftBehind init overtaken := by
  refine ⟨by decide, fun h => ?_⟩
  exact h.last.no_zombie 0 0 .returned (by decide) (by decide) (by decide)

end Weverywhere.PidLifecycle
