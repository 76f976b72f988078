import Mathlib.Data.List.Basic

/-!
Runs of a transition system as lists of actions. A predicate on states that one
step keeps exactly when the step meets a condition holds in every state of a run
exactly when every step of the run meets that condition.
-/
namespace Weverywhere.Runs

variable {σ α : Type*} (step : σ → α → σ)

/-- Every action of the run meets `ok` in the state it is taken in. -/
def EachStep (ok : σ → α → Prop) : σ → List α → Prop
  | _, [] => True
  | s, a :: rest => ok s a ∧ EachStep ok (step s a) rest

instance decidableEachStep (ok : σ → α → Prop) [∀ s a, Decidable (ok s a)] :
    (s : σ) → (actions : List α) → Decidable (EachStep step ok s actions)
  | _, [] => .isTrue trivial
  | s, a :: rest =>
      have := decidableEachStep ok (step s a) rest
      inferInstanceAs (Decidable (_ ∧ _))

/-- The first state of the run and every state it reaches satisfy `P`. -/
def EveryState (P : σ → Prop) : σ → List α → Prop
  | s, [] => P s
  | s, a :: rest => P s ∧ EveryState P (step s a) rest

theorem EveryState.head {step : σ → α → σ} {P : σ → Prop} {s : σ} {actions : List α}
    (h : EveryState step P s actions) : P s := by
  cases actions with
  | nil => exact h
  | cons a rest => exact h.1

/-- The last state of a run is among its states. -/
theorem EveryState.last {step : σ → α → σ} {P : σ → Prop} {s : σ} {actions : List α}
    (h : EveryState step P s actions) : P (actions.foldl step s) := by
  induction actions generalizing s with
  | nil => exact h
  | cons a rest ih => exact ih h.2

/-- What every step keeps holds at the end of every run. -/
theorem invariant_run {Inv : σ → Prop} (hstep : ∀ s a, Inv s → Inv (step s a)) {s : σ}
    (hs : Inv s) (actions : List α) : Inv (actions.foldl step s) := by
  induction actions generalizing s with
  | nil => exact hs
  | cons a rest ih => exact ih (hstep s a hs)

/-- Step functions that agree where an invariant holds make the same run. -/
theorem run_congr {step' : σ → α → σ} {Inv : σ → Prop}
    (hinv : ∀ s a, Inv s → Inv (step s a)) (hagree : ∀ s a, Inv s → step' s a = step s a) {s : σ}
    (hs : Inv s) (actions : List α) : actions.foldl step' s = actions.foldl step s := by
  induction actions generalizing s with
  | nil => rfl
  | cons a rest ih =>
    rw [List.foldl_cons, List.foldl_cons, hagree s a hs]
    exact ih (hinv s a hs)

theorem eachStep_of_forall {ok : σ → α → Prop} (hok : ∀ s a, ok s a) (s : σ)
    (actions : List α) : EachStep step ok s actions := by
  induction actions generalizing s with
  | nil => trivial
  | cons a rest ih => exact ⟨hok s a, ih (step s a)⟩

theorem EachStep.imp {step : σ → α → σ} {ok ok' : σ → α → Prop}
    (himp : ∀ s a, ok s a → ok' s a) {s : σ} {actions : List α}
    (h : EachStep step ok s actions) : EachStep step ok' s actions := by
  induction actions generalizing s with
  | nil => trivial
  | cons a rest ih => exact ⟨himp s a h.1, ih h.2⟩

/-- An invariant that implies `P` and survives every `ok` step makes `P` hold in
every state of a run whose steps are `ok`. -/
theorem everyState_of_eachStep {ok : σ → α → Prop} {Inv P : σ → Prop}
    (hstep : ∀ s a, ok s a → Inv s → Inv (step s a)) (hP : ∀ s, Inv s → P s)
    {s : σ} {actions : List α} (hok : EachStep step ok s actions) (hs : Inv s) :
    EveryState step P s actions := by
  induction actions generalizing s with
  | nil => exact hP s hs
  | cons a rest ih => exact ⟨hP s hs, ih hok.2 (hstep s a hok.1 hs)⟩

/-- `Inv` holds along every run that stays inside `guard`, and where it holds a
guarded step keeps `P` exactly when it is `ok`. -/
theorem everyState_iff_eachStep {guard ok : σ → α → Prop} {Inv P : σ → Prop}
    (hinv : ∀ s a, guard s a → Inv s → Inv (step s a))
    (hstep : ∀ s a, guard s a → Inv s → P s → (P (step s a) ↔ ok s a))
    {s : σ} {actions : List α} (hguard : EachStep step guard s actions) (hs : Inv s) (hP : P s) :
    EveryState step P s actions ↔ EachStep step ok s actions := by
  induction actions generalizing s with
  | nil => exact ⟨fun _ => trivial, fun _ => hP⟩
  | cons a rest ih =>
    obtain ⟨hallowed, hrest⟩ := hguard
    have hnext := hstep s a hallowed hs hP
    have hlater : P (step s a) →
        (EveryState step P (step s a) rest ↔ EachStep step ok (step s a) rest) :=
      ih hrest (hinv s a hallowed hs)
    constructor
    · rintro ⟨-, hstates⟩
      have hPnext := hstates.head
      exact ⟨hnext.mp hPnext, (hlater hPnext).mp hstates⟩
    · rintro ⟨hok, hsteps⟩
      exact ⟨hP, (hlater (hnext.mpr hok)).mpr hsteps⟩

/-- The same along every run. -/
theorem everyState_iff_eachStep_of_inv {ok : σ → α → Prop} {Inv P : σ → Prop}
    (hinv : ∀ s a, Inv s → Inv (step s a))
    (hstep : ∀ s a, Inv s → P s → (P (step s a) ↔ ok s a)) {s : σ} (hs : Inv s) (hP : P s)
    (actions : List α) : EveryState step P s actions ↔ EachStep step ok s actions := by
  have hguard : EachStep step (fun _ _ => True) s actions :=
    eachStep_of_forall step (fun _ _ => trivial) s actions
  exact everyState_iff_eachStep step (fun s a _ => hinv s a) (fun s a _ => hstep s a) hguard hs hP

/-- The same where no invariant is needed. -/
theorem everyState_iff_eachStep_of_step {ok : σ → α → Prop} {P : σ → Prop}
    (hstep : ∀ s a, P s → (P (step s a) ↔ ok s a)) {s : σ} (hP : P s) (actions : List α) :
    EveryState step P s actions ↔ EachStep step ok s actions := by
  have hinv : ∀ s a, (fun _ : σ => True) s → (fun _ : σ => True) (step s a) := fun _ _ h => h
  exact everyState_iff_eachStep_of_inv step hinv (fun s a _ h => hstep s a h) trivial hP actions

end Weverywhere.Runs
