import Weverywhere.Runs
import Mathlib.Data.Nat.Basic
import Mathlib.Tactic.TypeStar

/-!
Infinite runs under a schedule of actions. A process that is scheduled again and
again, and whose every turn lowers a rank that nobody raises, gets where it goes.
-/
namespace Weverywhere.FairRuns

open Runs

variable {σ α : Type*}

/-- The states of the run that takes the scheduled actions one by one. -/
def stateAt (step : σ → α → σ) (s₀ : σ) (schedule : ℕ → α) : ℕ → σ
  | 0 => s₀
  | n + 1 => step (stateAt step s₀ schedule n) (schedule n)

/-- A schedule that takes the given actions first. -/
def startingWith : List α → (ℕ → α) → ℕ → α
  | [], later, n => later n
  | a :: _, _, 0 => a
  | _ :: rest, later, n + 1 => startingWith rest later n

/-- The actions of one process come up after every moment. -/
def Fair (schedule : ℕ → α) (mine : α → Prop) : Prop := ∀ n, ∃ m, n ≤ m ∧ mine (schedule m)

/-- Whenever `P` holds, `Q` holds then or later. -/
def LeadsTo (b : ℕ → σ) (P Q : σ → Prop) : Prop := ∀ n, P (b n) → ∃ m, n ≤ m ∧ Q (b m)

theorem LeadsTo.trans {b : ℕ → σ} {P Q R : σ → Prop} (hPQ : LeadsTo b P Q)
    (hQR : LeadsTo b Q R) : LeadsTo b P R := by
  intro n hn
  obtain ⟨m, hnm, hm⟩ := hPQ n hn
  obtain ⟨k, hmk, hk⟩ := hQR m hm
  exact ⟨k, Nat.le_trans hnm hmk, hk⟩

/-- An alternative that has been reached already need not be led to. -/
theorem LeadsTo.or_self {b : ℕ → σ} {P Q : σ → Prop} (h : LeadsTo b P Q) :
    LeadsTo b (fun s => Q s ∨ P s) Q := by
  intro n hn
  rcases hn with hn | hn
  · exact ⟨n, le_refl n, hn⟩
  · exact h n hn

/-- An invariant of the scheduled steps holds at every moment. -/
theorem invariant_stateAt {step : σ → α → σ} {s₀ : σ} {schedule : ℕ → α}
    {ok : σ → α → Prop} {Inv : σ → Prop}
    (hstep : ∀ s a, ok s a → Inv s → Inv (step s a))
    (hok : ∀ n, ok (stateAt step s₀ schedule n) (schedule n)) (h₀ : Inv s₀) (n : ℕ) :
    Inv (stateAt step s₀ schedule n) := by
  induction n with
  | zero => exact h₀
  | succ n ih => exact hstep _ _ (hok n) ih

theorem stateAt_startingWith_cons (step : σ → α → σ) (s : σ) (a : α) (rest : List α)
    (later : ℕ → α) (n : ℕ) :
    stateAt step s (startingWith (a :: rest) later) (n + 1) =
      stateAt step (step s a) (startingWith rest later) n := by
  induction n with
  | zero => rfl
  | succ n ih =>
    rw [stateAt, ih]
    rfl

/-- A condition on every step is met if the actions meet it and the schedule
that follows does from where they end. -/
theorem each_startingWith {step : σ → α → σ} {ok : σ → α → Prop} {s : σ} {actions : List α}
    {later : ℕ → α} (hactions : EachStep step ok s actions)
    (hlater : ∀ n, ok (stateAt step (actions.foldl step s) later n) (later n)) (n : ℕ) :
    ok (stateAt step s (startingWith actions later) n) (startingWith actions later n) := by
  induction actions generalizing s n with
  | nil => exact hlater n
  | cons a rest ih =>
    cases n with
    | zero => exact hactions.1
    | succ n =>
      rw [stateAt_startingWith_cons]
      exact ih hactions.2 hlater n

theorem Fair.startingWith {later : ℕ → α} {mine : α → Prop} (h : Fair later mine)
    (actions : List α) : Fair (startingWith actions later) mine := by
  induction actions with
  | nil => exact h
  | cons a rest ih =>
    intro n
    obtain ⟨m, hnm, hm⟩ := ih n
    exact ⟨m + 1, by omega, hm⟩

/-- Until `Q` is reached, `P` stays and the rank does not rise. -/
theorem reached_or_kept {b : ℕ → σ} {P Q : σ → Prop} (rank : σ → ℕ)
    (hkeep : ∀ n, P (b n) → Q (b (n + 1)) ∨ P (b (n + 1)) ∧ rank (b (n + 1)) ≤ rank (b n))
    {n : ℕ} (hn : P (b n)) (d : ℕ) :
    (∃ m, n ≤ m ∧ Q (b m)) ∨ P (b (n + d)) ∧ rank (b (n + d)) ≤ rank (b n) := by
  induction d with
  | zero => exact Or.inr ⟨hn, le_refl _⟩
  | succ d ih =>
    rcases ih with hreached | ⟨hP, hrank⟩
    · exact Or.inl hreached
    · rcases hkeep (n + d) hP with hQ | ⟨hnext, hle⟩
      · exact Or.inl ⟨n + d + 1, by omega, hQ⟩
      · exact Or.inr ⟨hnext, Nat.le_trans hle hrank⟩

/-- The rank rule: a process with a fair share of turns reaches `Q` from `P`. -/
theorem leadsTo_of_rank {b : ℕ → σ} {schedule : ℕ → α} {mine : α → Prop} {P Q : σ → Prop}
    (rank : σ → ℕ) (hfair : Fair schedule mine)
    (hkeep : ∀ n, P (b n) → Q (b (n + 1)) ∨ P (b (n + 1)) ∧ rank (b (n + 1)) ≤ rank (b n))
    (hmine : ∀ n, P (b n) → mine (schedule n) →
      Q (b (n + 1)) ∨ rank (b (n + 1)) < rank (b n)) : LeadsTo b P Q := by
  have hall : ∀ r n, rank (b n) = r → P (b n) → ∃ m, n ≤ m ∧ Q (b m) := by
    intro r
    induction r using Nat.strongRecOn with
    | ind r ih =>
      intro n hr hn
      obtain ⟨m, hnm, hturn⟩ := hfair n
      obtain ⟨d, rfl⟩ := Nat.exists_eq_add_of_le hnm
      rcases reached_or_kept rank hkeep hn d with hreached | ⟨hP, hrank⟩
      · exact hreached
      rcases hkeep (n + d) hP with hQ | ⟨hnext, -⟩
      · exact ⟨n + d + 1, by omega, hQ⟩
      rcases hmine (n + d) hP hturn with hQ | hlt
      · exact ⟨n + d + 1, by omega, hQ⟩
      obtain ⟨k, hk, hQ⟩ := ih (rank (b (n + d + 1))) (by omega) (n + d + 1) rfl hnext
      exact ⟨k, by omega, hQ⟩
  exact fun n => hall _ n rfl

end Weverywhere.FairRuns
