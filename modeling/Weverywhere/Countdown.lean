import Mathlib.Algebra.Ring.Nat
import Mathlib.Data.List.Basic

/-!
A loop that counts down a machine integer and refills it on some of its turns.
The counter is no measure of what is left to do: it stops at the first turn whose
number has caught up with the start value and all refills so far.
-/
namespace Weverywhere.Countdown

/-- Where a loop `while left > 0 { left -= 1; … }` stands at its test, or the
operation that went beyond the counter's range. -/
inductive State
  | running (left : ℕ)
  | stopped
  | underflow
  | overflow
  deriving DecidableEq

def checkedSub (a b : ℕ) : Option ℕ := if b ≤ a then some (a - b) else none

def checkedAdd (limit a b : ℕ) : Option ℕ := if a + b < limit then some (a + b) else none

/-- The loop's test. -/
def test (left : ℕ) : State := if 0 < left then .running left else .stopped

variable {α : Type} (limit refill : ℕ) (refills : α → Bool)

/-- One turn, with what it meets. -/
def turn : State → α → State
  | .running left, event =>
    match checkedSub left 1 with
    | none => .underflow
    | some left =>
      if refills event then
        match checkedAdd limit left refill with
        | none => .overflow
        | some left => test left
      else test left
  | s, _ => s

/-- The loop after `n` turns. -/
def after (start : ℕ) (events : ℕ → α) : ℕ → State
  | 0 => test start
  | n + 1 => turn limit refill refills (after start events n) (events n)

/-- How many of the first `n` turns refill. -/
def refillsIn (events : ℕ → α) (n : ℕ) : ℕ := (List.range n).countP fun i => refills (events i)

theorem refillsIn_succ (events : ℕ → α) (n : ℕ) :
    refillsIn refills events (n + 1) =
      refillsIn refills events n + if refills (events n) then 1 else 0 := by
  rw [refillsIn, List.range_succ, List.countP_append, List.countP_singleton]
  rfl

theorem refillsIn_mono (events : ℕ → α) {m n : ℕ} (h : m ≤ n) :
    refillsIn refills events m ≤ refillsIn refills events n := by
  induction n, h using Nat.le_induction with
  | base => exact le_rfl
  | succ n _ ih =>
    rw [refillsIn_succ]
    omega

theorem refillsIn_le (events : ℕ → α) (n : ℕ) : refillsIn refills events n ≤ n := by
  have h := List.countP_le_length (p := fun i => refills (events i)) (l := List.range n)
  rwa [List.length_range] at h

/-! The counter is positive whenever it is decremented. -/

/-- A running loop has something left, and never took one from nothing. -/
def Sound : State → Prop
  | .running left => 0 < left
  | .underflow => False
  | _ => True

theorem sound_test (left : ℕ) : Sound (test left) := by
  unfold test
  split
  · assumption
  · trivial

theorem turn_running {left : ℕ} (hleft : 0 < left) (event : α) :
    turn limit refill refills (.running left) event =
      if refills event then
        if left - 1 + refill < limit then test (left - 1 + refill) else .overflow
      else test (left - 1) := by
  have hsub : checkedSub left 1 = some (left - 1) := if_pos hleft
  simp only [turn, hsub, checkedAdd]
  by_cases hrefills : refills event
  · rw [if_pos hrefills, if_pos hrefills]
    split_ifs <;> rfl
  · rw [if_neg hrefills, if_neg hrefills]

theorem sound_turn {s : State} (h : Sound s) (event : α) :
    Sound (turn limit refill refills s event) := by
  cases s with
  | running left =>
    rw [turn_running limit refill refills h]
    split_ifs
    · exact sound_test _
    · trivial
    · exact sound_test _
  | stopped => trivial
  | underflow => exact h
  | overflow => trivial

theorem sound_after (start : ℕ) (events : ℕ → α) (n : ℕ) :
    Sound (after limit refill refills start events n) := by
  induction n with
  | zero => exact sound_test start
  | succ n ih => exact sound_turn limit refill refills ih _

theorem after_ne_underflow (start : ℕ) (events : ℕ → α) (n : ℕ) :
    after limit refill refills start events n ≠ .underflow := by
  intro h
  have hsound := sound_after limit refill refills start events n
  rw [h] at hsound
  exact hsound

/-! What is left after `n` turns. -/

/-- A turn of a loop that still runs leaves the start value and the refills, less the
turns taken. -/
theorem after_succ {start : ℕ} {events : ℕ → α} {n : ℕ}
    (hn : n < start + refill * refillsIn refills events n)
    (hlimit : start + (refill - 1) * refillsIn refills events (n + 1) < limit)
    (h : after limit refill refills start events n =
      .running (start + refill * refillsIn refills events n - n)) :
    after limit refill refills start events (n + 1) =
      test (start + refill * refillsIn refills events (n + 1) - (n + 1)) := by
  rw [after, h, turn_running limit refill refills (by omega)]
  have hcount := refillsIn_succ refills events n
  by_cases hrefills : refills (events n)
  · rw [if_pos hrefills] at hcount
    have hmul : refill * refillsIn refills events (n + 1) =
        refill * refillsIn refills events n + refill := by rw [hcount, Nat.mul_succ]
    have hless : refill * refillsIn refills events (n + 1) ≤
        (refill - 1) * refillsIn refills events (n + 1) + refillsIn refills events (n + 1) := by
      rw [← Nat.succ_mul]
      exact Nat.mul_le_mul_right _ (by omega)
    have hle := refillsIn_le refills events (n + 1)
    rw [if_pos hrefills, if_pos (by omega)]
    congr 1
    omega
  · rw [if_neg hrefills, Nat.add_zero] at hcount
    rw [if_neg hrefills, hcount]
    congr 1

/-- As long as no turn's number has caught up, the loop runs; from then on it has
stopped. -/
theorem after_cases {start : ℕ} {events : ℕ → α} (n : ℕ)
    (hlimit : start + (refill - 1) * refillsIn refills events n < limit) :
    ((∀ m ≤ n, m < start + refill * refillsIn refills events m) ∧
      after limit refill refills start events n =
        .running (start + refill * refillsIn refills events n - n)) ∨
    ((∃ m ≤ n, start + refill * refillsIn refills events m ≤ m) ∧
      after limit refill refills start events n = .stopped) := by
  induction n with
  | zero =>
    have hzero : refillsIn refills events 0 = 0 := rfl
    by_cases hstart : 0 < start
    · left
      constructor
      · intro m hm
        obtain rfl := Nat.le_zero.mp hm
        rw [hzero]
        exact hstart
      · rw [hzero, Nat.mul_zero, Nat.add_zero, Nat.sub_zero]
        exact if_pos hstart
    · right
      refine ⟨⟨0, le_rfl, ?_⟩, if_neg hstart⟩
      rw [hzero]
      omega
  | succ n ih =>
    have hmono :=
      Nat.mul_le_mul_left (refill - 1) (refillsIn_mono refills events (Nat.le_add_right n 1))
    rcases ih (by omega) with hruns | hstopped
    · obtain ⟨hbefore, hrunning⟩ := hruns
      have hnext := after_succ limit refill refills (hbefore n le_rfl) hlimit hrunning
      by_cases hcaught : n + 1 < start + refill * refillsIn refills events (n + 1)
      · left
        constructor
        · intro m hm
          rcases Nat.le_succ_iff.mp hm with hm | rfl
          · exact hbefore m hm
          · exact hcaught
        · rw [hnext]
          exact if_pos (by omega)
      · right
        refine ⟨⟨n + 1, le_rfl, by omega⟩, ?_⟩
        rw [hnext]
        exact if_neg (by omega)
    · obtain ⟨⟨m, hm, hcaught⟩, hstopped⟩ := hstopped
      right
      refine ⟨⟨m, by omega, hcaught⟩, ?_⟩
      rw [after, hstopped]
      rfl

/-- The loop has stopped exactly when some turn's number had caught up. -/
theorem after_stopped_iff {start : ℕ} {events : ℕ → α} {n : ℕ}
    (hlimit : start + (refill - 1) * refillsIn refills events n < limit) :
    after limit refill refills start events n = .stopped ↔
      ∃ m ≤ n, start + refill * refillsIn refills events m ≤ m := by
  rcases after_cases limit refill refills n hlimit with hruns | hstopped
  · obtain ⟨hbefore, hrunning⟩ := hruns
    rw [hrunning]
    constructor
    · intro h
      cases h
    · intro h
      obtain ⟨m, hm, hcaught⟩ := h
      have hless := hbefore m hm
      omega
  · exact ⟨fun _ => hstopped.1, fun _ => hstopped.2⟩

theorem after_ne_overflow {start : ℕ} {events : ℕ → α} {n : ℕ}
    (hlimit : start + (refill - 1) * refillsIn refills events n < limit) :
    after limit refill refills start events n ≠ .overflow := by
  rcases after_cases limit refill refills n hlimit with hruns | hstopped
  · rw [hruns.2]
    intro h
    cases h
  · rw [hstopped.2]
    intro h
    cases h

/-- A loop that is refilled on every turn does not stop. -/
theorem after_ne_stopped (hrefill : 0 < refill) {start : ℕ} (hstart : 0 < start)
    {events : ℕ → α} (hevents : ∀ n, refills (events n)) (n : ℕ) :
    after limit refill refills start events n ≠ .stopped := by
  induction n with
  | zero =>
    rw [after, test, if_pos hstart]
    intro h
    cases h
  | succ n ih =>
    have hsound := sound_after limit refill refills start events n
    rw [after]
    cases hstate : after limit refill refills start events n with
    | running left =>
      rw [hstate] at hsound
      have hpos : 0 < left := hsound
      rw [turn_running limit refill refills hpos, if_pos (hevents n), test,
        if_pos (show 0 < left - 1 + refill by omega)]
      split_ifs
      · intro h
        cases h
      · intro h
        cases h
    | stopped => exact absurd hstate ih
    | underflow =>
      intro h
      cases h
    | overflow =>
      intro h
      cases h

end Weverywhere.Countdown
