import Mathlib.Algebra.Order.Group.Nat
import Mathlib.Data.List.Basic

/-!
A listener that waits for a fixed time at a time, so many times, and more often for every
good thing that comes. Arrivals are listed in their order. It hears them all exactly when
before each of them fewer waits have ended for nothing than it was granted so far; its
last waits follow the last arrival.
-/
namespace Weverywhere.WaitBudget

variable {α : Type*} (time : α → ℕ) (good : α → Bool) (slice refill : ℕ)

/-- What is heard, and when the listener gives up; `left` waits are left at the moment
`now`. -/
def listen (left now : ℕ) (arrivals : List α) : List α × ℕ :=
  match left, arrivals with
  | 0, _ => ([], now)
  | left + 1, [] => listen left (now + slice) []
  | left + 1, x :: rest =>
    if now + slice < time x then listen left (now + slice) (x :: rest)
    else
      let later := listen (if good x then left + refill else left) (max now (time x)) rest
      (x :: later.1, later.2)
termination_by left + (refill + 1) * arrivals.length
decreasing_by
  · omega
  · omega
  · rw [List.length_cons, Nat.mul_add]
    split_ifs <;> omega

/-- The waits begun at `now` that end before `t`. -/
def waits (now t : ℕ) : ℕ := (t - now - 1) / slice

/-- The waits that end for nothing before the last arrival. -/
def waited : ℕ → List α → ℕ
  | _, [] => 0
  | now, x :: rest => waits slice now (time x) + waited (max now (time x)) rest

def momentAfter : ℕ → List α → ℕ
  | now, [] => now
  | now, x :: rest => momentAfter (max now (time x)) rest

variable {time good slice refill} {left now : ℕ}

theorem listen_nil : listen time good slice refill left now [] = ([], now + slice * left) := by
  induction left generalizing now with
  | zero => rw [listen, Nat.mul_zero, Nat.add_zero]
  | succ left ih => rw [listen, ih, Nat.mul_succ, Nat.add_assoc, Nat.add_comm slice]

theorem waits_of_le (hslice : 0 < slice) {t : ℕ} (h : t ≤ now + slice) : waits slice now t = 0 := by
  rw [waits]
  apply Nat.div_eq_of_lt
  omega

theorem waits_of_lt (hslice : 0 < slice) {t : ℕ} (h : now + slice < t) :
    waits slice now t = waits slice (now + slice) t + 1 := by
  have hsub : t - now - 1 = (t - (now + slice) - 1) + slice := by omega
  rw [waits, waits, hsub, Nat.add_div_right _ hslice]

/-- The next arrival is heard when the waits before it are fewer than those left. -/
theorem listen_cons (hslice : 0 < slice) (x : α) (rest : List α) :
    listen time good slice refill left now (x :: rest) =
      if waits slice now (time x) < left then
        let later := listen time good slice refill
          (left - waits slice now (time x) - 1 + if good x then refill else 0)
          (max now (time x)) rest
        (x :: later.1, later.2)
      else ([], now + slice * left) := by
  induction left generalizing now with
  | zero => rw [listen, if_neg (Nat.not_lt_zero _), Nat.mul_zero, Nat.add_zero]
  | succ left ih =>
    rw [listen]
    by_cases hlate : now + slice < time x
    · have hmoment : max (now + slice) (time x) = max now (time x) := by omega
      rw [if_pos hlate, ih, waits_of_lt hslice hlate, hmoment]
      by_cases hleft : waits slice (now + slice) (time x) < left
      · have hless : left + 1 - (waits slice (now + slice) (time x) + 1) - 1 =
            left - waits slice (now + slice) (time x) - 1 := by omega
        have hmore : waits slice (now + slice) (time x) + 1 < left + 1 := by omega
        rw [if_pos hleft, if_pos hmore, hless]
      · have hmore : ¬ waits slice (now + slice) (time x) + 1 < left + 1 := by omega
        rw [if_neg hleft, if_neg hmore, Nat.mul_succ, Nat.add_assoc, Nat.add_comm slice]
    · rw [if_neg hlate, waits_of_le hslice (Nat.not_lt.mp hlate), if_pos (Nat.succ_pos left)]
      by_cases hgood : good x
      · simp [hgood]
      · simp [hgood]

/-- Nothing is heard out of its order. -/
theorem listen_prefix (hslice : 0 < slice) (arrivals : List α) :
    (listen time good slice refill left now arrivals).1 <+: arrivals := by
  induction arrivals generalizing left now with
  | nil => simp [listen_nil]
  | cons x rest ih =>
    rw [listen_cons hslice]
    by_cases hwaits : waits slice now (time x) < left
    · rw [if_pos hwaits]
      exact (List.prefix_cons_inj x).mpr ih
    · rw [if_neg hwaits]
      exact List.nil_prefix

/-- In time: before each arrival, the waits that ended and the arrivals so far are fewer
than all that was granted. -/
def InTime (time : α → ℕ) (good : α → Bool) (slice refill left now : ℕ) (arrivals : List α) :
    Prop :=
  ∀ front x back, arrivals = front ++ x :: back →
    waited time slice now (front ++ [x]) + front.length < left + refill * front.countP good

theorem mul_countP_cons (x : α) (rest : List α) :
    refill * (x :: rest).countP good =
      refill * rest.countP good + if good x then refill else 0 := by
  rw [List.countP_cons, Nat.mul_add]
  by_cases hgood : good x
  · simp [hgood]
  · simp [hgood]

theorem inTime_cons (x : α) (rest : List α) :
    InTime time good slice refill left now (x :: rest) ↔
      waits slice now (time x) < left ∧ InTime time good slice refill
        (left - waits slice now (time x) - 1 + if good x then refill else 0)
        (max now (time x)) rest := by
  constructor
  · intro h
    have hfirst := h [] x rest rfl
    simp only [List.nil_append, waited, List.length_nil, List.countP_nil, Nat.mul_zero,
      Nat.add_zero] at hfirst
    refine ⟨hfirst, ?_⟩
    intro front y back hsplit
    have hnext := h (x :: front) y back (by rw [hsplit, List.cons_append])
    rw [List.cons_append, waited, List.length_cons, mul_countP_cons] at hnext
    omega
  · rintro ⟨hfirst, hrest⟩ front y back hsplit
    cases front with
    | nil =>
      obtain ⟨rfl, -⟩ := List.cons.inj hsplit
      simpa [waited] using hfirst
    | cons z front =>
      rw [List.cons_append] at hsplit
      obtain ⟨rfl, hrestSplit⟩ := List.cons.inj hsplit
      have hnext := hrest front y back hrestSplit
      rw [List.cons_append, waited, List.length_cons, mul_countP_cons]
      omega

theorem listen_all_iff (hslice : 0 < slice) (arrivals : List α) :
    (listen time good slice refill left now arrivals).1 = arrivals ↔
      InTime time good slice refill left now arrivals := by
  induction arrivals generalizing left now with
  | nil =>
    rw [listen_nil]
    refine iff_of_true rfl ?_
    intro front x back h
    simp at h
  | cons x rest ih =>
    rw [listen_cons hslice, inTime_cons]
    by_cases hwaits : waits slice now (time x) < left
    · rw [if_pos hwaits, List.cons_inj_right, ih]
      exact (and_iff_right hwaits).symm
    · simp [hwaits]

/-- When all is heard, the listener gives up after the waits that are then left. -/
theorem listen_end (hslice : 0 < slice) {arrivals : List α}
    (h : InTime time good slice refill left now arrivals) :
    (listen time good slice refill left now arrivals).2 = momentAfter time now arrivals +
      slice * (left + refill * arrivals.countP good -
        (waited time slice now arrivals + arrivals.length)) := by
  induction arrivals generalizing left now with
  | nil => simp [listen_nil, momentAfter, waited]
  | cons x rest ih =>
    obtain ⟨hwaits, hrest⟩ := (inTime_cons x rest).mp h
    rw [listen_cons hslice, if_pos hwaits, momentAfter, waited, List.length_cons]
    have hleft : left + refill * (x :: rest).countP good -
        (waits slice now (time x) + waited time slice (max now (time x)) rest + (rest.length + 1)) =
        left - waits slice now (time x) - 1 + (if good x then refill else 0) +
          refill * rest.countP good -
          (waited time slice (max now (time x)) rest + rest.length) := by
      rw [mul_countP_cons]
      omega
    rw [hleft]
    exact ih hrest

end Weverywhere.WaitBudget
