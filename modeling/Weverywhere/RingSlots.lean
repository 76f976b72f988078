import Mathlib.Data.List.Basic
import Mathlib.Data.Nat.ModEq

/-!
A ring of slots that items are written to in turn: the first item to the first
slot, each next one to the next slot, round and round. A slot keeps the newest of
the items that went to it, so as many of the newest items as there are slots are
all still there.
-/
namespace Weverywhere.RingSlots

variable {α : Type*} {cap : ℕ}

/-- The newest of `n` items that went to the slot of the item `i`. -/
def newest (cap n i : ℕ) : ℕ := i + cap * ((n - 1 - i) / cap)

/-- Each slot that was written holds the newest of the items that went to it. -/
def Written (cap : ℕ) (slots : ℕ → α) (items : List α) : Prop :=
  ∀ i < items.length, items[newest cap items.length i]? = some (slots (i % cap))

theorem newest_lt {n i : ℕ} (hi : i < n) : newest cap n i < n := by
  have hback := Nat.mul_div_le (n - 1 - i) cap
  unfold newest
  omega

/-- An item is still in its slot while the ring has not come round to it. -/
theorem newest_eq_self_iff {n i : ℕ} (hcap : 0 < cap) (hi : i < n) :
    newest cap n i = i ↔ n ≤ i + cap := by
  have hzero : (n - 1 - i) / cap = 0 ↔ n - 1 - i < cap := by
    rw [Nat.div_eq_zero_iff]
    omega
  constructor
  · intro h
    have hturns : cap * ((n - 1 - i) / cap) = 0 := by
      unfold newest at h
      omega
    have hsmall := hzero.mp ((Nat.mul_eq_zero.mp hturns).resolve_left (by omega))
    omega
  · intro h
    rw [newest, hzero.mpr (by omega), Nat.mul_zero, Nat.add_zero]

/-- One more item takes over the slot it goes to. -/
theorem newest_succ_of_same {n i : ℕ} (hi : i ≤ n) (hsame : i % cap = n % cap) :
    newest cap (n + 1) i = n := by
  have hdvd : cap ∣ n - i := (Nat.modEq_iff_dvd' hi).mp hsame
  have hback : n + 1 - 1 - i = n - i := by omega
  rw [newest, hback, Nat.mul_div_cancel' hdvd]
  omega

/-- One more item leaves the other slots alone. -/
theorem newest_succ_of_ne {n i : ℕ} (hi : i < n) (hother : i % cap ≠ n % cap) :
    newest cap (n + 1) i = newest cap n i := by
  have hdvd : ¬ cap ∣ n - 1 - i + 1 := by
    intro h
    apply hother
    apply (Nat.modEq_iff_dvd' hi.le).mpr
    have hgap : n - i = n - 1 - i + 1 := by omega
    rw [hgap]
    exact h
  have hback : n + 1 - 1 - i = n - 1 - i + 1 := by omega
  rw [newest, newest, hback, Nat.succ_div, if_neg hdvd, Nat.add_zero]

theorem written_nil (slots : ℕ → α) : Written cap slots [] := by
  intro i hi
  cases hi

/-- Step lemma: writing one more item. -/
theorem Written.append {slots slots' : ℕ → α} {items : List α} (h : Written cap slots items)
    (x : α) (hhit : slots' (items.length % cap) = x)
    (hmiss : ∀ i, i % cap ≠ items.length % cap → slots' (i % cap) = slots (i % cap)) :
    Written cap slots' (items ++ [x]) := by
  intro i hi
  rw [List.length_append, List.length_singleton] at hi ⊢
  by_cases hsame : i % cap = items.length % cap
  · rw [newest_succ_of_same (by omega) hsame, hsame, hhit, List.getElem?_concat_length]
  · have hold : i < items.length := by
      rcases Nat.lt_or_ge i items.length with hlt | hge
      · exact hlt
      · have heq : i = items.length := by omega
        exact absurd (congrArg (· % cap) heq) hsame
    rw [newest_succ_of_ne hold hsame, hmiss i hsame,
      List.getElem?_append_left (newest_lt hold)]
    exact h i hold

end Weverywhere.RingSlots
