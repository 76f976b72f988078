import Mathlib.Data.List.Basic
import Mathlib.Data.List.Nodup

/-!
Reading a list page by page. Each turn delivers a page from the front of what is
pending; a page holds only items that fit, and holds at least the front item
whenever that one fits. Such a reader gets as far as the first item that does
not fit, and no further.
-/
namespace Weverywhere.Paging

variable {α : Type*}

/-- What a reader has and what it is still owed. -/
structure Progress (α : Type*) where
  delivered : List α
  pending : List α

structure IsPage (fits : α → Prop) (pending page : List α) : Prop where
  isPrefix : page <+: pending
  all_fit : ∀ x ∈ page, fits x
  ne_nil : ∀ x rest, pending = x :: rest → fits x → page ≠ []

/-- One turn of a reader. -/
def TakesPage (fits : α → Prop) (before after : Progress α) : Prop :=
  ∃ page, IsPage fits before.pending page ∧ after.delivered = before.delivered ++ page ∧
    before.pending = page ++ after.pending

/-- Nothing that fits is pending at the front. -/
def Stuck (fits : α → Prop) (pending : List α) : Prop :=
  ∀ x rest, pending = x :: rest → ¬ fits x

/-- What holds of a reader `k` turns after it was owed `all`. -/
structure After (fits : α → Prop) (all : List α) (k : ℕ) (p : Progress α) : Prop where
  split : all = p.delivered ++ p.pending
  all_fit : ∀ x ∈ p.delivered, fits x
  moved : k ≤ p.delivered.length ∨ Stuck fits p.pending

theorem after_zero (fits : α → Prop) (all : List α) : After fits all 0 ⟨[], all⟩ where
  split := rfl
  all_fit := by simp
  moved := .inl (Nat.zero_le _)

theorem after_succ (fits : α → Prop) (all : List α) (k : ℕ) (p q : Progress α)
    (hp : After fits all k p) (hturn : TakesPage fits p q) : After fits all (k + 1) q := by
  obtain ⟨page, hpage, hdelivered, hpending⟩ := hturn
  have hsplit : all = q.delivered ++ q.pending := by
    rw [hp.split, hdelivered, hpending, List.append_assoc]
  have hfit : ∀ x ∈ q.delivered, fits x := by
    intro x hx
    rw [hdelivered] at hx
    rcases List.mem_append.mp hx with hx | hx
    · exact hp.all_fit x hx
    · exact hpage.all_fit x hx
  refine ⟨hsplit, hfit, ?_⟩
  by_cases hempty : page = []
  · -- an empty page means the front item does not fit, so nothing moves again
    right
    intro x rest hfront hx
    rw [hempty, List.nil_append] at hpending
    exact hpage.ne_nil x rest (hpending.trans hfront) hx hempty
  · have hlength := List.length_pos_iff.mpr hempty
    rcases hp.moved with hmoved | hstuck
    · left
      rw [hdelivered, List.length_append]
      omega
    · exfalso
      obtain ⟨x, rest, hcons⟩ := List.exists_cons_of_ne_nil hempty
      refine hstuck x (rest ++ q.pending) ?_ (hpage.all_fit x ?_)
      · rw [hpending, hcons, List.cons_append]
      · rw [hcons]
        exact List.mem_cons_self

/-- Run lemma: `k` turns from the start. -/
theorem after_turns (fits : α → Prop) (all : List α) (progress : ℕ → Progress α)
    (hstart : progress 0 = ⟨[], all⟩)
    (hturn : ∀ k, TakesPage fits (progress k) (progress (k + 1))) (k : ℕ) :
    After fits all k (progress k) := by
  induction k with
  | zero =>
    rw [hstart]
    exact after_zero fits all
  | succ k ih => exact after_succ fits all k _ _ ih (hturn k)

/-- With as many turns as there are items, what is delivered is everything in
front of the first item that does not fit. -/
theorem After.delivered_eq {fits : α → Prop} [DecidablePred fits] {all : List α} {k : ℕ}
    {p : Progress α} (h : After fits all k p) (hk : all.length ≤ k) :
    p.delivered = all.takeWhile fits := by
  have hfront : p.pending.takeWhile fits = [] := by
    cases hpending : p.pending with
    | nil => rfl
    | cons x rest =>
      have hstuck : ¬ fits x := by
        rcases h.moved with hmoved | hstuck
        · have hlength := congrArg List.length h.split
          simp only [List.length_append, hpending, List.length_cons] at hlength
          omega
        · exact hstuck x rest hpending
      simp [hstuck]
  rw [h.split, List.takeWhile_append_of_pos (fun x hx => decide_eq_true (h.all_fit x hx)), hfront,
    List.append_nil]

/-- The front part reaches every item that fits exactly when no item that fits
stands behind one that does not. -/
theorem fitting_mem_takeWhile_iff (fits : α → Prop) [DecidablePred fits] (all : List α)
    (hnodup : all.Nodup) :
    (∀ x ∈ all, fits x → x ∈ all.takeWhile fits) ↔
      all.Pairwise fun x y => fits y → fits x := by
  induction all with
  | nil => simp
  | cons x rest ih =>
    obtain ⟨hx, hrest⟩ := List.nodup_cons.mp hnodup
    by_cases hfits : fits x
    · have hmem : (∀ y ∈ rest, fits y → y ∈ (x :: rest).takeWhile fits) ↔
          ∀ y ∈ rest, fits y → y ∈ rest.takeWhile fits := by
        refine forall₂_congr fun y hy => ?_
        have hne : y ≠ x := fun heq => hx (heq ▸ hy)
        simp [hfits, hne]
      rw [List.forall_mem_cons, hmem, ih hrest, List.pairwise_cons]
      simp [hfits]
    · have hall : (∀ y ∈ rest, ¬ fits y) →
          rest.Pairwise fun x y => fits y → fits x := fun hnone =>
        List.pairwise_of_forall_mem_list fun _ _ y hy hfit => absurd hfit (hnone y hy)
      simp only [List.takeWhile_cons, hfits, decide_false, Bool.false_eq_true, if_false,
        List.not_mem_nil, List.forall_mem_cons, List.pairwise_cons]
      constructor
      · rintro ⟨-, hnone⟩
        exact ⟨fun y hy hfit => hnone y hy hfit, hall hnone⟩
      · rintro ⟨hnone, -⟩
        exact ⟨fun hfit => hfit, fun y hy hfit => hnone y hy hfit⟩

end Weverywhere.Paging
