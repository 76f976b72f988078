import Mathlib.Data.List.Chain
import Mathlib.Data.List.Nodup

/-!
Walks in a directed graph as chains of a relation. A walk that comes to a place
again can leave out the way round: what is left leads to the same end, is no
longer and visits no place twice.
-/
namespace Weverywhere.SimplePaths

variable {α : Type*} {R : α → α → Prop}

/-- The end of the walk that starts at `a` and goes on to the places of `walk`. -/
def endOf (a : α) (walk : List α) : α := walk.getLast?.getD a

@[simp] theorem endOf_nil (a : α) : endOf a [] = a := rfl

@[simp] theorem endOf_cons (a b : α) (walk : List α) : endOf a (b :: walk) = endOf b walk := by
  cases walk with
  | nil => rfl
  | cons c walk => simp [endOf, List.getLast?_eq_some_getLast]

theorem endOf_append_cons (a b : α) (front back : List α) :
    endOf a (front ++ b :: back) = endOf b back := by
  induction front generalizing a with
  | nil => exact endOf_cons a b back
  | cons c front ih =>
    rw [List.cons_append, endOf_cons]
    exact ih c

/-- A walk that visits no place twice, no longer and through no other places. -/
structure Shortened (R : α → α → Prop) (a : α) (walk short : List α) : Prop where
  chain : List.IsChain R (a :: short)
  nodup : (a :: short).Nodup
  endOf_eq : endOf a short = endOf a walk
  length_le : short.length ≤ walk.length
  subset : short ⊆ walk

/-- The way round is left out from the end on: what follows the last visit of the
start is enough. -/
theorem exists_shortened (a : α) (walk : List α) (h : List.IsChain R (a :: walk)) :
    ∃ short, Shortened R a walk short := by
  induction walk generalizing a with
  | nil => exact ⟨[], h, List.nodup_singleton a, rfl, Nat.le_refl 0, List.Subset.refl _⟩
  | cons b walk ih =>
    obtain ⟨hstep, hrest⟩ := List.isChain_cons_cons.mp h
    obtain ⟨short, hshort⟩ := ih b hrest
    by_cases hmem : a ∈ b :: short
    · obtain ⟨front, back, hsplit⟩ := List.append_of_mem hmem
      have hsuffix : a :: back <:+ b :: short := ⟨front, hsplit.symm⟩
      have hlength := congrArg List.length hsplit
      have hle := hshort.length_le
      refine ⟨back, hshort.chain.suffix hsuffix, hshort.nodup.sublist hsuffix.sublist, ?_, ?_, ?_⟩
      · rw [endOf_cons, ← hshort.endOf_eq, ← endOf_cons a b short, hsplit, endOf_append_cons]
      · simp only [List.length_cons, List.length_append] at hlength ⊢
        omega
      · intro c hc
        have hfound : c ∈ b :: short := hsuffix.subset (List.mem_cons_of_mem a hc)
        rcases List.mem_cons.mp hfound with rfl | hfound
        · exact List.mem_cons_self
        · exact List.mem_cons_of_mem b (hshort.subset hfound)
    · refine ⟨b :: short, List.isChain_cons_cons.mpr ⟨hstep, hshort.chain⟩,
        List.nodup_cons.mpr ⟨hmem, hshort.nodup⟩, ?_, ?_, ?_⟩
      · rw [endOf_cons, endOf_cons, hshort.endOf_eq]
      · exact Nat.succ_le_succ hshort.length_le
      · exact List.cons_subset_cons b hshort.subset

end Weverywhere.SimplePaths
