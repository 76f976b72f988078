import Mathlib.Data.List.Sort

/-!
Which of two elements stands first in a list, and what a stable sort makes of it: the
order of equal elements is that of the list that was sorted, so the result is the same
for every order of that list only where no two elements are equal.
-/
namespace Weverywhere.Precedence

variable {α : Type*} {a b : α} {list : List α}

/-- Wherever `b` stands, `a` stands before it. -/
def Precedes (a b : α) (list : List α) : Prop :=
  ∀ before after, list = before ++ b :: after → a ∈ before

theorem precedes_of_not_mem (hb : b ∉ list) : Precedes a b list := by
  intro before after hsplit
  exact absurd (by simp [hsplit]) hb

theorem precedes_of_sublist (hnodup : list.Nodup) (h : [a, b].Sublist list) :
    Precedes a b list := by
  intro before after hsplit
  rw [hsplit] at h hnodup
  obtain ⟨front, back, hpair, hfront, hback⟩ := List.sublist_append_iff.mp h
  cases front with
  | nil =>
    have hbehind : b ∉ after := (List.nodup_cons.mp (List.nodup_append.mp hnodup).2.1).1
    rw [List.nil_append] at hpair
    rw [← hpair] at hback
    exact absurd (List.singleton_sublist.mp hback.of_cons_cons) hbehind
  | cons x front =>
    obtain ⟨rfl, -⟩ := List.cons.inj hpair
    exact hfront.subset List.mem_cons_self

theorem Precedes.snoc (h : Precedes a b list) {x : α} (hx : x = b → a ∈ list) :
    Precedes a b (list ++ [x]) := by
  intro before after hsplit
  rcases List.eq_nil_or_concat after with rfl | ⟨after, y, rfl⟩
  · obtain ⟨rfl, hlast⟩ := List.append_inj' hsplit rfl
    exact hx (List.cons.inj hlast).1
  · rw [List.concat_eq_append, ← List.cons_append, ← List.append_assoc] at hsplit
    exact h before after (List.append_inj' hsplit rfl).1

/-- What a filter keeps stays in order. -/
theorem Precedes.filter (h : Precedes a b list) {p : α → Bool} (ha : p a = true) :
    Precedes a b (list.filter p) := by
  intro before after hsplit
  obtain ⟨front, back, rfl, hfront, hback⟩ := List.filter_eq_append_iff.mp hsplit
  obtain ⟨skipped, rest, rfl, hskipped, -, -⟩ := List.filter_eq_cons_iff.mp hback
  have hmem := h (front ++ skipped) rest (by rw [List.append_assoc])
  rcases List.mem_append.mp hmem with hmem | hmem
  · rw [← hfront]
    exact List.mem_filter.mpr ⟨hmem, ha⟩
  · exact absurd ha (hskipped a hmem)

/-- Two elements do not each precede the other. -/
theorem Precedes.asymm (h : Precedes a b list) (hnodup : list.Nodup) (hb : b ∈ list) :
    ¬ Precedes b a list := by
  intro h'
  obtain ⟨before, after, rfl⟩ := List.append_of_mem hb
  obtain ⟨front, back, rfl⟩ := List.append_of_mem (h before after rfl)
  have hfront := h' front (back ++ b :: after) (by simp)
  exact absurd rfl ((List.nodup_append.mp hnodup).2.2 b (List.mem_append_left _ hfront) b
    List.mem_cons_self)

/-! Sorting. -/

section Sorting

variable (le : α → α → Prop) [DecidableRel le]

/-- Without ties the order of the list is forgotten. -/
theorem insertionSort_eq_of_perm [Std.Total le] [IsTrans α le] {list' : List α}
    (hperm : list.Perm list') (hties : ∀ a ∈ list, ∀ b ∈ list, le a b → le b a → a = b) :
    list.insertionSort le = list'.insertionSort le := by
  have hsame : (list.insertionSort le).Perm (list'.insertionSort le) :=
    (List.perm_insertionSort le list).trans
      (hperm.trans (List.perm_insertionSort le list').symm)
  have hanti : ∀ a b, a ∈ list.insertionSort le → b ∈ list'.insertionSort le → le a b → le b a →
      a = b := by
    intro a b ha hb hab hba
    rw [List.mem_insertionSort] at ha hb
    exact hties a ha b (hperm.mem_iff.mpr hb) hab hba
  exact hsame.eq_of_pairwise hanti (List.pairwise_insertionSort le list)
    (List.pairwise_insertionSort le list')

variable {le}

/-- The first of the list precedes every element that is not below it. -/
theorem precedes_insertionSort_cons (hnodup : (a :: list).Nodup) (hb : b ∈ list) (h : le a b) :
    Precedes a b ((a :: list).insertionSort le) := by
  apply precedes_of_sublist
  · rwa [(List.perm_insertionSort le (a :: list)).nodup_iff]
  · apply List.pair_sublist_insertionSort h
    exact (List.singleton_sublist.mpr hb).cons_cons a

theorem orderedInsert_snoc (h : le a b) :
    (list ++ [b]).orderedInsert le a = list.orderedInsert le a ++ [b] := by
  induction list with
  | nil => simp [h]
  | cons x list ih =>
    rw [List.cons_append, List.orderedInsert_cons, List.orderedInsert_cons, ih]
    split_ifs <;> rfl

/-- The last of the list stays last when no element is above it. -/
theorem insertionSort_snoc (h : ∀ a ∈ list, le a b) :
    (list ++ [b]).insertionSort le = list.insertionSort le ++ [b] := by
  induction list with
  | nil => rfl
  | cons x list ih =>
    rw [List.cons_append, List.insertionSort_cons,
      ih fun a ha => h a (List.mem_cons_of_mem x ha), orderedInsert_snoc (h x List.mem_cons_self),
      List.insertionSort_cons]

end Sorting

end Weverywhere.Precedence
