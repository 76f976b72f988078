import Mathlib.Data.List.DropRight
import Mathlib.Data.List.Range

/-!
Following a log of which only the newest entries are kept. The entries are numbered
from 1. A follower remembers the number of the last entry it took and takes pages
from the front of what is kept beyond it. It never takes an entry twice, and it
misses none as long as it takes no page when more entries than are kept lie ahead.
-/
namespace Weverywhere.FollowedLog

variable {β : Type*} (number : β → ℕ)

/-- Every entry carries its place, counted from 1. -/
def IsNumbered (log : List β) : Prop := log.map number = List.range' 1 log.length

/-- What is kept of the log beyond the number `mark`. -/
def pending (cap : ℕ) (log : List β) (mark : ℕ) : List β :=
  (log.rtake cap).filter fun x => mark < number x

/-- Everything up to the mark was taken, in its order, with nothing else. -/
def Complete (log : List β) (mark : ℕ) (taken : List β) : Prop := taken = log.take mark

/-- What was taken is part of the log up to the mark, in its order. -/
structure Follows (log : List β) (mark : ℕ) (taken : List β) : Prop where
  mark_le : mark ≤ log.length
  sublist : taken.Sublist (log.take mark)

variable {number} {cap mark : ℕ} {log taken page : List β}

theorem IsNumbered.number_getElem (h : IsNumbered number log) {i : ℕ} (hi : i < log.length) :
    number log[i] = i + 1 := by
  have hmap : (log.map number)[i]? = some (1 + i) := by
    rw [h, List.getElem?_range' hi, Nat.one_mul]
  rw [List.getElem?_map, List.getElem?_eq_getElem hi] at hmap
  have hsame := Option.some.inj hmap
  omega

/-- The numbers of a log grow. -/
theorem IsNumbered.ascending (h : IsNumbered number log) :
    log.Pairwise fun x y => number x < number y := by
  have hrange : (log.map number).Pairwise (· < ·) := by
    rw [h]
    exact List.pairwise_lt_range'
  exact List.pairwise_map.mp hrange

/-- Beyond the mark lies the end of the log, without what is kept no more. -/
theorem pending_eq_drop (h : IsNumbered number log) (cap mark : ℕ) :
    pending number cap log mark = log.drop (max mark (log.length - cap)) := by
  have hsplit : log.rtake cap =
      (log.drop (log.length - cap)).take (mark - (log.length - cap)) ++
        log.drop (max mark (log.length - cap)) := by
    have hdrop := List.take_append_drop (mark - (log.length - cap)) (log.drop (log.length - cap))
    rw [List.drop_drop] at hdrop
    have hmax : log.length - cap + (mark - (log.length - cap)) = max mark (log.length - cap) := by
      omega
    rw [hmax] at hdrop
    exact hdrop.symm
  rw [pending, hsplit, List.filter_append]
  have hold : ∀ x ∈ (log.drop (log.length - cap)).take (mark - (log.length - cap)),
      ¬ mark < number x := by
    intro x hx
    obtain ⟨i, hi, rfl⟩ := List.mem_iff_getElem.mp hx
    rw [List.length_take, List.length_drop] at hi
    rw [List.getElem_take, List.getElem_drop, h.number_getElem (by omega)]
    omega
  have hnew : ∀ x ∈ log.drop (max mark (log.length - cap)), mark < number x := by
    intro x hx
    obtain ⟨i, hi, rfl⟩ := List.mem_iff_getElem.mp hx
    rw [List.length_drop] at hi
    rw [List.getElem_drop, h.number_getElem (by omega)]
    omega
  rw [List.filter_eq_nil_iff.mpr (by simpa using hold),
    List.filter_eq_self.mpr (by simpa using hnew), List.nil_append]

/-- A page that is not empty, by its place in the log. -/
theorem page_eq (h : IsNumbered number log) (hpage : page <+: pending number cap log mark)
    (hsome : page ≠ []) :
    page = (log.drop (max mark (log.length - cap))).take page.length ∧
      max mark (log.length - cap) + page.length ≤ log.length := by
  have hpositive := List.length_pos_iff.mpr hsome
  rw [pending_eq_drop h] at hpage
  have hle := hpage.length_le
  rw [List.length_drop] at hle
  exact ⟨List.prefix_iff_eq_take.mp hpage, by omega⟩

/-- The last number of a page that is not empty. -/
theorem page_last (h : IsNumbered number log) (hpage : page <+: pending number cap log mark)
    (hsome : page ≠ []) :
    number (page.getLast hsome) = max mark (log.length - cap) + page.length := by
  obtain ⟨htake, hle⟩ := page_eq h hpage hsome
  have hpositive := List.length_pos_iff.mpr hsome
  have hbound : max mark (log.length - cap) + (page.length - 1) < log.length := by omega
  have hlast : page.getLast hsome = log[max mark (log.length - cap) + (page.length - 1)] := by
    have hget : page[page.length - 1]? =
        log[max mark (log.length - cap) + (page.length - 1)]? := by
      rw [htake, List.getElem?_take_of_lt (by rw [← htake]; omega), List.getElem?_drop, ← htake]
    rw [List.getElem?_eq_getElem (by omega), List.getElem?_eq_getElem (by omega)] at hget
    rw [List.getLast_eq_getElem]
    exact Option.some.inj hget
  rw [hlast, h.number_getElem]
  omega

/-! One step of the log and one of the follower. -/

theorem Follows.append (h : Follows log mark taken) (x : β) : Follows (log ++ [x]) mark taken where
  mark_le := by
    rw [List.length_append]
    exact h.mark_le.trans (Nat.le_add_right _ _)
  sublist := by
    rw [List.take_append_of_le_length h.mark_le]
    exact h.sublist

/-- A page from behind `mark` goes behind what was taken up to it. -/
theorem Follows.take (h : Follows log mark taken) (hnumbered : IsNumbered number log)
    (hpage : page <+: pending number cap log mark) (hsome : page ≠ []) :
    Follows log (number (page.getLast hsome)) (taken ++ page) := by
  obtain ⟨htake, hle⟩ := page_eq hnumbered hpage hsome
  have hsplit : log.take (max mark (log.length - cap) + page.length) =
      log.take (max mark (log.length - cap)) ++ page := by
    conv_rhs => rw [htake]
    exact List.take_add
  rw [page_last hnumbered hpage hsome]
  refine ⟨hle, ?_⟩
  rw [hsplit]
  apply List.Sublist.append_right
  exact h.sublist.trans (List.take_prefix_take_left (Nat.le_max_left _ _)).sublist

/-- Nothing is missing behind a page exactly when all that lay ahead was kept. -/
theorem Follows.complete_take_iff (h : Follows log mark taken) (hnumbered : IsNumbered number log)
    (hpage : page <+: pending number cap log mark) (hsome : page ≠ [])
    (hcomplete : Complete log mark taken) :
    Complete log (number (page.getLast hsome)) (taken ++ page) ↔ log.length ≤ mark + cap := by
  obtain ⟨htake, hle⟩ := page_eq hnumbered hpage hsome
  have hmark := h.mark_le
  rw [page_last hnumbered hpage hsome, Complete, hcomplete]
  constructor
  · intro hall
    have hlength := congrArg List.length hall
    rw [List.length_append, List.length_take, List.length_take] at hlength
    omega
  · intro hkept
    have hmax : max mark (log.length - cap) = mark := by omega
    rw [hmax] at htake ⊢
    conv_lhs => rw [htake]
    exact List.take_add.symm

end Weverywhere.FollowedLog
