import Mathlib.Data.Finset.Dedup
import Mathlib.Data.Finset.Insert
import Mathlib.Data.Finset.Basic
import Mathlib.Data.List.DropRight

/-!
Queues that are appended at the back and trimmed at the front to a capacity.
Trimming by popping until the bound holds keeps exactly the last elements, and
a key set trimmed in step with its queue stays the set of the queue's elements
as long as no key is queued twice.
-/
namespace Weverywhere.BoundedQueue

variable {α β : Type*}

/-- Pop from the front while the queue is longer than its capacity. -/
def trimFront (cap : ℕ) : List α → List α
  | [] => []
  | x :: xs => if cap < (x :: xs).length then trimFront cap xs else x :: xs

/-- The popping loop stops at the last `cap` elements. -/
theorem trimFront_eq_rtake (cap : ℕ) (queue : List α) : trimFront cap queue = queue.rtake cap := by
  induction queue with
  | nil => simp [trimFront]
  | cons x xs ih =>
    by_cases hcap : cap < (x :: xs).length
    · have hskip : (x :: xs).length - cap = (xs.length - cap) + 1 := by
        simp only [List.length_cons] at hcap ⊢
        omega
      simp only [trimFront, hcap, if_true, ih]
      simp only [List.rtake, hskip, List.drop_succ_cons]
    · have hkeep : (x :: xs).length - cap = 0 := by omega
      simp only [trimFront, hcap, if_false, List.rtake, hkeep, List.drop_zero]

/-- Pop from the front while the queue is too long, removing each popped key
from the set kept beside the queue. -/
def trimKeys [DecidableEq α] (cap : ℕ) : Finset α → List α → Finset α × List α
  | keys, [] => (keys, [])
  | keys, x :: xs =>
      if cap < (x :: xs).length then trimKeys cap (keys.erase x) xs else (keys, x :: xs)

/-- Set and queue are trimmed to the same keys. -/
theorem trimKeys_eq [DecidableEq α] (cap : ℕ) (queue : List α) (hnodup : queue.Nodup) :
    trimKeys cap queue.toFinset queue =
      ((trimFront cap queue).toFinset, trimFront cap queue) := by
  induction queue with
  | nil => rfl
  | cons x xs ih =>
    obtain ⟨hx, hxs⟩ := List.nodup_cons.mp hnodup
    have herase : (x :: xs).toFinset.erase x = xs.toFinset := by
      rw [List.toFinset_cons, Finset.erase_insert (by simpa using hx)]
    by_cases hcap : cap < (x :: xs).length
    · simp only [trimKeys, trimFront, hcap, if_true, herase]
      exact ih hxs
    · simp only [trimKeys, trimFront, hcap, if_false]

theorem rtake_append_singleton (queue : List α) (x : α) (cap : ℕ) :
    (queue.rtake cap ++ [x]).rtake cap = (queue ++ [x]).rtake cap := by
  have hdrop : queue.rtake cap ++ [x] = (queue ++ [x]).drop (queue.length - cap) :=
    (List.drop_append_of_le_length (Nat.sub_le queue.length cap)).symm
  rw [hdrop]
  simp only [List.rtake, List.length_drop, List.length_append, List.length_singleton,
    List.drop_drop]
  congr 1
  omega

theorem rtake_sublist (queue : List α) (cap : ℕ) : (queue.rtake cap).Sublist queue :=
  List.drop_sublist _ _

theorem length_rtake (queue : List α) (cap : ℕ) :
    (queue.rtake cap).length = min cap queue.length := by
  simp only [List.rtake, List.length_drop]
  omega

/-- A shorter window is the back of a longer one. -/
theorem rtake_rtake (queue : List α) {m n : ℕ} (h : m ≤ n) :
    (queue.rtake n).rtake m = queue.rtake m := by
  simp only [List.rtake, List.length_drop, List.drop_drop]
  congr 1
  omega

theorem map_rtake (f : α → β) (queue : List α) (cap : ℕ) :
    (queue.rtake cap).map f = (queue.map f).rtake cap := by
  simp [List.rtake]

/-- Filtering a window gives the back of the filtered queue's window. -/
theorem filterMap_rtake_suffix (f : α → Option β) (queue : List α) (cap : ℕ) :
    (queue.rtake cap).filterMap f <:+ (queue.filterMap f).rtake cap := by
  have hsplit : queue.filterMap f =
      (queue.take (queue.length - cap)).filterMap f ++ (queue.rtake cap).filterMap f := by
    rw [← List.filterMap_append, List.rtake, List.take_append_drop]
  have hlen : ((queue.rtake cap).filterMap f).length ≤ cap :=
    (List.length_filterMap_le _ _).trans (by rw [length_rtake]; omega)
  rw [hsplit]
  generalize (queue.take (queue.length - cap)).filterMap f = front
  generalize (queue.rtake cap).filterMap f = back at hlen
  refine ⟨front.drop ((front ++ back).length - cap), ?_⟩
  simp only [List.rtake]
  rw [List.drop_append_of_le_length]
  simp only [List.length_append]
  omega

/-- An element stays in the window while fewer than `cap` others are queued
behind it. -/
theorem mem_rtake_append (front back : List α) (x : α) (cap : ℕ) (h : back.length < cap) :
    x ∈ (front ++ x :: back).rtake cap := by
  have hstart : (front ++ x :: back).length - cap ≤ front.length := by
    simp only [List.length_append, List.length_cons]
    omega
  rw [List.rtake, List.drop_append_of_le_length hstart]
  simp

end Weverywhere.BoundedQueue
