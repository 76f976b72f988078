import Mathlib.Data.List.Basic

/-!
A buffer of fixed capacity that is filled from the front and silently drops what
no longer fits. Filling it with a list keeps the longest prefix that fits, so
several writes are one write of their concatenation.
-/
namespace Weverywhere.BoundedBuffer

/-- What has been written, never more than the capacity. -/
structure Buffer (α : Type) (capacity : ℕ) where
  items : List α
  fits : items.length ≤ capacity

namespace Buffer

variable {α : Type} {capacity : ℕ}

@[ext] theorem ext {b b' : Buffer α capacity} (h : b.items = b'.items) : b = b' := by
  cases b
  cases b'
  congr

def empty : Buffer α capacity := ⟨[], Nat.zero_le _⟩

theorem fits_append {b : Buffer α capacity} (h : b.items.length < capacity) (x : α) :
    (b.items ++ [x]).length ≤ capacity := by
  rw [List.length_append, List.length_singleton]
  exact h

def push (b : Buffer α capacity) (x : α) : Buffer α capacity :=
  if h : b.items.length < capacity then ⟨b.items ++ [x], fits_append h x⟩ else b

def pushAll (b : Buffer α capacity) (xs : List α) : Buffer α capacity := xs.foldl push b

/-- The same loop, left as soon as the buffer is full. -/
def pushWhileRoom (b : Buffer α capacity) : List α → Buffer α capacity
  | [] => b
  | x :: xs => if b.items.length < capacity then (b.push x).pushWhileRoom xs else b

theorem fits_dropLast (b : Buffer α capacity) : b.items.dropLast.length ≤ capacity := by
  have hfits := b.fits
  rw [List.length_dropLast]
  omega

/-- Without what was written last. -/
def pop (b : Buffer α capacity) : Buffer α capacity := ⟨b.items.dropLast, fits_dropLast b⟩

@[simp] theorem items_pop (b : Buffer α capacity) : b.pop.items = b.items.dropLast := rfl

@[simp] theorem items_empty : (empty : Buffer α capacity).items = [] := rfl

@[simp] theorem pushAll_nil (b : Buffer α capacity) : b.pushAll [] = b := rfl

@[simp] theorem pushAll_cons (b : Buffer α capacity) (x : α) (xs : List α) :
    b.pushAll (x :: xs) = (b.push x).pushAll xs := rfl

theorem pushAll_append (b : Buffer α capacity) (xs ys : List α) :
    (b.pushAll xs).pushAll ys = b.pushAll (xs ++ ys) := by
  unfold pushAll
  rw [List.foldl_append]

theorem push_of_full {b : Buffer α capacity} (hfull : ¬ b.items.length < capacity) (x : α) :
    b.push x = b := by
  rw [push, dif_neg hfull]

theorem pushAll_of_full {b : Buffer α capacity} (hfull : ¬ b.items.length < capacity)
    (xs : List α) : b.pushAll xs = b := by
  induction xs with
  | nil => rfl
  | cons x xs ih => rw [pushAll_cons, push_of_full hfull, ih]

theorem items_push {b : Buffer α capacity} (hroom : b.items.length < capacity) (x : α) :
    (b.push x).items = b.items ++ [x] := by
  rw [push, dif_pos hroom]

/-- The loop keeps the longest prefix that fits. -/
theorem items_pushAll (b : Buffer α capacity) (xs : List α) :
    (b.pushAll xs).items = (b.items ++ xs).take capacity := by
  induction xs generalizing b with
  | nil => rw [List.append_nil, List.take_of_length_le b.fits, pushAll_nil]
  | cons x xs ih =>
    by_cases hroom : b.items.length < capacity
    · rw [pushAll_cons, ih, items_push hroom, List.append_assoc, List.singleton_append]
    · have hlength : b.items.length = capacity := by
        have hfits := b.fits
        omega
      rw [pushAll_of_full hroom, List.take_append_of_le_length (by omega),
        List.take_of_length_le b.fits]

theorem items_pushAll_of_fits {b : Buffer α capacity} {xs : List α}
    (h : b.items.length + xs.length ≤ capacity) : (b.pushAll xs).items = b.items ++ xs := by
  rw [items_pushAll, List.take_of_length_le]
  rw [List.length_append]
  exact h

/-- Leaving the loop early changes nothing. -/
theorem pushWhileRoom_eq (b : Buffer α capacity) (xs : List α) :
    b.pushWhileRoom xs = b.pushAll xs := by
  induction xs generalizing b with
  | nil => rfl
  | cons x xs ih =>
    rw [pushWhileRoom]
    split_ifs with hroom
    · rw [ih, pushAll_cons]
    · rw [pushAll_of_full hroom]

end Buffer

end Weverywhere.BoundedBuffer
