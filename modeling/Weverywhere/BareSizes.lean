import Weverywhere.Bare

/-!
Sizes of encodings. The lengths a format holds are those of what is written, so a value
whose encoding has fewer than 2^64 bytes fits, and a list has no more elements than its
encoding has bytes.
-/
namespace Weverywhere.Bare.Codec

open ByteStrings

variable {α β : Type}

/-- Nothing but the size of its encoding keeps a value from being written. -/
def Bounded (codec : Codec α) : Prop := ∀ x, (codec.write x).length < 2 ^ 64 → codec.Fits x

/-- Every value takes up some space. -/
def Wide (codec : Codec α) : Prop := ∀ x, 0 < (codec.write x).length

theorem uvarint_pos (n : ℕ) : 0 < (uvarint n).length := by
  rw [uvarint, uvarintGroups]
  split_ifs <;> simp

theorem bounded_fixed (count : ℕ) : Bounded (fixed count) := fun _ _ => trivial

theorem bounded_little (width : ℕ) (toNat : α → ℕ) (ofNat : ℕ → α)
    (hofNat : ∀ x, ofNat (toNat x) = x) (hlt : ∀ x, toNat x < 256 ^ width) :
    Bounded (little width toNat ofNat hofNat hlt) := fun _ _ => trivial

theorem bytes_length (b : Bytes) : b.length < (bytes.write b).length := by
  have hlength := uvarint_pos b.length
  rw [bytes, List.length_append]
  omega

theorem bounded_bytes : Bounded bytes := fun b h => Nat.lt_trans (bytes_length b) h

theorem wide_bytes : Wide bytes := fun b => Nat.lt_of_le_of_lt (Nat.zero_le _) (bytes_length b)

theorem bounded_string : Bounded string := fun s h => bounded_bytes (utf8 s) h

theorem wide_string : Wide string := fun s => wide_bytes (utf8 s)

theorem Bounded.pair {first : Codec α} {second : Codec β} (hfirst : Bounded first)
    (hsecond : Bounded second) : Bounded (pair first second) := by
  intro xy h
  rw [Codec.pair, List.length_append] at h
  exact ⟨hfirst xy.1 (by omega), hsecond xy.2 (by omega)⟩

theorem Wide.pair {first : Codec α} (h : Wide first) (second : Codec β) :
    Wide (pair first second) := by
  intro xy
  have hx := h xy.1
  rw [Codec.pair, List.length_append]
  omega

theorem length_flatMap_le {element : Codec α} (h : Wide element) (xs : List α) :
    xs.length ≤ (xs.flatMap element.write).length := by
  induction xs with
  | nil => exact Nat.le_refl _
  | cons x xs ih =>
    have hx := h x
    rw [List.length_cons, List.flatMap_cons, List.length_append]
    omega

theorem length_le_list {element : Codec α} (h : Wide element) (xs : List α) :
    xs.length ≤ ((list element).write xs).length := by
  have hxs := length_flatMap_le h xs
  rw [list, List.length_append]
  omega

theorem Bounded.list {element : Codec α} (h : Bounded element) (hwide : Wide element) :
    Bounded (list element) := by
  intro xs hxs
  have hlength := length_le_list hwide xs
  refine ⟨by omega, ?_⟩
  intro x hx
  apply h x
  have hpart : (element.write x).length ≤ (xs.flatMap element.write).length := by
    obtain ⟨front, back, rfl⟩ := List.append_of_mem hx
    rw [List.flatMap_append, List.flatMap_cons, List.length_append, List.length_append]
    omega
  rw [Codec.list, List.length_append] at hxs
  omega

theorem Bounded.record {fields : Codec α} (h : Bounded fields) {make : α → β} {split : β → α}
    (hmake : ∀ y, make (split y) = y) : Bounded (record fields make split hmake) :=
  fun y => h (split y)

end Weverywhere.Bare.Codec
