import Mathlib.Algebra.Ring.Nat
import Mathlib.Data.List.Basic
import Mathlib.Logic.Function.Basic

/-!
Byte strings and the fixed-width and textual encodings that are concatenated
into them. A concatenation of a fixed-width part with anything determines both
halves; a concatenation of two variable-width parts does not, and nothing in
this module pretends otherwise.
-/
namespace Weverywhere.ByteStrings

abbrev Bytes := List UInt8

/-- The `width` low bytes of `value`, least significant first. -/
def leBytes : ℕ → ℕ → Bytes
  | 0, _ => []
  | width + 1, value => UInt8.ofNat value :: leBytes width (value / 256)

@[simp] theorem leBytes_length (width value : ℕ) : (leBytes width value).length = width := by
  induction width generalizing value with
  | zero => rfl
  | succ width ih => simp [leBytes, ih]

/-- Little-endian bytes determine every value that fits their width. -/
theorem leBytes_injective (width : ℕ) {a b : ℕ} (ha : a < 256 ^ width) (hb : b < 256 ^ width)
    (h : leBytes width a = leBytes width b) : a = b := by
  induction width generalizing a b with
  | zero =>
    simp only [Nat.pow_zero, Nat.lt_one_iff] at ha hb
    rw [ha, hb]
  | succ width ih =>
    simp only [leBytes, List.cons.injEq] at h
    obtain ⟨hlow, hhigh⟩ := h
    have hmod : a % 256 = b % 256 := by
      simpa [UInt8.ofNat, BitVec.ofNat, UInt8.toNat_ofNat] using congrArg UInt8.toNat hlow
    have hdiv : a / 256 = b / 256 := by
      apply ih _ _ hhigh
      · rw [Nat.pow_succ] at ha
        exact Nat.div_lt_of_lt_mul (by rwa [Nat.mul_comm] at ha)
      · rw [Nat.pow_succ] at hb
        exact Nat.div_lt_of_lt_mul (by rwa [Nat.mul_comm] at hb)
    omega

/-- `u64::to_le_bytes`. -/
def u64LE (value : UInt64) : Bytes := leBytes 8 value.toNat

/-- `u16::to_le_bytes`. -/
def u16LE (value : UInt16) : Bytes := leBytes 2 value.toNat

@[simp] theorem u64LE_length (value : UInt64) : (u64LE value).length = 8 := leBytes_length 8 _

theorem u64LE_injective : Function.Injective u64LE := by
  intro a b h
  apply UInt64.toNat_inj.mp
  exact leBytes_injective 8 (by simpa using a.toNat_lt) (by simpa using b.toNat_lt) h

/-- The bytes of a string; every `String` is valid UTF-8 by construction. -/
def utf8 (s : String) : Bytes := s.toByteArray.data.toList

theorem utf8_injective : Function.Injective utf8 := by
  intro s t h
  apply String.toByteArray_inj.mp
  exact ByteArray.ext (Array.toList_inj.mp h)

theorem utf8_ofList (chars : List Char) :
    utf8 (String.ofList chars) = chars.flatMap String.utf8EncodeChar := by
  simp [utf8, List.utf8Encode]

theorem utf8_append (a b : String) : utf8 (a ++ b) = utf8 a ++ utf8 b := by
  simp [utf8]

/-- Two lowercase hexadecimal digits. -/
def hexDigits (b : UInt8) : List Char :=
  [Nat.digitChar (b.toNat / 16), Nat.digitChar (b.toNat % 16)]

/-- Lowercase hexadecimal of a byte string. -/
def hex (bytes : Bytes) : String := String.ofList (bytes.flatMap hexDigits)

theorem digitChar_injective {m n : ℕ} (hm : m < 16) (hn : n < 16)
    (h : Nat.digitChar m = Nat.digitChar n) : m = n := by
  have hall : ∀ i < 16, ∀ j < 16, Nat.digitChar i = Nat.digitChar j → i = j := by decide
  exact hall m hm n hn h

theorem hexDigits_injective : Function.Injective hexDigits := by
  intro a b h
  simp only [hexDigits, List.cons.injEq, and_true] at h
  have ha := a.toNat_lt
  have hb := b.toNat_lt
  have hhigh := digitChar_injective (by omega) (by omega) h.1
  have hlow := digitChar_injective (by omega) (by omega) h.2
  apply UInt8.toNat_inj.mp
  omega

theorem hex_injective : Function.Injective hex := by
  intro a b h
  have hchars : a.flatMap hexDigits = b.flatMap hexDigits := String.ofList_injective h
  clear h
  induction a generalizing b with
  | nil =>
    cases b with
    | nil => rfl
    | cons y ys => simp [hexDigits] at hchars
  | cons x xs ih =>
    cases b with
    | nil => simp [hexDigits] at hchars
    | cons y ys =>
      simp only [List.flatMap_cons] at hchars
      obtain ⟨hhead, htail⟩ := List.append_inj hchars (by simp [hexDigits])
      rw [hexDigits_injective hhead, ih htail]

/-- The first four bytes of a key in hexadecimal, or all there are. -/
def shortId (pubkey : Bytes) : String := hex (pubkey.take (min pubkey.length 4))

end Weverywhere.ByteStrings
