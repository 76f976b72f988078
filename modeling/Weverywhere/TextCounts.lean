import Weverywhere.ByteStrings

/-!
Counting the visible ASCII characters of a text in its UTF-8 bytes, where every other
character counts nothing, and finding what stands behind a marker in a text.
-/
namespace Weverywhere.TextCounts

open ByteStrings

def visible (b : UInt8) : Bool := 0 < b && b < 0x80

/-- What is counted is visible ASCII. -/
def Counted (p : UInt8 → Bool) : Prop := ∀ b, p b = true → visible b = true

theorem counted_visible : Counted visible := fun _ h => h

/-- The count of bytes as a count of characters. -/
def onChar (p : UInt8 → Bool) (c : Char) : Bool := c.toNat < 0x80 && p (UInt8.ofNat c.toNat)

theorem utf8EncodeChar_of_lt {c : Char} (h : c.toNat < 0x80) :
    String.utf8EncodeChar c = [UInt8.ofNat c.toNat] := by
  have hle : c.val.toNat ≤ 0x7f := Nat.le_of_lt_succ h
  simp only [String.utf8EncodeChar, hle, if_true]
  rfl

theorem not_visible_ofNat {n : ℕ} (hlow : 0x80 ≤ n) (hhigh : n < 256) :
    visible (UInt8.ofNat n) = false := by
  have hn : (UInt8.ofNat n).toNat = n := UInt8.toNat_ofNat_of_lt hhigh
  have hnot : ¬ UInt8.ofNat n < 0x80 := by
    rw [UInt8.lt_iff_toNat_lt, hn]
    exact Nat.not_lt.mpr hlow
  rw [visible, decide_eq_false hnot, Bool.and_false]

/-- A character beyond ASCII has nothing visible in it. -/
theorem countP_utf8EncodeChar {p : UInt8 → Bool} (hp : Counted p) {c : Char}
    (h : 0x80 ≤ c.toNat) : (String.utf8EncodeChar c).countP p = 0 := by
  have hv : 0x80 ≤ c.val.toNat := h
  have hlt : c.val.toNat < 0x110000 := by
    have := c.valid
    simp only [UInt32.isValidChar, Nat.isValidChar] at this
    omega
  rw [List.countP_eq_zero]
  intro b hb hcounted
  have hvisible := hp b hcounted
  simp only [String.utf8EncodeChar] at hb
  split_ifs at hb
  · omega
  all_goals
    simp only [List.mem_cons, List.not_mem_nil, or_false] at hb
    rcases hb with rfl | rfl | rfl | rfl <;>
      rw [not_visible_ofNat (by omega) (by omega)] at hvisible <;> cases hvisible

theorem countP_char {p : UInt8 → Bool} (hp : Counted p) (c : Char) :
    (String.utf8EncodeChar c).countP p = if onChar p c then 1 else 0 := by
  by_cases h : c.toNat < 0x80
  · rw [utf8EncodeChar_of_lt h, List.countP_singleton, onChar, decide_eq_true h, Bool.true_and]
  · rw [countP_utf8EncodeChar hp (Nat.not_lt.mp h), onChar, decide_eq_false h, Bool.false_and]
    rfl

theorem countP_char_le {p : UInt8 → Bool} (hp : Counted p) (c : Char) :
    (String.utf8EncodeChar c).countP p ≤ 1 := by
  rw [countP_char hp]
  split_ifs <;> omega

theorem countP_utf8 {p : UInt8 → Bool} (hp : Counted p) (chars : List Char) :
    (utf8 (String.ofList chars)).countP p = chars.countP (onChar p) := by
  rw [utf8_ofList]
  induction chars with
  | nil => rfl
  | cons c chars ih =>
    rw [List.flatMap_cons, List.countP_append, ih, countP_char hp, List.countP_cons, Nat.add_comm]

/-! Markers. -/

variable {α : Type} [DecidableEq α]

/-- What stands behind the first occurrence of a marker. -/
def afterFirst (marker : List α) : List α → Option (List α)
  | [] => none
  | a :: rest =>
    if marker <+: a :: rest then some ((a :: rest).drop marker.length)
    else afterFirst marker rest

theorem length_le_of_afterFirst {marker text rest : List α}
    (h : afterFirst marker text = some rest) : marker.length ≤ text.length := by
  induction text with
  | nil => cases h
  | cons a text ih =>
    unfold afterFirst at h
    split_ifs at h with hmarker
    · exact hmarker.length_le
    · exact Nat.le_succ_of_le (ih h)

/-- A text that ends in the first occurrence of a marker may go on. -/
theorem afterFirst_append {marker text : List α} (h : afterFirst marker text = some [])
    (rest : List α) : afterFirst marker (text ++ rest) = some rest := by
  induction text with
  | nil => cases h
  | cons a text ih =>
    have hlength := length_le_of_afterFirst h
    unfold afterFirst at h
    rw [List.cons_append, afterFirst, ← List.cons_append]
    split_ifs at h with hmarker
    · obtain ⟨after, hafter⟩ := hmarker
      rw [← hafter, List.drop_left] at h
      cases h
      rw [List.append_nil] at hafter
      rw [if_pos (hafter ▸ List.prefix_append _ _), ← hafter, List.drop_left]
    · have hmore : ¬ marker <+: a :: text ++ rest := fun hmore =>
        hmarker (List.prefix_of_prefix_length_le hmore (List.prefix_append _ _) hlength)
      rw [if_neg hmore]
      exact ih h

end Weverywhere.TextCounts
