import Mathlib.Order.Lattice.Nat
import Mathlib.Tactic.ByContra

/-!
How many leading bits two words share: the leading zeros of their exclusive or. Two words
share their first `p` bits exactly when there are at least that many, or all of them.
-/
namespace Weverywhere.SharedBits

variable {w : ℕ}

def sharedBits (a b : BitVec w) : ℕ := (a ^^^ b).clz.toNat

/-- Bits past the width count as shared. -/
def SharesBits (p : ℕ) (a b : BitVec w) : Prop := ∀ i < p, a.getMsbD i = b.getMsbD i

theorem clz_toNat_le (x : BitVec w) : x.clz.toNat ≤ w := by
  have hle := BitVec.le_def.mp (BitVec.clz_le (x := x))
  rw [BitVec.natCast_eq_ofNat, BitVec.toNat_ofNat] at hle
  exact hle.trans (Nat.mod_le _ _)

theorem getMsbD_of_lt_clz {x : BitVec w} {i : ℕ} (h : i < x.clz.toNat) : x.getMsbD i = false := by
  have hle := clz_toNat_le x
  have hlt := BitVec.toNat_lt_two_pow_sub_clz (x := x)
  rw [BitVec.getMsbD_eq_getLsbD, BitVec.getLsbD]
  have hbit : x.toNat.testBit (w - 1 - i) = false := by
    apply Nat.testBit_lt_two_pow
    exact hlt.trans_le (Nat.pow_le_pow_right (by omega) (by omega))
  rw [hbit, Bool.and_false]

theorem getMsbD_clz {x : BitVec w} (hx : x.clz.toNat < w) : x.getMsbD x.clz.toNat = true := by
  have hne : x ≠ 0#w := by
    intro hzero
    have hall : x.clz = w := BitVec.clz_eq_iff_eq_zero.mpr hzero
    rw [hall, BitVec.natCast_eq_ofNat, BitVec.toNat_ofNat, Nat.mod_eq_of_lt Nat.lt_two_pow_self]
      at hx
    exact absurd hx (Nat.lt_irrefl w)
  rw [BitVec.getMsbD_eq_getLsbD, BitVec.getLsbD_true_clz_of_ne_zero (by omega) hne,
    decide_eq_true hx, Bool.true_and]

theorem sharedBits_le (a b : BitVec w) : sharedBits a b ≤ w := clz_toNat_le _

/-- The first bit in which they differ. -/
theorem sharesBits_iff {p : ℕ} {a b : BitVec w} :
    SharesBits p a b ↔ min p w ≤ sharedBits a b := by
  have hxor : ∀ i, (a ^^^ b).getMsbD i = false ↔ a.getMsbD i = b.getMsbD i := by
    intro i
    simp
  constructor
  · intro h
    by_contra hlt
    rw [sharedBits, Nat.not_le, Nat.lt_min] at hlt
    have hdiffer := getMsbD_clz hlt.2
    rw [(hxor _).mpr (h _ hlt.1)] at hdiffer
    cases hdiffer
  · intro h i hi
    by_cases hw : i < w
    · exact (hxor i).mp (getMsbD_of_lt_clz (Nat.lt_of_lt_of_le (by omega) h))
    · rw [BitVec.getMsbD_of_ge _ _ (Nat.le_of_not_lt hw),
        BitVec.getMsbD_of_ge _ _ (Nat.le_of_not_lt hw)]

/-- More shared bits are more shared prefixes, and nothing else is. -/
theorem sharedBits_le_iff {a b peer : BitVec w} :
    sharedBits b peer ≤ sharedBits a peer ↔
      ∀ p, SharesBits p b peer → SharesBits p a peer := by
  constructor
  · intro h p hb
    rw [sharesBits_iff] at hb ⊢
    exact hb.trans h
  · intro h
    have hb : SharesBits (sharedBits b peer) b peer := sharesBits_iff.mpr (Nat.min_le_left _ _)
    have ha := sharesBits_iff.mp (h _ hb)
    rwa [Nat.min_eq_left (sharedBits_le b peer)] at ha

end Weverywhere.SharedBits
