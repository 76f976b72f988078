import Weverywhere.MessagesRead

/-!
What a host import does to the linear memory of a guest (`src/src/executor/mod.rs`):
`write_guest_bytes`, `read_guest_bytes` and the slicing of `host::print`. A pointer
arrives as a signed number. The first two take a negative one for zero; the third
extends its sign to 64 bits.
-/
namespace Weverywhere.GuestMemory

open ByteStrings

/-- A linear memory of at most 4 GiB. -/
structure LinearMemory where
  bytes : Bytes
  size_le : bytes.length ≤ 2 ^ 32

/-- The byte `src[i - start]` where it is copied to, and the old one elsewhere. -/
def LinearMemory.copyFromSlice (m : LinearMemory) (start : ℕ) (src : Bytes) : LinearMemory where
  bytes := m.bytes.mapIdx fun i b =>
    if start ≤ i ∧ i < start + src.length then src.getD (i - start) b else b
  size_le := by
    rw [List.length_mapIdx]
    exact m.size_le

/-- `data.get(start..stop)` -/
def LinearMemory.get (m : LinearMemory) (start stop : ℕ) : Option Bytes :=
  if start ≤ stop ∧ stop ≤ m.bytes.length then some ((m.bytes.drop start).take (stop - start))
  else none

/-- A sum of `usize`; in a release build it wraps around. -/
def addUsize (a b : ℕ) : ℕ := (a + b) % 2 ^ 64

/-- `x as usize` of an `i32` -/
def asUsize (x : Int32) : ℕ := x.toInt64.toUInt64.toNat

/-- What a call has done. A trap has no result and touches nothing. -/
structure Outcome (α : Type) where
  result : Option α
  start : ℕ
  stop : ℕ
  memory : LinearMemory
  overflowed : Bool

def readGuestBytes (m : LinearMemory) (ptr len : Int32) : Outcome Bytes :=
  let start := ptr.toNatClampNeg
  let n := len.toNatClampNeg
  match m.get start (addUsize start n) with
  | some data => ⟨some data, start, addUsize start n, m, decide (2 ^ 64 ≤ start + n)⟩
  | none => ⟨none, 0, 0, m, decide (2 ^ 64 ≤ start + n)⟩

def writeGuestBytes (m : LinearMemory) (ptr cap : Int32) (src : Bytes) : Outcome Int32 :=
  let n := min src.length cap.toNatClampNeg
  let start := ptr.toNatClampNeg
  match m.get start (addUsize start n) with
  | some _ => ⟨some (Int32.ofNat n), start, addUsize start n, m.copyFromSlice start (src.take n),
      decide (2 ^ 64 ≤ start + n)⟩
  | none => ⟨none, 0, 0, m, decide (2 ^ 64 ≤ start + n)⟩

/-- The slice that `host::print` hands to the forwarder. -/
def print (m : LinearMemory) (ptr len : Int32) : Outcome Bytes :=
  let start := asUsize ptr
  let stop := addUsize (asUsize ptr) (asUsize len)
  match m.get start stop with
  | some data => ⟨some data, start, stop, m, decide (2 ^ 64 ≤ asUsize ptr + asUsize len)⟩
  | none => ⟨none, 0, 0, m, decide (2 ^ 64 ≤ asUsize ptr + asUsize len)⟩

/-! What the guest asked for. -/

/-- A length with its top bit set is a large one, or a negative one that counts as
zero. -/
inductive LengthReading
  | unsigned
  | signed

def LengthReading.length : LengthReading → Int32 → ℕ
  | .unsigned, len => len.toUInt32.toNat
  | .signed, len => len.toNatClampNeg

/-- The offset that the guest means. -/
def offset (ptr : Int32) : ℕ := ptr.toUInt32.toNat

variable {α : Type}

/-- The bytes from `p` on, `n` of them, and no others. -/
def Touches (o : Outcome α) (p n : ℕ) : Prop :=
  ∀ i, o.start ≤ i ∧ i < o.stop ↔ p ≤ i ∧ i < p + n

/-- The call has trapped, or has read the range. -/
def ReadsExactly (m : LinearMemory) (o : Outcome Bytes) (p n : ℕ) : Prop :=
  o.overflowed = false ∧ o.memory = m ∧
    (o.result = none ∨ Touches o p n ∧ o.result = some ((m.bytes.drop p).take n))

/-- The call has trapped, or has written the front of `src` to the range. -/
def WritesExactly (m : LinearMemory) (src : Bytes) (o : Outcome Int32) (p n : ℕ) : Prop :=
  o.overflowed = false ∧
    (o.result = none ∧ o.memory = m ∨
      o.result = some (Int32.ofNat n) ∧ Touches o p n ∧
        ∀ i, o.memory.bytes[i]? = if p ≤ i ∧ i < p + n then src[i - p]? else m.bytes[i]?)

inductive HostCall
  | read (ptr len : Int32)
  | write (ptr cap : Int32) (src : Bytes)
  | print (ptr len : Int32)

/-- The call does to the guest's memory what the guest asked for, or traps. -/
def Exact (reading : LengthReading) (m : LinearMemory) : HostCall → Prop
  | .read ptr len => ReadsExactly m (readGuestBytes m ptr len) (offset ptr) (reading.length len)
  | .write ptr cap src => WritesExactly m src (writeGuestBytes m ptr cap src) (offset ptr)
      (min src.length (reading.length cap))
  | .print ptr len => ReadsExactly m (print m ptr len) (offset ptr) (reading.length len)

/-- A clamped range ends behind the memory; or its length is the one asked for and,
unless that is zero, the pointer is below 2^31. A sign-extended range does not wrap. -/
def Unambiguous (reading : LengthReading) (m : LinearMemory) : HostCall → Prop
  | .read ptr len => m.bytes.length < ptr.toNatClampNeg + len.toNatClampNeg ∨
      reading.length len = len.toNatClampNeg ∧ (0 ≤ ptr.toInt ∨ len.toNatClampNeg = 0)
  | .write ptr cap src => m.bytes.length < ptr.toNatClampNeg + min src.length cap.toNatClampNeg ∨
      min src.length (reading.length cap) = min src.length cap.toNatClampNeg ∧
        (0 ≤ ptr.toInt ∨ min src.length cap.toNatClampNeg = 0)
  | .print ptr len => 0 ≤ ptr.toInt ∧ 0 ≤ len.toInt ∨
      (0 ≤ ptr.toInt ∨ 0 ≤ len.toInt) ∧ ptr.toInt + len.toInt < 0

/-! Casts. -/

theorem toInt_bounds (x : Int32) : -2 ^ 31 ≤ x.toInt ∧ x.toInt < 2 ^ 31 :=
  ⟨Int32.le_toInt x, Int32.toInt_lt x⟩

theorem clamp_eq (x : Int32) : x.toNatClampNeg = x.toInt.toNat := rfl

theorem offset_eq (x : Int32) :
    offset x = if 0 ≤ x.toInt then x.toInt.toNat else (2 ^ 32 + x.toInt).toNat := by
  have hbits := x.toBitVec.isLt
  have hint : x.toInt = x.toBitVec.toInt := rfl
  have hnat : offset x = x.toBitVec.toNat := rfl
  rw [hint, hnat, BitVec.toInt_eq_toNat_cond]
  split_ifs <;> omega

theorem asUsize_eq (x : Int32) :
    asUsize x = if 0 ≤ x.toInt then x.toInt.toNat else (2 ^ 64 + x.toInt).toNat := by
  have hbits := x.toInt64.toBitVec.isLt
  have hint : x.toInt64.toBitVec.toInt = x.toInt := Int32.toInt_toInt64 x
  have hnat : asUsize x = x.toInt64.toBitVec.toNat := rfl
  rw [← hint, hnat, BitVec.toInt_eq_toNat_cond]
  split_ifs <;> omega

theorem length_of_nonneg (reading : LengthReading) {len : Int32} (h : 0 ≤ len.toInt) :
    reading.length len = len.toInt.toNat := by
  cases reading with
  | unsigned =>
    have hoffset := offset_eq len
    rw [if_pos h] at hoffset
    exact hoffset
  | signed => rfl

theorem addUsize_of_lt {a b : ℕ} (h : a + b < 2 ^ 64) : addUsize a b = a + b := Nat.mod_eq_of_lt h

/-! The three calls. -/

variable (m : LinearMemory)

theorem get_add {start n : ℕ} (h : start + n ≤ m.bytes.length) :
    m.get start (start + n) = some ((m.bytes.drop start).take n) := by
  rw [LinearMemory.get, if_pos ⟨Nat.le_add_right _ _, h⟩, Nat.add_sub_cancel_left]

theorem get_beyond {start stop : ℕ} (h : m.bytes.length < stop ∨ stop < start) :
    m.get start stop = none := by
  rw [LinearMemory.get, if_neg]
  omega

theorem getElem?_copyFromSlice (start : ℕ) (src : Bytes) (i : ℕ)
    (h : start + src.length ≤ m.bytes.length) :
    (m.copyFromSlice start src).bytes[i]? =
      if start ≤ i ∧ i < start + src.length then src[i - start]? else m.bytes[i]? := by
  rw [LinearMemory.copyFromSlice, List.getElem?_mapIdx]
  split_ifs with hinside
  · have hi : i < m.bytes.length := by omega
    have hsrc : i - start < src.length := by omega
    simp [hi, hsrc]
  · simp

/-- Two ranges of one length hold the same bytes only if they start together. -/
theorem touches_iff {o : Outcome α} {start k p n : ℕ} (hstart : o.start = start)
    (hstop : o.stop = start + k) : Touches o p n ↔ k = n ∧ (start = p ∨ k = 0) := by
  rw [Touches, hstart, hstop]
  constructor
  · intro h
    have hfirst := h start
    have hfirst' := h p
    have hlast := h (start + k - 1)
    have hlast' := h (p + n - 1)
    omega
  · rintro ⟨rfl, hsame⟩ i
    omega

theorem clamped_sum_lt {ptr x : Int32} {n : ℕ} (hn : n ≤ x.toNatClampNeg) :
    ptr.toNatClampNeg + n < 2 ^ 64 := by
  have hptr := toInt_bounds ptr
  have hx := toInt_bounds x
  rw [clamp_eq] at hn ⊢
  omega

theorem offset_eq_clamp_iff (ptr : Int32) : ptr.toNatClampNeg = offset ptr ↔ 0 ≤ ptr.toInt := by
  have hbounds := toInt_bounds ptr
  rw [clamp_eq, offset_eq]
  split_ifs with h <;> omega

theorem readGuestBytes_exact_iff (ptr len : Int32) (n : ℕ) :
    ReadsExactly m (readGuestBytes m ptr len) (offset ptr) n ↔
      m.bytes.length < ptr.toNatClampNeg + len.toNatClampNeg ∨
        n = len.toNatClampNeg ∧ (0 ≤ ptr.toInt ∨ len.toNatClampNeg = 0) := by
  have hsum : ptr.toNatClampNeg + len.toNatClampNeg < 2 ^ 64 := clamped_sum_lt (le_refl _)
  have hover : decide (2 ^ 64 ≤ ptr.toNatClampNeg + len.toNatClampNeg) = false :=
    decide_eq_false (by omega)
  rw [← offset_eq_clamp_iff]
  by_cases hfits : ptr.toNatClampNeg + len.toNatClampNeg ≤ m.bytes.length
  · rw [readGuestBytes]
    simp only [addUsize_of_lt hsum, get_add m hfits, hover]
    rw [ReadsExactly, touches_iff rfl rfl]
    constructor
    · rintro ⟨-, -, hnone | ⟨⟨rfl, hstart⟩, -⟩⟩
      · cases hnone
      · exact .inr ⟨rfl, hstart⟩
    · rintro (hbeyond | ⟨rfl, hstart⟩)
      · omega
      · refine ⟨rfl, rfl, .inr ⟨⟨rfl, hstart⟩, ?_⟩⟩
        rcases hstart with hstart | hzero
        · rw [hstart]
        · rw [hzero, List.take_zero, List.take_zero]
  · rw [readGuestBytes]
    simp only [addUsize_of_lt hsum, get_beyond m (.inl (not_le.mp hfits)), hover]
    exact iff_of_true ⟨rfl, rfl, .inl rfl⟩ (.inl (not_le.mp hfits))

theorem length_copied (cap : Int32) (src : Bytes) :
    (src.take (min src.length cap.toNatClampNeg)).length = min src.length cap.toNatClampNeg := by
  rw [List.length_take]
  omega

theorem writeGuestBytes_exact_iff (ptr cap : Int32) (src : Bytes) (n : ℕ)
    (hn : n ≤ src.length) :
    WritesExactly m src (writeGuestBytes m ptr cap src) (offset ptr) n ↔
      m.bytes.length < ptr.toNatClampNeg + min src.length cap.toNatClampNeg ∨
        n = min src.length cap.toNatClampNeg ∧
          (0 ≤ ptr.toInt ∨ min src.length cap.toNatClampNeg = 0) := by
  have hsum : ptr.toNatClampNeg + min src.length cap.toNatClampNeg < 2 ^ 64 :=
    clamped_sum_lt (Nat.min_le_right _ _)
  have hover : decide (2 ^ 64 ≤ ptr.toNatClampNeg + min src.length cap.toNatClampNeg) = false :=
    decide_eq_false (by omega)
  rw [← offset_eq_clamp_iff]
  by_cases hfits : ptr.toNatClampNeg + min src.length cap.toNatClampNeg ≤ m.bytes.length
  · have htaken := length_copied cap src
    rw [writeGuestBytes]
    simp only [addUsize_of_lt hsum, get_add m hfits, hover]
    rw [WritesExactly, touches_iff rfl rfl]
    constructor
    · rintro ⟨-, ⟨hnone, -⟩ | ⟨-, ⟨rfl, hstart⟩, -⟩⟩
      · cases hnone
      · exact .inr ⟨rfl, hstart⟩
    · rintro (hbeyond | ⟨rfl, hstart⟩)
      · omega
      · refine ⟨rfl, .inr ⟨rfl, ⟨rfl, hstart⟩, fun i => ?_⟩⟩
        rw [getElem?_copyFromSlice m _ _ i (by rw [htaken]; exact hfits), htaken]
        rcases hstart with hstart | hzero
        · rw [← hstart]
          split_ifs with hinside
          · rw [List.getElem?_take_of_lt (by omega)]
          · rfl
        · rw [if_neg (by omega), if_neg (by omega)]
  · rw [writeGuestBytes]
    simp only [addUsize_of_lt hsum, get_beyond m (.inl (not_le.mp hfits)), hover]
    exact iff_of_true ⟨rfl, .inl ⟨rfl, rfl⟩⟩ (.inl (not_le.mp hfits))

theorem print_exact_iff (reading : LengthReading) (ptr len : Int32) :
    ReadsExactly m (print m ptr len) (offset ptr) (reading.length len) ↔
      0 ≤ ptr.toInt ∧ 0 ≤ len.toInt ∨
        (0 ≤ ptr.toInt ∨ 0 ≤ len.toInt) ∧ ptr.toInt + len.toInt < 0 := by
  have hptr := toInt_bounds ptr
  have hlen := toInt_bounds len
  have hsize := m.size_le
  have hstart := asUsize_eq ptr
  have hcount := asUsize_eq len
  by_cases hboth : 0 ≤ ptr.toInt ∧ 0 ≤ len.toInt
  · rw [if_pos hboth.1] at hstart
    rw [if_pos hboth.2] at hcount
    have hoffset := offset_eq ptr
    rw [if_pos hboth.1] at hoffset
    have hover : decide (2 ^ 64 ≤ ptr.toInt.toNat + len.toInt.toNat) = false :=
      decide_eq_false (by omega)
    rw [length_of_nonneg reading hboth.2, print, hstart, hcount, hoffset]
    apply iff_of_true _ (.inl hboth)
    simp only [addUsize_of_lt (show ptr.toInt.toNat + len.toInt.toNat < 2 ^ 64 by omega), hover]
    by_cases hfits : ptr.toInt.toNat + len.toInt.toNat ≤ m.bytes.length
    · rw [get_add m hfits]
      exact ⟨rfl, rfl, .inr ⟨(touches_iff rfl rfl).mpr ⟨rfl, .inl rfl⟩, rfl⟩⟩
    · rw [get_beyond m (.inl (not_le.mp hfits))]
      exact ⟨rfl, rfl, .inl rfl⟩
  · -- the range starts or ends far behind the memory, or runs backwards
    have hnone : m.get (asUsize ptr) (addUsize (asUsize ptr) (asUsize len)) = none := by
      apply get_beyond
      rw [addUsize, hstart, hcount]
      split_ifs <;> omega
    have hover : 2 ^ 64 ≤ asUsize ptr + asUsize len ↔
        ¬ ((0 ≤ ptr.toInt ∨ 0 ≤ len.toInt) ∧ ptr.toInt + len.toInt < 0) := by
      rw [hstart, hcount]
      split_ifs <;> omega
    rw [print]
    simp only [hnone]
    rw [ReadsExactly]
    simp only [hover, hboth, false_or, true_or, and_true, decide_eq_false_iff_not, not_not]

/-- For every call, pointer, length, source and memory, under either reading of a
length: the import keeps to the range that it was given exactly when the casts have
not changed it. -/
theorem exact_iff_unambiguous (reading : LengthReading) (c : HostCall) :
    Exact reading m c ↔ Unambiguous reading m c := by
  cases c with
  | read ptr len => exact readGuestBytes_exact_iff m ptr len _
  | write ptr cap src => exact writeGuestBytes_exact_iff m ptr cap src _ (Nat.min_le_left _ _)
  | print ptr len => exact print_exact_iff m reading ptr len

/-- One page. -/
def page : LinearMemory where
  bytes := List.replicate 65536 0
  size_le := by rw [List.length_replicate]; omega

/-- A write to the last byte of the address space goes to address zero. -/
theorem lastByte_written_at_zero :
    ¬ Exact .unsigned page (.write (-1) 1 [0x41]) ∧
      (writeGuestBytes page (-1) 1 [0x41]).memory.bytes[0]? = some 0x41 := by
  have hclamp : (-1 : Int32).toNatClampNeg = 0 := by decide
  have hsize : page.bytes.length = 65536 := List.length_replicate
  have hone : min [(0x41 : UInt8)].length (1 : Int32).toNatClampNeg = 1 := by decide
  constructor
  · intro h
    rw [Exact, writeGuestBytes_exact_iff page _ _ _ _ (Nat.min_le_left _ _), hclamp, hsize,
      hone] at h
    rcases h with hbeyond | ⟨-, hptr | hzero⟩
    · omega
    · exact absurd hptr (by decide)
    · omega
  · rw [writeGuestBytes, hclamp, hone]
    simp only [addUsize_of_lt (show 0 + 1 < 2 ^ 64 by omega),
      get_add page (show 0 + 1 ≤ page.bytes.length by omega)]
    rw [getElem?_copyFromSlice page _ _ _ (by rw [hsize]; decide)]
    rfl

end Weverywhere.GuestMemory
