import Weverywhere.Cbor
import Mathlib.Algebra.Ring.Nat

/-!
Binary application record encoding: fixed-width little-endian integers, lengths
and variant tags as groups of seven bits, lists as a length and their elements,
records as their fields one after the other. Nothing marks where a field starts
or whether it is there. A codec carries the proof that its reader undoes its
writer on the values that fit and refuses the others.
-/
namespace Weverywhere.Bare

open ByteStrings Cbor

/-- Groups of seven bits, the lowest first; `groups` bounds their number. -/
def uvarintGroups : ℕ → ℕ → Bytes
  | 0, _ => []
  | groups + 1, n =>
    if n < 128 then [UInt8.ofNat n]
    else UInt8.ofNat (n % 128 + 128) :: uvarintGroups groups (n / 128)

def uvarint (n : ℕ) : Bytes := uvarintGroups (n + 1) n

/-- A number of at most `groups` groups at the front of `bytes`. -/
def readUvarint : ℕ → Bytes → Option (ℕ × Bytes)
  | 0, _ => none
  | _ + 1, [] => none
  | groups + 1, b :: rest =>
    if b.toNat < 128 then some (b.toNat, rest)
    else do
      let (n, rest) ← readUvarint groups rest
      some (b.toNat - 128 + 128 * n, rest)

/-- Ten groups hold every 64-bit number; larger ones are an overflow. -/
def readUint (bytes : Bytes) : Option (ℕ × Bytes) := do
  let (n, rest) ← readUvarint 10 bytes
  if n < 2 ^ 64 then some (n, rest) else none

theorem readUvarint_uvarintGroups (groups fuel n : ℕ) (hfuel : n < fuel) (rest : Bytes) :
    readUvarint (groups + 1) (uvarintGroups fuel n ++ rest) =
      if n < 128 ^ (groups + 1) then some (n, rest) else none := by
  induction groups generalizing fuel n with
  | zero =>
    obtain ⟨fuel, rfl⟩ : ∃ k, fuel = k + 1 := ⟨fuel - 1, by omega⟩
    by_cases hn : n < 128
    · have hbyte : (UInt8.ofNat n).toNat = n := by
        rw [UInt8.toNat_ofNat']
        omega
      simp only [uvarintGroups, hn, if_true, List.cons_append, List.nil_append, readUvarint, hbyte,
        Nat.zero_add, Nat.pow_one]
    · have hbyte : (UInt8.ofNat (n % 128 + 128)).toNat = n % 128 + 128 := by
        rw [UInt8.toNat_ofNat']
        omega
      have hmore : ¬ n % 128 + 128 < 128 := by omega
      simp only [uvarintGroups, hn, if_false, List.cons_append, readUvarint, hbyte, hmore,
        Option.bind_eq_bind, Option.bind_none, Nat.zero_add, Nat.pow_one]
  | succ groups ih =>
    obtain ⟨fuel, rfl⟩ : ∃ k, fuel = k + 1 := ⟨fuel - 1, by omega⟩
    have hpow : 128 ^ (groups + 1 + 1) = 128 ^ (groups + 1) * 128 := Nat.pow_succ _ _
    have hpos : 0 < 128 ^ (groups + 1) := Nat.pow_pos (by omega)
    by_cases hn : n < 128
    · have hbyte : (UInt8.ofNat n).toNat = n := by
        rw [UInt8.toNat_ofNat']
        omega
      have hfits : n < 128 ^ (groups + 1 + 1) := by omega
      simp only [uvarintGroups, hn, if_true, List.cons_append, List.nil_append, readUvarint, hbyte,
        hfits]
    · have hbyte : (UInt8.ofNat (n % 128 + 128)).toNat = n % 128 + 128 := by
        rw [UInt8.toNat_ofNat']
        omega
      have hmore : ¬ n % 128 + 128 < 128 := by omega
      have hnext := ih fuel (n / 128) (by omega)
      simp only [uvarintGroups, hn, if_false, List.cons_append, readUvarint, hbyte, hmore]
      rw [hnext]
      by_cases hfits : n < 128 ^ (groups + 1 + 1)
      · have hdiv : n / 128 < 128 ^ (groups + 1) := by omega
        have hback : n % 128 + 128 - 128 + 128 * (n / 128) = n := by omega
        simp only [hdiv, hfits, if_true, Option.bind_eq_bind, Option.bind_some, hback]
      · have hdiv : ¬ n / 128 < 128 ^ (groups + 1) := by omega
        simp only [hdiv, hfits, if_false, Option.bind_eq_bind, Option.bind_none]

/-- A number is read back when it has 64 bits and refused otherwise. -/
theorem readUint_uvarint (n : ℕ) (rest : Bytes) :
    readUint (uvarint n ++ rest) = if n < 2 ^ 64 then some (n, rest) else none := by
  rw [readUint, uvarint, readUvarint_uvarintGroups 9 (n + 1) n (by omega)]
  by_cases hbig : n < 128 ^ (9 + 1)
  · simp only [hbig, if_true, Option.bind_eq_bind, Option.bind_some]
  · have hover : ¬ n < 2 ^ 64 := by
      have hpow : (2 : ℕ) ^ 64 ≤ 128 ^ (9 + 1) := by decide
      omega
    simp only [hbig, hover, if_false, Option.bind_eq_bind, Option.bind_none]

@[simp] theorem readUint_nil : readUint [] = none := rfl

/-- A writer and a reader of one type. `Fits` says which values the format can
hold: lengths of at most 64 bits, down to the last element. -/
structure Codec (α : Type) where
  write : α → Bytes
  read : Bytes → Option (α × Bytes)
  Fits : α → Prop
  read_write : ∀ x, Fits x → ∀ rest, read (write x ++ rest) = some (x, rest)
  read_unfit : ∀ x, ¬ Fits x → ∀ rest, read (write x ++ rest) = none

namespace Codec

variable {α β : Type}

theorem readMany_unfit (element : Codec α) (xs : List α) (h : ¬ ∀ x ∈ xs, element.Fits x)
    (rest : Bytes) :
    readMany element.read xs.length (xs.flatMap element.write ++ rest) = none := by
  induction xs with
  | nil => exact absurd (by simp) h
  | cons x xs ih =>
    simp only [List.length_cons, List.flatMap_cons, List.append_assoc, readMany]
    by_cases hx : element.Fits x
    · have hxs : ¬ ∀ y ∈ xs, element.Fits y := fun hall => h (List.forall_mem_cons.mpr ⟨hx, hall⟩)
      simp only [element.read_write x hx, Option.bind_eq_bind, Option.bind_some, ih hxs,
        Option.bind_none]
    · simp only [element.read_unfit x hx, Option.bind_eq_bind, Option.bind_none]

/-- `count` bytes as they are. -/
def fixed (count : ℕ) : Codec (Vector UInt8 count) where
  write v := v.toList
  read bytes := do
    let (b, rest) ← readBytes count bytes
    if h : b.length = count then some (⟨b.toArray, by simpa using h⟩, rest) else none
  Fits _ := True
  read_write := by
    intro v _ rest
    obtain ⟨bytes, hbytes⟩ := v
    have hread := readBytes_append bytes.toList rest
    rw [Array.length_toList, hbytes] at hread
    simp [hread, hbytes]
  read_unfit := fun _ h => absurd trivial h

/-- An unsigned integer of `width` bytes, low byte first, through its value. -/
def little (width : ℕ) (toNat : α → ℕ) (ofNat : ℕ → α) (hofNat : ∀ x, ofNat (toNat x) = x)
    (hlt : ∀ x, toNat x < 256 ^ width) : Codec α where
  write x := leBytes width (toNat x)
  read bytes := do
    let (b, rest) ← readBytes width bytes
    some (ofNat (ofBeBytes b.reverse), rest)
  Fits _ := True
  read_write := by
    intro x _ rest
    have hread := readBytes_append (leBytes width (toNat x)) rest
    have hvalue := ofBeBytes_beBytes width (toNat x) (hlt x)
    rw [leBytes_length] at hread
    rw [beBytes] at hvalue
    simp only [hread, Option.bind_eq_bind, Option.bind_some, hvalue, hofNat]
  read_unfit := fun _ h => absurd trivial h

def u8 : Codec UInt8 :=
  little 1 UInt8.toNat UInt8.ofNat (fun _ => UInt8.ofNat_toNat) fun x => x.toNat_lt

def u16 : Codec UInt16 :=
  little 2 UInt16.toNat UInt16.ofNat (fun _ => UInt16.ofNat_toNat) fun x => x.toNat_lt

def u32 : Codec UInt32 :=
  little 4 UInt32.toNat UInt32.ofNat (fun _ => UInt32.ofNat_toNat) fun x => x.toNat_lt

def u64 : Codec UInt64 :=
  little 8 UInt64.toNat UInt64.ofNat (fun _ => UInt64.ofNat_toNat) fun x => x.toNat_lt

/-- A length and that many elements. -/
def list (element : Codec α) : Codec (List α) where
  write xs := uvarint xs.length ++ xs.flatMap element.write
  read bytes := do
    let (n, rest) ← readUint bytes
    readMany element.read n rest
  Fits xs := xs.length < 2 ^ 64 ∧ ∀ x ∈ xs, element.Fits x
  read_write := by
    intro xs hfits rest
    have hmany := readMany_flatMap element.read element.write xs
      (fun x hx rest => element.read_write x (hfits.2 x hx) rest) rest
    simp only [List.append_assoc, readUint_uvarint, hfits.1, if_true, Option.bind_eq_bind,
      Option.bind_some, hmany]
  read_unfit := by
    intro xs hunfit rest
    simp only [List.append_assoc, readUint_uvarint]
    by_cases hlength : xs.length < 2 ^ 64
    · simp only [hlength, if_true, Option.bind_eq_bind, Option.bind_some]
      exact readMany_unfit element xs (fun h => hunfit ⟨hlength, h⟩) rest
    · simp only [hlength, if_false, Option.bind_eq_bind, Option.bind_none]

/-- A length and that many bytes, as they are. -/
def bytes : Codec Bytes where
  write b := uvarint b.length ++ b
  read input := do
    let (n, rest) ← readUint input
    readBytes n rest
  Fits b := b.length < 2 ^ 64
  read_write := by
    intro b hfits rest
    simp only [List.append_assoc, readUint_uvarint, hfits, if_true, Option.bind_eq_bind,
      Option.bind_some, readBytes_append]
  read_unfit := by
    intro b hunfit rest
    simp only [List.append_assoc, readUint_uvarint, hunfit, if_false, Option.bind_eq_bind,
      Option.bind_none]

/-- A text: its bytes, which must be UTF-8. -/
def string : Codec String where
  write s := bytes.write (utf8 s)
  read input := do
    let (b, rest) ← bytes.read input
    let s ← ofUtf8 b
    some (s, rest)
  Fits s := bytes.Fits (utf8 s)
  read_write := by
    intro s hfits rest
    simp only [bytes.read_write (utf8 s) hfits rest, Option.bind_eq_bind, Option.bind_some,
      ofUtf8_utf8]
  read_unfit := by
    intro s hunfit rest
    simp only [bytes.read_unfit (utf8 s) hunfit rest, Option.bind_eq_bind, Option.bind_none]

/-- Two fields, one after the other. -/
def pair (first : Codec α) (second : Codec β) : Codec (α × β) where
  write xy := first.write xy.1 ++ second.write xy.2
  read input := do
    let (x, rest) ← first.read input
    let (y, rest) ← second.read rest
    some ((x, y), rest)
  Fits xy := first.Fits xy.1 ∧ second.Fits xy.2
  read_write := by
    intro xy hfits rest
    simp only [List.append_assoc, first.read_write xy.1 hfits.1, second.read_write xy.2 hfits.2,
      Option.bind_eq_bind, Option.bind_some]
  read_unfit := by
    intro xy hunfit rest
    by_cases hfirst : first.Fits xy.1
    · have hsecond : ¬ second.Fits xy.2 := fun h => hunfit ⟨hfirst, h⟩
      simp only [List.append_assoc, first.read_write xy.1 hfirst, Option.bind_eq_bind,
        Option.bind_some, second.read_unfit xy.2 hsecond, Option.bind_none]
    · simp only [List.append_assoc, first.read_unfit xy.1 hfirst, Option.bind_eq_bind,
        Option.bind_none]

/-- The codec of a record from that of its fields. -/
def record (fields : Codec α) (make : α → β) (split : β → α) (hmake : ∀ y, make (split y) = y) :
    Codec β where
  write y := fields.write (split y)
  read input := do
    let (x, rest) ← fields.read input
    some (make x, rest)
  Fits y := fields.Fits (split y)
  read_write := by
    intro y hfits rest
    simp only [fields.read_write (split y) hfits, Option.bind_eq_bind, Option.bind_some, hmake]
  read_unfit := by
    intro y hunfit rest
    simp only [fields.read_unfit (split y) hunfit, Option.bind_eq_bind, Option.bind_none]

/-! A record cut short after some of its fields. -/

/-- What follows the first field is read as the second, whatever it is: where
that cannot be read, neither can the record. -/
theorem pair_read_none (first : Codec α) (second : Codec β) (x : α) (rest : Bytes)
    (h : second.read rest = none) : (pair first second).read (first.write x ++ rest) = none := by
  by_cases hfits : first.Fits x
  · simp only [pair, first.read_write x hfits, Option.bind_eq_bind, Option.bind_some, h,
      Option.bind_none]
  · simp only [pair, first.read_unfit x hfits, Option.bind_eq_bind, Option.bind_none]

theorem pair_read_nil (first : Codec α) (second : Codec β) (h : first.read [] = none) :
    (pair first second).read [] = none := by
  simp only [pair, h, Option.bind_eq_bind, Option.bind_none]

theorem record_read_none {fields : Codec α} {make : α → β} {split : β → α}
    {hmake : ∀ y, make (split y) = y} {input : Bytes} (h : fields.read input = none) :
    (record fields make split hmake).read input = none := by
  simp only [record, h, Option.bind_eq_bind, Option.bind_none]

theorem list_read_nil (element : Codec α) : (list element).read [] = none := rfl

theorem fixed_read_nil (count : ℕ) (h : 0 < count) : (fixed count).read [] = none := by
  have hshort : ¬ count ≤ ([] : Bytes).length := by
    simp only [List.length_nil]
    omega
  simp only [fixed, readBytes, hshort, if_false, Option.bind_eq_bind, Option.bind_none]

/-! No bytes that are read as a value are fewer than those it is written as: a length may
be padded, never shortened. -/

theorem uvarintGroups_length_le {groups fuel n : ℕ} {input rest : Bytes}
    (h : readUvarint groups input = some (n, rest)) (hfuel : n < fuel) :
    (uvarintGroups fuel n).length + rest.length ≤ input.length := by
  induction groups generalizing fuel n input with
  | zero => cases h
  | succ groups ih =>
    obtain ⟨fuel, rfl⟩ : ∃ k, fuel = k + 1 := ⟨fuel - 1, by omega⟩
    cases input with
    | nil => cases h
    | cons b tail =>
      rw [readUvarint] at h
      split_ifs at h with hlast
      · obtain ⟨rfl, rfl⟩ := Prod.mk.inj (Option.some.inj h)
        rw [uvarintGroups, if_pos hlast, List.length_singleton, List.length_cons]
        omega
      · simp only [Option.bind_eq_bind, Option.bind_eq_some_iff] at h
        obtain ⟨⟨high, rest'⟩, hhigh, heq⟩ := h
        obtain ⟨rfl, rfl⟩ := Prod.mk.inj (Option.some.inj heq)
        have hbyte := b.toNat_lt
        rw [uvarintGroups, List.length_cons]
        split_ifs with hsmall
        · -- all groups above the first are zero
          have hmore := ih hhigh (Nat.lt_succ_self high)
          rw [List.length_singleton]
          omega
        · have hdiv : (b.toNat - 128 + 128 * high) / 128 = high := by omega
          have hmore := @ih fuel high tail hhigh (by omega)
          rw [hdiv, List.length_cons]
          omega

theorem uvarint_length_le {n : ℕ} {input rest : Bytes} (h : readUint input = some (n, rest)) :
    (uvarint n).length + rest.length ≤ input.length := by
  simp only [readUint, Option.bind_eq_bind, Option.bind_eq_some_iff] at h
  obtain ⟨⟨value, rest'⟩, hread, h⟩ := h
  split_ifs at h
  obtain ⟨rfl, rfl⟩ := Prod.mk.inj (Option.some.inj h)
  exact uvarintGroups_length_le hread (Nat.lt_succ_self value)

def Shortest (codec : Codec α) : Prop :=
  ∀ input x rest, codec.read input = some (x, rest) →
    (codec.write x).length + rest.length ≤ input.length

theorem shortest_fixed (count : ℕ) : Shortest (fixed count) := by
  intro input v rest h
  simp only [fixed, Option.bind_eq_bind, Option.bind_eq_some_iff] at h
  obtain ⟨⟨b, rest'⟩, hread, h⟩ := h
  split_ifs at h with hcount
  obtain ⟨rfl, rfl⟩ := Prod.mk.inj (Option.some.inj h)
  rw [(readBytes_eq_some hread).1, List.length_append]
  simp [fixed]

theorem shortest_little (width : ℕ) (toNat : α → ℕ) (ofNat : ℕ → α)
    (hofNat : ∀ x, ofNat (toNat x) = x) (hlt : ∀ x, toNat x < 256 ^ width) :
    Shortest (little width toNat ofNat hofNat hlt) := by
  intro input x rest h
  simp only [little, Option.bind_eq_bind, Option.bind_eq_some_iff] at h
  obtain ⟨⟨b, rest'⟩, hread, h⟩ := h
  obtain ⟨rfl, rfl⟩ := Prod.mk.inj (Option.some.inj h)
  obtain ⟨hsplit, hlength⟩ := readBytes_eq_some hread
  rw [hsplit, List.length_append, hlength, little, leBytes_length]

theorem shortest_bytes : Shortest bytes := by
  intro input b rest h
  simp only [bytes, Option.bind_eq_bind, Option.bind_eq_some_iff] at h
  obtain ⟨⟨n, rest'⟩, hlength, hread⟩ := h
  have hlen := uvarint_length_le hlength
  dsimp only at hread
  obtain ⟨rfl, rfl⟩ := readBytes_eq_some hread
  rw [List.length_append] at hlen
  rw [bytes, List.length_append]
  omega

theorem shortest_string : Shortest string := by
  intro input s rest h
  simp only [string, Option.bind_eq_bind, Option.bind_eq_some_iff] at h
  obtain ⟨⟨b, rest'⟩, hread, s', hs, heq⟩ := h
  obtain ⟨rfl, rfl⟩ := Prod.mk.inj (Option.some.inj heq)
  have hb : b = utf8 s' := eq_utf8_of_ofUtf8 hs
  subst hb
  exact shortest_bytes input _ rest' hread

theorem Shortest.pair {first : Codec α} {second : Codec β} (hfirst : Shortest first)
    (hsecond : Shortest second) : Shortest (pair first second) := by
  intro input xy rest h
  simp only [Codec.pair, Option.bind_eq_bind, Option.bind_eq_some_iff] at h
  obtain ⟨⟨x, rest₁⟩, hx, ⟨y, rest₂⟩, hy, heq⟩ := h
  obtain ⟨rfl, rfl⟩ := Prod.mk.inj (Option.some.inj heq)
  have hleft := hfirst input x rest₁ hx
  have hright := hsecond rest₁ y rest₂ hy
  rw [Codec.pair, List.length_append]
  dsimp only
  omega

theorem flatMap_length_le {element : Codec α} (h : Shortest element) {n : ℕ} {input rest : Bytes}
    {xs : List α} (hread : readMany element.read n input = some (xs, rest)) :
    xs.length = n ∧ (xs.flatMap element.write).length + rest.length ≤ input.length := by
  induction n generalizing input xs with
  | zero =>
    obtain ⟨rfl, rfl⟩ := Prod.mk.inj (Option.some.inj hread)
    simp
  | succ n ih =>
    simp only [readMany, Option.bind_eq_bind, Option.bind_eq_some_iff] at hread
    obtain ⟨⟨x, rest₁⟩, hx, ⟨ys, rest₂⟩, hys, heq⟩ := hread
    obtain ⟨rfl, rfl⟩ := Prod.mk.inj (Option.some.inj heq)
    have hleft := h input x rest₁ hx
    obtain ⟨rfl, hright⟩ := ih hys
    rw [List.length_cons, List.flatMap_cons, List.length_append]
    dsimp only at hright ⊢
    omega

theorem Shortest.list {element : Codec α} (h : Shortest element) : Shortest (list element) := by
  intro input xs rest hread
  simp only [Codec.list, Option.bind_eq_bind, Option.bind_eq_some_iff] at hread
  obtain ⟨⟨n, rest'⟩, hlength, hmany⟩ := hread
  have hlen := uvarint_length_le hlength
  obtain ⟨rfl, helements⟩ := flatMap_length_le h hmany
  rw [Codec.list, List.length_append]
  dsimp only at helements
  omega

theorem Shortest.record {fields : Codec α} (h : Shortest fields) {make : α → β} {split : β → α}
    (hmake : ∀ y, make (split y) = y) (hsplit : ∀ x, split (make x) = x) :
    Shortest (record fields make split hmake) := by
  intro input y rest hread
  simp only [Codec.record, Option.bind_eq_bind, Option.bind_eq_some_iff] at hread
  obtain ⟨⟨x, rest'⟩, hx, heq⟩ := hread
  obtain ⟨rfl, rfl⟩ := Prod.mk.inj (Option.some.inj heq)
  have hwrite : (Codec.record fields make split hmake).write (make x) = fields.write x :=
    congrArg fields.write (hsplit x)
  dsimp only
  rw [hwrite]
  exact h input x rest' hx

end Codec

end Weverywhere.Bare
