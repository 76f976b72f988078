import Mathlib.Algebra.Ring.Nat
import Mathlib.Data.List.Basic
import Mathlib.Tactic.Ring

/-!
Numerals in a base of at most sixteen, as `Nat.toDigits` writes them: which characters
they are made of, and a reader for them. Numbers of a fixed number of digits are put
together from their digits, the first of them the highest.
-/
namespace Weverywhere.Numerals

/-- Every character of a numeral is the digit of a number below the base. -/
theorem mem_toDigits {base : ℕ} (hbase : 1 < base) {n : ℕ} {c : Char}
    (h : c ∈ Nat.toDigits base n) : ∃ d < base, c = Nat.digitChar d := by
  induction n using Nat.strongRecOn with
  | ind n ih =>
    rw [Nat.toDigits_eq_if hbase] at h
    split_ifs at h with hsmall
    · exact ⟨n, hsmall, List.mem_singleton.mp h⟩
    · rcases List.mem_append.mp h with hfront | hlast
      · exact ih (n / base) (Nat.div_lt_self (by omega) hbase) hfront
      · exact ⟨n % base, Nat.mod_lt n (by omega), List.mem_singleton.mp hlast⟩

/-! Reading. -/

/-- The value of a digit of either case. -/
def hexValue (c : Char) : Option ℕ :=
  if '0' ≤ c ∧ c ≤ '9' then some (c.toNat - '0'.toNat)
  else if 'a' ≤ c ∧ c ≤ 'f' then some (c.toNat - 'a'.toNat + 10)
  else if 'A' ≤ c ∧ c ≤ 'F' then some (c.toNat - 'A'.toNat + 10)
  else none

/-- The value of a digit in a base of at most sixteen. -/
def toDigit (base : ℕ) (c : Char) : Option ℕ := (hexValue c).filter fun d => d < base

def isDigit (base : ℕ) (c : Char) : Bool := (toDigit base c).isSome

def valueOf (base : ℕ) (digits : List Char) : ℕ :=
  digits.foldl (fun n c => n * base + (toDigit base c).getD 0) 0

variable {base : ℕ}

theorem hexValue_digitChar {d : ℕ} (hd : d < 16) : hexValue (Nat.digitChar d) = some d := by
  have hall : ∀ d < 16, hexValue (Nat.digitChar d) = some d := by decide
  exact hall d hd

theorem toDigit_digitChar {d : ℕ} (hd : d < base) (hle : base ≤ 16) :
    toDigit base (Nat.digitChar d) = some d := by
  rw [toDigit, hexValue_digitChar (by omega), Option.filter_some, if_pos (by simpa using hd)]

theorem isDigit_of_mem (hbase : 1 < base) (hle : base ≤ 16) {n : ℕ} {c : Char}
    (h : c ∈ Nat.toDigits base n) : isDigit base c = true := by
  obtain ⟨d, hd, rfl⟩ := mem_toDigits hbase h
  rw [isDigit, toDigit_digitChar hd hle]
  rfl

theorem valueOf_toDigits (hbase : 1 < base) (hle : base ≤ 16) (n : ℕ) :
    valueOf base (Nat.toDigits base n) = n := by
  induction n using Nat.strongRecOn with
  | ind n ih =>
    rw [Nat.toDigits_eq_if hbase]
    split_ifs with hsmall
    · rw [valueOf, List.foldl_cons, List.foldl_nil, toDigit_digitChar hsmall hle, Option.getD_some,
        Nat.zero_mul, Nat.zero_add]
    · have hfront := ih (n / base) (Nat.div_lt_self (by omega) hbase)
      have hlast := toDigit_digitChar (Nat.mod_lt n (by omega : 0 < base)) hle
      rw [valueOf] at hfront
      rw [valueOf, List.foldl_append, hfront, List.foldl_cons, List.foldl_nil, hlast,
        Option.getD_some, Nat.div_add_mod']

/-- Only the numeral of zero begins with a zero. -/
theorem eq_zero_of_head_toDigits (hbase : 1 < base) (hle : base ≤ 16) {n : ℕ}
    (h : (Nat.toDigits base n).head? = some '0') : n = 0 := by
  induction n using Nat.strongRecOn with
  | ind n ih =>
    rw [Nat.toDigits_eq_if hbase] at h
    split_ifs at h with hsmall
    · exact Nat.digitChar_eq_zero.mp (Option.some.inj h)
    · rw [List.head?_append_of_ne_nil _ Nat.toDigits_ne_nil] at h
      have hfront := ih (n / base) (Nat.div_lt_self (by omega) hbase) h
      have hpos := Nat.div_pos (Nat.le_of_not_lt hsmall) (by omega : 0 < base)
      omega

/-- What a text begins with, up to the first element of another kind. -/
theorem span_append {α : Type} {p : α → Bool} {front rest : List α}
    (hfront : ∀ c ∈ front, p c = true) (hrest : ∀ c ∈ rest.head?, p c = false) :
    (front ++ rest).takeWhile p = front ∧ (front ++ rest).dropWhile p = rest := by
  rw [List.takeWhile_append_of_pos hfront, List.dropWhile_append_of_pos hfront]
  cases rest with
  | nil => simp
  | cons c rest =>
    have hc : ¬ p c = true := by simp [hrest c rfl]
    rw [List.takeWhile_cons_of_neg hc, List.dropWhile_cons_of_neg hc, List.append_nil]
    exact ⟨rfl, rfl⟩

/-- The longest run of digits in front of a text that goes on with something else. -/
theorem span_toDigits (hbase : 1 < base) (hle : base ≤ 16) (n : ℕ) {rest : List Char}
    (hrest : ∀ c ∈ rest.head?, isDigit base c = false) :
    (Nat.toDigits base n ++ rest).takeWhile (isDigit base) = Nat.toDigits base n ∧
      (Nat.toDigits base n ++ rest).dropWhile (isDigit base) = rest :=
  span_append (fun _ hc => isDigit_of_mem hbase hle hc) hrest

/-! Numbers with a fixed number of digits. -/

/-- The digits of `n` below `base ^ count`, the highest first. -/
def digitsOf (base count n : ℕ) : List ℕ :=
  (List.range count).map fun i => n / base ^ (count - 1 - i) % base

def ofDigits (base : ℕ) (digits : List ℕ) : ℕ := digits.foldl (fun n d => n * base + d) 0

theorem digitsOf_succ (count n : ℕ) :
    digitsOf base (count + 1) n = n / base ^ count % base :: digitsOf base count n := by
  rw [digitsOf, List.range_succ_eq_map, List.map_cons, List.map_map, digitsOf]
  congr 1
  apply List.map_congr_left
  intro i _
  have hexponent : count + 1 - 1 - (i + 1) = count - 1 - i := by omega
  rw [Function.comp_apply, hexponent]

theorem foldl_digitsOf (count n start : ℕ) :
    (digitsOf base count n).foldl (fun n d => n * base + d) start =
      start * base ^ count + n % base ^ count := by
  induction count generalizing start with
  | zero => rw [Nat.pow_zero, Nat.mod_one, Nat.mul_one]; rfl
  | succ count ih =>
    rw [digitsOf_succ, List.foldl_cons, ih, Nat.mod_pow_succ]
    ring

theorem ofDigits_digitsOf (count n : ℕ) :
    ofDigits base (digitsOf base count n) = n % base ^ count := by
  rw [ofDigits, foldl_digitsOf, Nat.zero_mul, Nat.zero_add]

theorem digitsOf_lt (hbase : 0 < base) {count n d : ℕ} (h : d ∈ digitsOf base count n) :
    d < base := by
  obtain ⟨i, -, rfl⟩ := List.mem_map.mp h
  exact Nat.mod_lt _ hbase

theorem digitsOf_length (count n : ℕ) : (digitsOf base count n).length = count := by
  rw [digitsOf, List.length_map, List.length_range]

end Weverywhere.Numerals
