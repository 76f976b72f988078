import Weverywhere.Configuration
import Weverywhere.Numerals
import Mathlib.Data.List.Induction

/-!
How the texts of IP addresses are read back: `from_str` of `Ipv4Addr` and of `Ipv6Addr`,
by a parser that takes from the front of a text what it can use. What `to_string` writes
of an address is read back as that address.
-/
namespace Weverywhere.IpAddresses

open Weverywhere.Configuration Numerals

/-- A parser takes something from the front of the text, or nothing at all. -/
abbrev Reader (α : Type) := List Char → Option (α × List Char)

/-- `read_number` of a type whose values are below `bound`. -/
def readNumber (radix maxDigits : ℕ) (allowZeroPrefix : Bool) (bound : ℕ) : Reader ℕ := fun s =>
  let digits := s.takeWhile (isDigit radix)
  if digits = [] ∨ maxDigits < digits.length then none
  else if allowZeroPrefix = false ∧ digits.head? = some '0' ∧ 1 < digits.length then none
  else if bound ≤ valueOf radix digits then none
  else some (valueOf radix digits, s.dropWhile (isDigit radix))

/-- `read_separator`: there is none before the first of several. -/
def readSeparator {α : Type} (sep : Char) (index : ℕ) (inner : Reader α) : Reader α := fun s =>
  if index = 0 then inner s
  else
    match s with
    | c :: rest => if c = sep then inner rest else none
    | [] => none

def readOctet (index : ℕ) : Reader ℕ := readSeparator '.' index (readNumber 10 3 false 256)

/-- The octets of an address. -/
def readIpv4Addr : Reader (List ℕ) := fun s => do
  let (one, s) ← readOctet 0 s
  let (two, s) ← readOctet 1 s
  let (three, s) ← readOctet 2 s
  let (four, s) ← readOctet 3 s
  some ([one, two, three, four], s)

/-- `u16::from_be_bytes` of each half. -/
def pairs : List ℕ → List ℕ
  | one :: two :: rest => ofDigits 256 [one, two] :: pairs rest
  | _ => []

/-- `read_groups` from index `i` on, with room for `left` more: the groups, whether the
last two of them are an embedded IPv4 address, and the rest of the text. -/
def readGroups : ℕ → ℕ → List Char → List ℕ × Bool × List Char
  | 0, _, s => ([], false, s)
  | left + 1, i, s =>
    match if 0 < left then readSeparator ':' i readIpv4Addr s else none with
    | some (octets, s) => (pairs octets, true, s)
    | none =>
      match readSeparator ':' i (readNumber 16 4 true 65536) s with
      | some (group, s) =>
        let (groups, embedded, s) := readGroups left (i + 1) s
        (group :: groups, embedded, s)
      | none => ([], false, s)

/-- The segments of an address. -/
def readIpv6Addr : Reader (List ℕ) := fun s =>
  let (head, headIpv4, s) := readGroups 8 0 s
  if head.length = 8 then some (head, s)
  else if headIpv4 then none
  else
    match s with
    | ':' :: ':' :: s =>
      let (tail, _, s) := readGroups (8 - (head.length + 1)) 0 s
      some (head ++ List.replicate (8 - head.length - tail.length) 0 ++ tail, s)
    | _ => none

/-- `parse_with`: nothing may be left over. -/
def parseWith {α : Type} (inner : Reader α) (s : String) : Option α :=
  match inner s.toList with
  | some (value, []) => some value
  | _ => none

def ipv4FromStr (s : String) : Option Ipv4Addr :=
  (parseWith readIpv4Addr s).map fun octets => BitVec.ofNat 32 (ofDigits 256 octets)

def ipv6FromStr (s : String) : Option Ipv6Addr :=
  (parseWith readIpv6Addr s).map fun segments => BitVec.ofNat 128 (ofDigits 65536 segments)

/-! Numbers. -/

theorem readNumber_toDigits {radix maxDigits bound n : ℕ} (hradix : 1 < radix) (hle : radix ≤ 16)
    (allowZeroPrefix : Bool) (hpos : 0 < maxDigits) (hfits : n < radix ^ maxDigits)
    (hbound : n < bound) {rest : List Char} (hrest : ∀ c ∈ rest.head?, isDigit radix c = false) :
    readNumber radix maxDigits allowZeroPrefix bound (Nat.toDigits radix n ++ rest) =
      some (n, rest) := by
  obtain ⟨htake, hdrop⟩ := span_toDigits hradix hle n hrest
  have hlength := (Nat.length_toDigits_le_iff hradix hpos).mpr hfits
  have hzero : ¬ ((Nat.toDigits radix n).head? = some '0' ∧ 1 < (Nat.toDigits radix n).length) := by
    intro h
    rw [eq_zero_of_head_toDigits hradix hle h.1, Nat.toDigits_zero] at h
    exact absurd h.2 (by decide)
  simp only [readNumber, htake, hdrop, valueOf_toDigits hradix hle]
  rw [if_neg (not_or.mpr ⟨Nat.toDigits_ne_nil, Nat.not_lt.mpr hlength⟩),
    if_neg (fun h => hzero h.2), if_neg (Nat.not_le.mpr hbound)]

/-! IPv4 addresses. -/

theorem isDigit_dot : isDigit 10 '.' = false := by decide

theorem readOctet_first {n : ℕ} (hn : n < 256) {rest : List Char}
    (hrest : ∀ c ∈ rest.head?, isDigit 10 c = false) :
    readOctet 0 (Nat.toDigits 10 n ++ rest) = some (n, rest) :=
  readNumber_toDigits (by omega) (by omega) false (by omega) (by omega) hn hrest

theorem readOctet_next {n : ℕ} (hn : n < 256) (index : ℕ) {rest : List Char}
    (hrest : ∀ c ∈ rest.head?, isDigit 10 c = false) :
    readOctet (index + 1) ('.' :: (Nat.toDigits 10 n ++ rest)) = some (n, rest) :=
  readOctet_first hn hrest

theorem ipv4ToString_toList (a : Ipv4Addr) : ∃ one two three four,
    digitsOf 256 4 a.toNat = [one, two, three, four] ∧
      (ipv4ToString a).toList = Nat.toDigits 10 one ++ '.' :: (Nat.toDigits 10 two ++
        '.' :: (Nat.toDigits 10 three ++ '.' :: (Nat.toDigits 10 four ++ []))) := by
  refine ⟨_, _, _, _, rfl, ?_⟩
  simp only [ipv4ToString, String.toList_ofList, List.append_assoc, List.cons_append,
    List.append_nil]

theorem readIpv4Addr_ipv4ToString (a : Ipv4Addr) :
    readIpv4Addr (ipv4ToString a).toList = some (digitsOf 256 4 a.toNat, []) := by
  obtain ⟨one, two, three, four, hoctets, htext⟩ := ipv4ToString_toList a
  have hlt : ∀ n ∈ [one, two, three, four], n < 256 := by
    intro n hn
    rw [← hoctets] at hn
    exact digitsOf_lt (by omega) hn
  simp only [List.forall_mem_cons] at hlt
  have hdot : ∀ {rest : List Char}, ∀ c ∈ ('.' :: rest).head?, isDigit 10 c = false := by
    intro rest c hc
    rw [List.head?_cons, Option.mem_some_iff] at hc
    exact hc ▸ isDigit_dot
  have hend : ∀ c ∈ ([] : List Char).head?, isDigit 10 c = false := nofun
  rw [htext, hoctets, readIpv4Addr]
  simp only [readOctet_first hlt.1 hdot, readOctet_next hlt.2.1 0 hdot,
    readOctet_next hlt.2.2.1 1 hdot, readOctet_next hlt.2.2.2.1 2 hend,
    Option.bind_eq_bind, Option.bind_some]

/-- An address is read back from its text. -/
theorem ipv4FromStr_ipv4ToString (a : Ipv4Addr) : ipv4FromStr (ipv4ToString a) = some a := by
  have hvalue : ofDigits 256 (digitsOf 256 4 a.toNat) = a.toNat := by
    rw [ofDigits_digitsOf]
    exact Nat.mod_eq_of_lt a.isLt
  rw [ipv4FromStr, parseWith, readIpv4Addr_ipv4ToString]
  simp only [Option.map_some, hvalue, BitVec.ofNat_toNat, BitVec.setWidth_eq]

/-! Groups of an IPv6 address. -/

theorem isDigit_colon (radix : ℕ) : isDigit radix ':' = false := rfl

/-- What a group is followed by: nothing, or a colon. -/
def Ends (rest : List Char) : Prop := ∀ c ∈ rest.head?, c = ':'

theorem ends_nil : Ends [] := fun _ hc => by cases hc

theorem ends_cons (rest : List Char) : Ends (':' :: rest) := by
  intro c hc
  exact (Option.mem_some_iff.mp hc).symm

theorem Ends.not_isDigit {rest : List Char} (h : Ends rest) (radix : ℕ) :
    ∀ c ∈ rest.head?, isDigit radix c = false := by
  intro c hc
  rw [h c hc]
  exact isDigit_colon radix

theorem readGroup {g : ℕ} (hg : g < 65536) {rest : List Char} (hrest : Ends rest) :
    readNumber 16 4 true 65536 (Nat.toDigits 16 g ++ rest) = some (g, rest) :=
  readNumber_toDigits (by omega) (by omega) true (by omega) (by omega) hg (hrest.not_isDigit 16)

/-- A number is not the front of an IPv4 address when no dot comes after it. -/
theorem readIpv4Addr_eq_none {s : List Char}
    (h : (s.dropWhile (isDigit 10)).head? ≠ some '.') : readIpv4Addr s = none := by
  cases hfirst : readOctet 0 s with
  | none => rw [readIpv4Addr, hfirst]; rfl
  | some read =>
    have hrest : read.2 = s.dropWhile (isDigit 10) := by
      simp only [readOctet, readSeparator, if_pos, readNumber] at hfirst
      split_ifs at hfirst
      rw [← Option.some.inj hfirst]
    have hsecond : readOctet 1 read.2 = none := by
      rw [hrest]
      cases hdrop : s.dropWhile (isDigit 10) with
      | nil => rfl
      | cons c rest =>
        rw [hdrop, List.head?_cons, Ne, Option.some.injEq] at h
        exact if_neg h
    rw [readIpv4Addr, hfirst]
    simp only [Option.bind_eq_bind, Option.bind_some, hsecond, Option.bind_none]

/-- A group is not the front of an IPv4 address. -/
theorem readIpv4Addr_group (g : ℕ) {rest : List Char} (hrest : Ends rest) :
    readIpv4Addr (Nat.toDigits 16 g ++ rest) = none := by
  have hdots : ∀ c ∈ Nat.toDigits 16 g, c ≠ '.' := by
    intro c hc hdot
    have hdigit := isDigit_of_mem (by omega) (by omega) hc
    rw [hdot] at hdigit
    exact absurd hdigit (by decide)
  apply readIpv4Addr_eq_none
  intro hhead
  rw [List.dropWhile_append] at hhead
  split_ifs at hhead with hall
  · have hstays : rest.dropWhile (isDigit 10) = rest := by
      cases rest with
      | nil => rfl
      | cons c rest =>
        have hc : c = ':' := hrest c rfl
        rw [hc, List.dropWhile_cons_of_neg (by rw [isDigit_colon]; decide)]
    rw [hstays] at hhead
    exact absurd (hrest '.' hhead) (by decide)
  · rw [List.isEmpty_iff] at hall
    rw [List.head?_append_of_ne_nil _ hall] at hhead
    exact hdots '.' ((List.dropWhile_sublist _).subset (List.mem_of_mem_head? hhead)) rfl

def colons (groups : List ℕ) : List Char := groups.flatMap fun g => ':' :: Nat.toDigits 16 g

theorem formatSegments_cons (g : ℕ) (groups : List ℕ) :
    formatSegments (g :: groups) = Nat.toDigits 16 g ++ colons groups := by
  induction groups generalizing g with
  | nil => simp [formatSegments, colons]
  | cons next groups ih =>
    have hnext : formatSegments (g :: next :: groups) =
        Nat.toDigits 16 g ++ ':' :: formatSegments (next :: groups) := by
      simp [formatSegments]
    rw [hnext, ih, colons, colons, List.flatMap_cons, List.cons_append]

theorem ends_colons (groups : List ℕ) {rest : List Char} (hrest : Ends rest) :
    Ends (colons groups ++ rest) := by
  cases groups with
  | nil => exact hrest
  | cons g groups => exact ends_cons _

theorem readGroups_step {g : ℕ} (hg : g < 65536) (left : ℕ) {rest : List Char}
    (hrest : Ends rest) : readGroups (left + 1) 0 (Nat.toDigits 16 g ++ rest) =
      (g :: (readGroups left 1 rest).1, (readGroups left 1 rest).2) := by
  have hipv4 : (if 0 < left then readSeparator ':' 0 readIpv4Addr (Nat.toDigits 16 g ++ rest)
      else none) = none := by
    rw [ite_eq_right_iff]
    exact fun _ => readIpv4Addr_group g hrest
  have hgroup : readSeparator ':' 0 (readNumber 16 4 true 65536) (Nat.toDigits 16 g ++ rest) =
      some (g, rest) := readGroup hg hrest
  simp only [readGroups, hipv4, hgroup]

theorem readGroups_next {g : ℕ} (hg : g < 65536) (left i : ℕ) {rest : List Char}
    (hrest : Ends rest) : readGroups (left + 1) (i + 1) (':' :: (Nat.toDigits 16 g ++ rest)) =
      (g :: (readGroups left (i + 2) rest).1, (readGroups left (i + 2) rest).2) := by
  have hipv4 : (if 0 < left then readSeparator ':' (i + 1) readIpv4Addr
      (':' :: (Nat.toDigits 16 g ++ rest)) else none) = none := by
    rw [ite_eq_right_iff]
    exact fun _ => readIpv4Addr_group g hrest
  have hgroup : readSeparator ':' (i + 1) (readNumber 16 4 true 65536)
      (':' :: (Nat.toDigits 16 g ++ rest)) = some (g, rest) := readGroup hg hrest
  simp only [readGroups, hipv4, hgroup]

theorem readGroups_colons {groups : List ℕ} (hgroups : ∀ g ∈ groups, g < 65536) {left : ℕ}
    (hroom : groups.length ≤ left) (i : ℕ) {rest : List Char} (hrest : Ends rest) :
    readGroups left (i + 1) (colons groups ++ rest) =
      (groups ++ (readGroups (left - groups.length) (i + 1 + groups.length) rest).1,
        (readGroups (left - groups.length) (i + 1 + groups.length) rest).2) := by
  induction groups generalizing left i with
  | nil => rfl
  | cons g groups ih =>
    obtain ⟨left, rfl⟩ : ∃ k, left = k + 1 := Nat.exists_eq_add_one.mpr (by
      rw [List.length_cons] at hroom
      omega)
    rw [List.forall_mem_cons] at hgroups
    have hsame : i + 1 + (g :: groups).length = i + 1 + 1 + groups.length := by
      rw [List.length_cons]
      omega
    have hleft : left + 1 - (g :: groups).length = left - groups.length := by
      rw [List.length_cons]
      omega
    rw [colons, List.flatMap_cons, ← colons, List.cons_append, List.cons_append, List.append_assoc,
      readGroups_next hgroups.1 left i (ends_colons groups hrest),
      ih hgroups.2 (Nat.le_of_succ_le_succ hroom) (i + 1), hsame, hleft, List.cons_append]

/-- Groups are read up to what comes behind them. -/
theorem readGroups_formatSegments {groups : List ℕ} (hgroups : ∀ g ∈ groups, g < 65536) {left : ℕ}
    (hroom : groups.length ≤ left) {rest : List Char} (hrest : Ends rest) :
    readGroups left 0 (formatSegments groups ++ rest) =
      (groups ++ (readGroups (left - groups.length) groups.length rest).1,
        (readGroups (left - groups.length) groups.length rest).2) := by
  cases groups with
  | nil => rfl
  | cons g groups =>
    obtain ⟨left, rfl⟩ : ∃ k, left = k + 1 := Nat.exists_eq_add_one.mpr (by
      rw [List.length_cons] at hroom
      omega)
    rw [List.forall_mem_cons] at hgroups
    have hroom' : groups.length ≤ left := Nat.le_of_succ_le_succ hroom
    have hsame : (g :: groups).length = 0 + 1 + groups.length := by
      rw [List.length_cons]
      omega
    have hleft : left + 1 - (0 + 1 + groups.length) = left - groups.length := by omega
    rw [formatSegments_cons, List.append_assoc,
      readGroups_step hgroups.1 left (ends_colons groups hrest),
      readGroups_colons hgroups.2 hroom' 0 hrest, hsame, hleft, List.cons_append]

/-- Where no group begins: at the end of the text, and before `::`. -/
def Stops (s : List Char) : Prop := s = [] ∨ ∃ rest, s = ':' :: ':' :: rest

theorem readSeparator_stops {α : Type} {inner : Reader α} (hempty : inner [] = none)
    (hcolon : ∀ rest, inner (':' :: rest) = none) (i : ℕ) {s : List Char} (hs : Stops s) :
    readSeparator ':' i inner s = none := by
  cases i with
  | zero =>
    rcases hs with rfl | ⟨rest, rfl⟩
    · exact hempty
    · exact hcolon _
  | succ i =>
    rcases hs with rfl | ⟨rest, rfl⟩
    · rfl
    · exact hcolon rest

theorem readGroups_stops (left i : ℕ) {s : List Char} (hs : Stops s) :
    readGroups left i s = ([], false, s) := by
  have hipv4 : readSeparator ':' i readIpv4Addr s = none :=
    readSeparator_stops rfl (fun _ => rfl) i hs
  have hgroup : readSeparator ':' i (readNumber 16 4 true 65536) s = none :=
    readSeparator_stops rfl (fun _ => rfl) i hs
  cases left with
  | zero => rfl
  | succ left => simp only [readGroups, hipv4, hgroup, ite_self]

/-! IPv6 addresses. -/

theorem Stops.ends {s : List Char} (hs : Stops s) : Ends s := by
  rcases hs with rfl | ⟨rest, rfl⟩
  · exact ends_nil
  · exact ends_cons _

/-- Groups on their own, and groups in front of `::`. -/
theorem readGroups_stop {groups : List ℕ} (hgroups : ∀ g ∈ groups, g < 65536) {left : ℕ}
    (hroom : groups.length ≤ left) {s : List Char} (hs : Stops s) :
    readGroups left 0 (formatSegments groups ++ s) = (groups, false, s) := by
  rw [readGroups_formatSegments hgroups hroom hs.ends, readGroups_stops _ _ hs, List.append_nil]

/-- All segments written out. -/
theorem readIpv6Addr_full {groups : List ℕ} (hgroups : ∀ g ∈ groups, g < 65536)
    (hlength : groups.length = 8) : readIpv6Addr (formatSegments groups) = some (groups, []) := by
  have hread := readGroups_stop hgroups hlength.le (.inl rfl)
  rw [List.append_nil] at hread
  simp only [readIpv6Addr, hread, hlength, if_pos]

/-- A run of zeros left out. -/
theorem readIpv6Addr_compressed {head tail : List ℕ} (hhead : ∀ g ∈ head, g < 65536)
    (htail : ∀ g ∈ tail, g < 65536) (hroom : head.length + tail.length < 8) :
    readIpv6Addr (formatSegments head ++ ':' :: ':' :: formatSegments tail) =
      some (head ++ List.replicate (8 - head.length - tail.length) 0 ++ tail, []) := by
  have hfront : readGroups 8 0 (formatSegments head ++ ':' :: ':' :: formatSegments tail) =
      (head, false, ':' :: ':' :: formatSegments tail) :=
    readGroups_stop hhead (by omega) (.inr ⟨_, rfl⟩)
  have hback : readGroups (8 - (head.length + 1)) 0 (formatSegments tail ++ []) =
      (tail, false, []) := readGroups_stop htail (by omega) (.inl rfl)
  rw [List.append_nil] at hback
  have hshort : head.length ≠ 8 := by omega
  simp only [readIpv6Addr, hfront, hback, if_neg hshort, Bool.false_eq_true, if_false]

/-- An IPv4-mapped address. -/
theorem readIpv6Addr_mapped (a : Ipv4Addr) :
    readIpv6Addr ("::ffff:".toList ++ (ipv4ToString a).toList) =
      some ([0, 0, 0, 0, 0, 0xFFFF] ++ pairs (digitsOf 256 4 a.toNat), []) := by
  have htext : "::ffff:".toList ++ (ipv4ToString a).toList =
      ':' :: ':' :: (Nat.toDigits 16 0xFFFF ++ ':' :: (ipv4ToString a).toList) := rfl
  have hfront : readGroups 8 0 ("::ffff:".toList ++ (ipv4ToString a).toList) =
      ([], false, "::ffff:".toList ++ (ipv4ToString a).toList) :=
    readGroups_stops 8 0 (.inr ⟨_, rfl⟩)
  have hipv4 : readSeparator ':' 1 readIpv4Addr (':' :: (ipv4ToString a).toList) =
      some (digitsOf 256 4 a.toNat, []) := readIpv4Addr_ipv4ToString a
  have hback : readGroups 7 0 (Nat.toDigits 16 0xFFFF ++ ':' :: (ipv4ToString a).toList) =
      (0xFFFF :: pairs (digitsOf 256 4 a.toNat), true, []) := by
    rw [readGroups_step (by omega) 6 (ends_cons _)]
    simp only [readGroups, hipv4, Nat.zero_lt_succ, if_true]
  have hpairs : (pairs (digitsOf 256 4 a.toNat)).length = 2 := rfl
  rw [readIpv6Addr, hfront, htext]
  simp only [hback, List.length_nil, List.length_cons, hpairs]
  rfl

/-- What `longest_zero_run` has found in the segments it has seen. -/
structure Scanned (seen : List ℕ) (state : ℕ × (ℕ × ℕ) × ℕ × ℕ) : Prop where
  position : state.1 = seen.length
  current : ∃ before, seen = before ++ List.replicate state.2.1.2 0 ∧
    (0 < state.2.1.2 → before.length = state.2.1.1)
  longest : ∃ before after, seen = before ++ List.replicate state.2.2.2 0 ++ after ∧
    before.length = state.2.2.1

/-- One turn of the scan, as `longestZeroRun` makes it. -/
def scanSegment : ℕ × (ℕ × ℕ) × ℕ × ℕ → ℕ → ℕ × (ℕ × ℕ) × ℕ × ℕ :=
  fun (i, (start, len), longest) segment =>
    if segment = 0 then
      let current := (if len = 0 then i else start, len + 1)
      (i + 1, current, if longest.2 < current.2 then current else longest)
    else (i + 1, (0, 0), longest)

theorem scanned_step {seen : List ℕ} {state : ℕ × (ℕ × ℕ) × ℕ × ℕ} (h : Scanned seen state)
    (segment : ℕ) : Scanned (seen ++ [segment]) (scanSegment state segment) := by
  obtain ⟨i, ⟨start, len⟩, longest⟩ := state
  obtain ⟨hposition, ⟨before, hseen, hstart⟩, ⟨front, back, hlongest, hfront⟩⟩ := h
  dsimp only at hposition hseen hstart hlongest hfront
  have hlength : (seen ++ [segment]).length = i + 1 := by
    rw [List.length_append, hposition, List.length_singleton]
  have hkept : ∃ front' back', seen ++ [segment] = front' ++ List.replicate longest.2 0 ++ back' ∧
      front'.length = longest.1 :=
    ⟨front, back ++ [segment], by rw [hlongest, List.append_assoc], hfront⟩
  by_cases hzero : segment = 0
  · obtain ⟨first, hfirst⟩ : ∃ first, first = if len = 0 then i else start := ⟨_, rfl⟩
    have hscan : scanSegment (i, (start, len), longest) segment =
        (i + 1, (first, len + 1), if longest.2 < len + 1 then (first, len + 1) else longest) := by
      rw [hfirst]
      exact if_pos hzero
    have hcurrent : seen ++ [segment] = before ++ List.replicate (len + 1) 0 := by
      rw [hzero, hseen, List.replicate_succ', List.append_assoc]
    have hbefore : before.length = first := by
      rw [hfirst]
      split_ifs with hlen
      · rw [hposition, hseen, hlen, List.replicate_zero, List.append_nil]
      · exact hstart (Nat.pos_of_ne_zero hlen)
    rw [hscan]
    refine ⟨hlength.symm, ⟨before, hcurrent, fun _ => hbefore⟩, ?_⟩
    dsimp only
    split_ifs
    · exact ⟨before, [], by rw [hcurrent, List.append_nil], hbefore⟩
    · exact hkept
  · have hscan : scanSegment (i, (start, len), longest) segment = (i + 1, (0, 0), longest) :=
      if_neg hzero
    rw [hscan]
    refine ⟨hlength.symm, ⟨seen ++ [segment], ?_, fun h => absurd h (Nat.lt_irrefl 0)⟩, hkept⟩
    rw [List.replicate_zero, List.append_nil]

/-- The run it answers is one of zeros. -/
theorem longestZeroRun_split (all : List ℕ) : ∃ before after,
    all = before ++ List.replicate (longestZeroRun all).2 0 ++ after ∧
      before.length = (longestZeroRun all).1 := by
  have hscan : Scanned all (all.foldl scanSegment (0, (0, 0), (0, 0))) := by
    induction all using List.reverseRecOn with
    | nil => exact ⟨rfl, ⟨[], rfl, by simp⟩, [], [], rfl, rfl⟩
    | append_singleton seen segment ih =>
      rw [List.foldl_append, List.foldl_cons, List.foldl_nil]
      exact scanned_step ih segment
  exact hscan.longest

theorem segments_eq (a : Ipv6Addr) : segments a = digitsOf 65536 8 a.toNat := rfl

theorem segments_lt {a : Ipv6Addr} {g : ℕ} (h : g ∈ segments a) : g < 65536 := by
  rw [segments_eq] at h
  exact digitsOf_lt (by omega) h

theorem segments_length (a : Ipv6Addr) : (segments a).length = 8 := digitsOf_length 8 _

/-- The last two segments are the octets of the address that is mapped. -/
theorem pairs_setWidth (a : Ipv6Addr) :
    pairs (digitsOf 256 4 (a.setWidth 32).toNat) = (segments a).drop 6 := by
  have hoctets : pairs (digitsOf 256 4 (a.setWidth 32).toNat) =
      [a.toNat % 4294967296 / 16777216 % 256 * 256 + a.toNat % 4294967296 / 65536 % 256,
        a.toNat % 4294967296 / 256 % 256 * 256 + a.toNat % 4294967296 % 256] := by
    rw [BitVec.toNat_setWidth]
    simp [pairs, digitsOf, ofDigits, List.range_succ]
  have hsegments : (segments a).drop 6 = [a.toNat / 65536 % 65536, a.toNat % 65536] := by
    simp [segments, List.range_succ]
  have hhigh : ∀ n : ℕ, n % 4294967296 / 16777216 % 256 * 256 + n % 4294967296 / 65536 % 256 =
      n / 65536 % 65536 := by omega
  have hlow : ∀ n : ℕ, n % 4294967296 / 256 % 256 * 256 + n % 4294967296 % 256 = n % 65536 := by
    intro n
    have hsame : n % 4294967296 % 65536 = n % 65536 := Nat.mod_mod_of_dvd n ⟨65536, rfl⟩
    generalize n % 4294967296 = m at *
    omega
  rw [hoctets, hsegments, hhigh, hlow]

theorem readIpv6Addr_ipv6ToString (a : Ipv6Addr) :
    readIpv6Addr (ipv6ToString a).toList = some (segments a, []) := by
  unfold ipv6ToString
  simp only
  split_ifs with hmapped hrun
  · rw [String.toList_ofList, readIpv6Addr_mapped, pairs_setWidth, ← hmapped,
      List.take_append_drop]
  · obtain ⟨before, after, hall, hbefore⟩ := longestZeroRun_split (segments a)
    have hlength := segments_length a
    have hlt : ∀ g ∈ segments a, g < 65536 := fun _ hg => segments_lt hg
    generalize segments a = all at *
    generalize longestZeroRun all = run at *
    have hhead : all.take run.1 = before := by
      rw [hall, List.append_assoc, ← hbefore, List.take_left]
    have htail : all.drop (run.1 + run.2) = after := by
      rw [hall, ← hbefore, List.drop_left' (by rw [List.length_append, List.length_replicate])]
    rw [hall, List.length_append, List.length_append, List.length_replicate] at hlength
    have hzeros : 8 - before.length - after.length = run.2 := by omega
    have hbefore' : ∀ g ∈ before, g < 65536 := fun g hg => hlt g (by rw [hall]; simp [hg])
    have hafter : ∀ g ∈ after, g < 65536 := fun g hg => hlt g (by rw [hall]; simp [hg])
    have hread := readIpv6Addr_compressed hbefore' hafter (by omega)
    rw [hzeros, ← hall] at hread
    rw [String.toList_ofList, hhead, htail, List.append_assoc]
    exact hread
  · rw [String.toList_ofList]
    exact readIpv6Addr_full (fun _ hg => segments_lt hg) (segments_length a)

theorem ipv6FromStr_ipv6ToString (a : Ipv6Addr) : ipv6FromStr (ipv6ToString a) = some a := by
  have hvalue : ofDigits 65536 (segments a) = a.toNat := by
    rw [segments_eq, ofDigits_digitsOf]
    exact Nat.mod_eq_of_lt a.isLt
  rw [ipv6FromStr, parseWith, readIpv6Addr_ipv6ToString]
  simp only [Option.map_some, hvalue, BitVec.ofNat_toNat, BitVec.setWidth_eq]

/-! What the texts are made of. -/

def IpChar (c : Char) : Prop := isDigit 16 c = true ∨ c = '.' ∨ c = ':'

theorem ipChar_toDigits {base : ℕ} (hbase : 1 < base) (hle : base ≤ 16) {n : ℕ} {c : Char}
    (h : c ∈ Nat.toDigits base n) : IpChar c := by
  obtain ⟨d, hd, rfl⟩ := mem_toDigits hbase h
  left
  rw [isDigit, toDigit_digitChar (by omega) le_rfl]
  rfl

theorem ipChar_ipv4ToString (a : Ipv4Addr) : ∀ c ∈ (ipv4ToString a).toList, IpChar c := by
  have hdigits : ∀ {n : ℕ} {c : Char}, c ∈ Nat.toDigits 10 n → IpChar c :=
    fun h => ipChar_toDigits (by omega) (by omega) h
  obtain ⟨one, two, three, four, -, htext⟩ := ipv4ToString_toList a
  intro c hc
  simp only [htext, List.mem_append, List.mem_cons, List.not_mem_nil, or_false] at hc
  rcases hc with h | rfl | h | rfl | h | rfl | h
  · exact hdigits h
  · exact .inr (.inl rfl)
  · exact hdigits h
  · exact .inr (.inl rfl)
  · exact hdigits h
  · exact .inr (.inl rfl)
  · exact hdigits h

theorem ipChar_formatSegments {segments : List ℕ} {c : Char} (h : c ∈ formatSegments segments) :
    IpChar c := by
  cases segments with
  | nil => cases h
  | cons g groups =>
    rw [formatSegments_cons, colons, List.mem_append, List.mem_flatMap] at h
    rcases h with h | ⟨g, -, h⟩
    · exact ipChar_toDigits (by omega) le_rfl h
    · rcases List.mem_cons.mp h with rfl | h
      · exact .inr (.inr rfl)
      · exact ipChar_toDigits (by omega) le_rfl h

theorem ipChar_ipv6ToString (a : Ipv6Addr) : ∀ c ∈ (ipv6ToString a).toList, IpChar c := by
  intro c hc
  unfold ipv6ToString at hc
  simp only at hc
  split_ifs at hc with hmapped hrun
  · rw [String.toList_ofList] at hc
    rcases List.mem_append.mp hc with h | h
    · have hchars : "::ffff:".toList = [':', ':', 'f', 'f', 'f', 'f', ':'] := rfl
      have hf : isDigit 16 'f' = true := by decide
      simp only [hchars, List.mem_cons, List.not_mem_nil, or_false] at h
      rcases h with rfl | rfl | rfl | rfl | rfl | rfl | rfl <;> simp [IpChar, hf]
    · exact ipChar_ipv4ToString _ c h
  · rw [String.toList_ofList, List.append_assoc] at hc
    rcases List.mem_append.mp hc with h | h
    · exact ipChar_formatSegments h
    · rcases List.mem_append.mp h with h | h
      · have hcolons : "::".toList = List.replicate 2 ':' := rfl
        rw [hcolons] at h
        exact .inr (.inr (List.eq_of_mem_replicate h))
      · exact ipChar_formatSegments h
  · rw [String.toList_ofList] at hc
    exact ipChar_formatSegments hc

end Weverywhere.IpAddresses
