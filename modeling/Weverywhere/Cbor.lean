import Weverywhere.ByteStrings
import Mathlib.Algebra.Ring.Int.Defs

/-!
Concise binary object representation: integers, byte strings, texts, arrays and
maps with definite lengths. An item starts with a head, a major type and an
argument in its shortest form; the reader accepts any form of the argument and
is bounded by a nesting depth. Reading an encoded value gives it back.
-/
namespace Weverywhere.Cbor

open ByteStrings

/-- The `width` low bytes of `value`, most significant first. -/
def beBytes (width value : ℕ) : Bytes := (leBytes width value).reverse

def ofBeBytes (bytes : Bytes) : ℕ := bytes.foldl (fun value b => value * 256 + b.toNat) 0

@[simp] theorem beBytes_length (width value : ℕ) : (beBytes width value).length = width := by
  simp [beBytes]

theorem ofBeBytes_beBytes (width value : ℕ) (h : value < 256 ^ width) :
    ofBeBytes (beBytes width value) = value := by
  induction width generalizing value with
  | zero =>
    simp only [Nat.pow_zero, Nat.lt_one_iff] at h
    rw [h]
    rfl
  | succ width ih =>
    have hhigh : value / 256 < 256 ^ width := by
      rw [Nat.pow_succ, Nat.mul_comm] at h
      exact Nat.div_lt_of_lt_mul h
    have hread := ih (value / 256) hhigh
    simp only [ofBeBytes, beBytes, leBytes, List.reverse_cons, List.foldl_append,
      List.foldl_cons, List.foldl_nil, UInt8.toNat_ofNat'] at hread ⊢
    rw [hread]
    omega

/-- The initial byte of an item: three bits of major type, five of information. -/
def initialByte (major info : ℕ) : UInt8 := UInt8.ofNat (major * 32 + info)

theorem toNat_initialByte (major info : ℕ) (hmajor : major < 8) (hinfo : info < 32) :
    (initialByte major info).toNat = major * 32 + info := by
  rw [initialByte, UInt8.toNat_ofNat']
  omega

/-- The initial byte put together from its bits. -/
theorem initialByte_eq_or {major info : ℕ} (hinfo : info < 32) :
    UInt8.ofNat (major <<< 5) ||| UInt8.ofNat info = initialByte major info := by
  have hsplit : major <<< 5 + info = major <<< 5 ||| info :=
    Nat.shiftLeft_add_eq_or_of_lt hinfo major
  rw [initialByte, ← UInt8.ofNat_or, ← hsplit, Nat.shiftLeft_eq]

/-- The head of an item, its argument in the shortest form. -/
def head (major n : ℕ) : Bytes :=
  if n < 24 then [initialByte major n]
  else if n < 2 ^ 8 then initialByte major 24 :: beBytes 1 n
  else if n < 2 ^ 16 then initialByte major 25 :: beBytes 2 n
  else if n < 2 ^ 32 then initialByte major 26 :: beBytes 4 n
  else initialByte major 27 :: beBytes 8 n

/-- The number of bytes of a head. -/
def headLength (n : ℕ) : ℕ :=
  if n < 24 then 1 else if n < 2 ^ 8 then 2 else if n < 2 ^ 16 then 3
  else if n < 2 ^ 32 then 5 else 9

@[simp] theorem head_length (major n : ℕ) : (head major n).length = headLength n := by
  unfold head headLength
  split_ifs <;> simp

theorem headLength_pos (n : ℕ) : 0 < headLength n := by
  unfold headLength
  split_ifs <;> omega

theorem headLength_of_lt {n : ℕ} (hn : n < 24) : headLength n = 1 := if_pos hn

theorem headLength_le (n : ℕ) : headLength n ≤ 9 := by
  unfold headLength
  split_ifs <;> omega

def readArgument (width : ℕ) (bytes : Bytes) : Option (ℕ × Bytes) :=
  if width ≤ bytes.length then some (ofBeBytes (bytes.take width), bytes.drop width) else none

theorem readArgument_beBytes (width n : ℕ) (hn : n < 256 ^ width) (rest : Bytes) :
    readArgument width (beBytes width n ++ rest) = some (n, rest) := by
  have htake : (beBytes width n ++ rest).take width = beBytes width n := by simp
  have hdrop : (beBytes width n ++ rest).drop width = rest := by simp
  rw [readArgument, if_pos (by simp), htake, hdrop, ofBeBytes_beBytes width n hn]

/-- The width of the argument announced by the information bits; the values 28
to 31 are reserved or announce an indefinite length. -/
def argumentWidth (info : ℕ) : Option ℕ :=
  match info with
  | 24 => some 1
  | 25 => some 2
  | 26 => some 4
  | 27 => some 8
  | _ => none

/-- A head is one byte, or a byte that announces a width and an argument of that
width. -/
theorem head_cases {n : ℕ} (hn : n < 2 ^ 64) :
    n < 24 ∧ headLength n = 1 ∧ (∀ major, head major n = [initialByte major n]) ∨
    ∃ info width, argumentWidth info = some width ∧ width ≤ 8 ∧ n < 256 ^ width ∧
      headLength n = width + 1 ∧
      ∀ major, head major n = initialByte major info :: beBytes width n := by
  unfold head headLength
  split_ifs with h24 h8 h16 h32
  · exact .inl ⟨h24, rfl, fun _ => rfl⟩
  · exact .inr ⟨24, 1, rfl, by omega, by omega, rfl, fun _ => rfl⟩
  · exact .inr ⟨25, 2, rfl, by omega, by omega, rfl, fun _ => rfl⟩
  · exact .inr ⟨26, 4, rfl, by omega, by omega, rfl, fun _ => rfl⟩
  · exact .inr ⟨27, 8, rfl, by omega, by omega, rfl, fun _ => rfl⟩

/-- The major type and the argument at the front of `bytes`, and what follows. -/
def readHead : Bytes → Option (ℕ × ℕ × Bytes)
  | [] => none
  | b :: rest =>
    let major := b.toNat / 32
    let info := b.toNat % 32
    if info < 24 then some (major, info, rest)
    else do
      let width ← argumentWidth info
      let (n, rest) ← readArgument width rest
      pure (major, n, rest)

theorem readHead_short (major n : ℕ) (hmajor : major < 8) (hn : n < 24) (rest : Bytes) :
    readHead (initialByte major n :: rest) = some (major, n, rest) := by
  have hbyte := toNat_initialByte major n hmajor (by omega)
  have hhigh : (major * 32 + n) / 32 = major := by omega
  have hlow : (major * 32 + n) % 32 = n := by omega
  simp only [readHead, hbyte, hhigh, hlow, hn, if_true]

theorem readHead_long (major info width n : ℕ) (hmajor : major < 8) (hlong : 24 ≤ info)
    (hinfo : info < 32) (hwidth : argumentWidth info = some width) (hn : n < 256 ^ width)
    (rest : Bytes) :
    readHead (initialByte major info :: beBytes width n ++ rest) = some (major, n, rest) := by
  have hbyte := toNat_initialByte major info hmajor hinfo
  have hhigh : (major * 32 + info) / 32 = major := by omega
  have hlow : (major * 32 + info) % 32 = info := by omega
  have hnot : ¬ info < 24 := by omega
  simp only [List.cons_append, readHead, hbyte, hhigh, hlow, hnot, if_false, hwidth,
    Option.bind_eq_bind, Option.bind_some, readArgument_beBytes width n hn rest, Option.pure_def]

theorem readHead_head (major n : ℕ) (hmajor : major < 8) (hn : n < 2 ^ 64) (rest : Bytes) :
    readHead (head major n ++ rest) = some (major, n, rest) := by
  unfold head
  split_ifs with h24 h8 h16 h32
  · exact readHead_short major n hmajor h24 rest
  · exact readHead_long major 24 1 n hmajor (by omega) (by omega) rfl (by omega) rest
  · exact readHead_long major 25 2 n hmajor (by omega) (by omega) rfl (by omega) rest
  · exact readHead_long major 26 4 n hmajor (by omega) (by omega) rfl (by omega) rest
  · exact readHead_long major 27 8 n hmajor (by omega) (by omega) rfl (by omega) rest

inductive Value
  | integer (i : ℤ)
  | bytes (b : Bytes)
  | text (s : String)
  | array (items : List Value)
  | map (entries : List (Value × Value))

/-! Encoding. -/

mutual

def encode : Value → Bytes
  | .integer i => if 0 ≤ i then head 0 i.toNat else head 1 (-1 - i).toNat
  | .bytes b => head 2 b.length ++ b
  | .text s => head 3 (utf8 s).length ++ utf8 s
  | .array items => head 4 items.length ++ encodeItems items
  | .map entries => head 5 entries.length ++ encodeEntries entries

def encodeItems : List Value → Bytes
  | [] => []
  | v :: items => encode v ++ encodeItems items

def encodeEntries : List (Value × Value) → Bytes
  | [] => []
  | (k, v) :: entries => encode k ++ encode v ++ encodeEntries entries

end

theorem encode_bytes (b : Bytes) : encode (.bytes b) = head 2 b.length ++ b := by
  rw [encode]

theorem encode_text (s : String) : encode (.text s) = head 3 (utf8 s).length ++ utf8 s := by
  rw [encode]

theorem encode_map (entries : List (Value × Value)) :
    encode (.map entries) = head 5 entries.length ++ encodeEntries entries := by
  rw [encode]

theorem encodeItems_eq_flatMap (items : List Value) : encodeItems items = items.flatMap encode := by
  induction items with
  | nil => simp [encodeItems]
  | cons v items ih => simp [encodeItems, ih]

theorem encodeEntries_eq_flatMap (entries : List (Value × Value)) :
    encodeEntries entries = entries.flatMap fun kv => encode kv.1 ++ encode kv.2 := by
  induction entries with
  | nil => simp [encodeEntries]
  | cons kv entries ih => simp [encodeEntries, ih]

/-- Values nested at most `depth` deep whose integers and lengths fit a head. -/
def Serializable : ℕ → Value → Prop
  | 0, _ => False
  | _ + 1, .integer i => -2 ^ 64 ≤ i ∧ i < 2 ^ 64
  | _ + 1, .bytes b => b.length < 2 ^ 64
  | _ + 1, .text s => (utf8 s).length < 2 ^ 64
  | depth + 1, .array items => items.length < 2 ^ 64 ∧ ∀ v ∈ items, Serializable depth v
  | depth + 1, .map entries =>
      entries.length < 2 ^ 64 ∧ ∀ kv ∈ entries, Serializable depth kv.1 ∧ Serializable depth kv.2

/-! Reading. -/

/-- Exactly `n` items, one after the other. -/
def readMany {α : Type} (item : Bytes → Option (α × Bytes)) : ℕ → Bytes → Option (List α × Bytes)
  | 0, bytes => some ([], bytes)
  | n + 1, bytes => do
    let (x, rest) ← item bytes
    let (xs, rest) ← readMany item n rest
    pure (x :: xs, rest)

def readPair {α : Type} (item : Bytes → Option (α × Bytes)) (bytes : Bytes) :
    Option ((α × α) × Bytes) := do
  let (k, rest) ← item bytes
  let (v, rest) ← item rest
  pure ((k, v), rest)

def readBytes (n : ℕ) (bytes : Bytes) : Option (Bytes × Bytes) :=
  if n ≤ bytes.length then some (bytes.take n, bytes.drop n) else none

def ofUtf8 (bytes : Bytes) : Option String := String.fromUTF8? ⟨bytes.toArray⟩

/-- One value at the front of `bytes`, and what follows it. -/
def readValue : ℕ → Bytes → Option (Value × Bytes)
  | 0, _ => none
  | depth + 1, bytes => do
    let (major, n, rest) ← readHead bytes
    match major with
    | 0 => pure (.integer n, rest)
    | 1 => pure (.integer (-1 - n), rest)
    | 2 => do
      let (b, rest) ← readBytes n rest
      pure (.bytes b, rest)
    | 3 => do
      let (b, rest) ← readBytes n rest
      let s ← ofUtf8 b
      pure (.text s, rest)
    | 4 => do
      let (items, rest) ← readMany (readValue depth) n rest
      pure (.array items, rest)
    | 5 => do
      let (entries, rest) ← readMany (readPair (readValue depth)) n rest
      pure (.map entries, rest)
    | _ => none

/-- A whole byte string that is one value. -/
def decode (depth : ℕ) (bytes : Bytes) : Option Value :=
  match readValue depth bytes with
  | some (v, []) => some v
  | _ => none

theorem readMany_flatMap {α : Type} (item : Bytes → Option (α × Bytes)) (write : α → Bytes)
    (xs : List α) (h : ∀ x ∈ xs, ∀ rest, item (write x ++ rest) = some (x, rest)) (rest : Bytes) :
    readMany item xs.length (xs.flatMap write ++ rest) = some (xs, rest) := by
  induction xs with
  | nil => simp [readMany]
  | cons x xs ih =>
    have hx := h x (by simp) (xs.flatMap write ++ rest)
    have hxs := ih fun y hy => h y (List.mem_cons_of_mem x hy)
    simp only [List.length_cons, List.flatMap_cons, List.append_assoc, readMany, hx, hxs,
      Option.bind_eq_bind, Option.bind_some, Option.pure_def]

theorem readPair_append {α : Type} (item : Bytes → Option (α × Bytes)) (write : α → Bytes)
    (kv : α × α) (hk : ∀ rest, item (write kv.1 ++ rest) = some (kv.1, rest))
    (hv : ∀ rest, item (write kv.2 ++ rest) = some (kv.2, rest)) (rest : Bytes) :
    readPair item (write kv.1 ++ write kv.2 ++ rest) = some (kv, rest) := by
  simp only [readPair, List.append_assoc, hk, hv, Option.bind_eq_bind, Option.bind_some,
    Option.pure_def]

theorem readBytes_append (b rest : Bytes) : readBytes b.length (b ++ rest) = some (b, rest) := by
  simp [readBytes]

theorem readBytes_eq_some {n : ℕ} {bytes content rest : Bytes}
    (h : readBytes n bytes = some (content, rest)) :
    bytes = content ++ rest ∧ content.length = n := by
  unfold readBytes at h
  split_ifs at h with hlength
  obtain ⟨rfl, rfl⟩ := Prod.mk.inj (Option.some.inj h)
  exact ⟨(List.take_append_drop n bytes).symm, by simp [hlength]⟩

theorem ofUtf8_utf8 (s : String) : ofUtf8 (utf8 s) = some s := by
  have hbytes : (⟨(utf8 s).toArray⟩ : ByteArray) = s.toByteArray := by simp [utf8]
  rw [ofUtf8, hbytes, String.fromUTF8?, dif_pos s.isValidUTF8]
  rfl

theorem eq_utf8_of_ofUtf8 {b : Bytes} {s : String} (h : ofUtf8 b = some s) : b = utf8 s := by
  rw [ofUtf8, String.fromUTF8?] at h
  split_ifs at h
  rw [← Option.some.inj h]
  rfl

/-- Reading undoes encoding and stops where the encoding stops. -/
theorem readValue_encode (depth : ℕ) (v : Value) (hv : Serializable depth v) (rest : Bytes) :
    readValue depth (encode v ++ rest) = some (v, rest) := by
  induction depth generalizing v rest with
  | zero => exact hv.elim
  | succ depth ih =>
    cases v with
    | integer i =>
      obtain ⟨hlow, hhigh⟩ := hv
      by_cases hi : 0 ≤ i
      · have hback : ((i.toNat : ℕ) : ℤ) = i := Int.toNat_of_nonneg hi
        simp [encode, hi, readValue, readHead_head 0 i.toNat (by omega) (by omega) rest, hback]
      · have hback : -1 - (((-1 - i).toNat : ℕ) : ℤ) = i := by omega
        simp only [encode, hi, if_false, readValue,
          readHead_head 1 (-1 - i).toNat (by omega) (by omega) rest, Option.bind_eq_bind,
          Option.bind_some, hback, Option.pure_def]
    | bytes b =>
      simp [encode, readValue, readHead_head 2 b.length (by omega) hv, readBytes_append]
    | text s =>
      simp [encode, readValue, readHead_head 3 (utf8 s).length (by omega) hv, readBytes_append,
        ofUtf8_utf8]
    | array items =>
      obtain ⟨hlength, hitems⟩ := hv
      have hmany := readMany_flatMap (readValue depth) encode items
        (fun v hv rest => ih v (hitems v hv) rest) rest
      simp [encode, readValue, readHead_head 4 items.length (by omega) hlength,
        encodeItems_eq_flatMap, hmany]
    | map entries =>
      obtain ⟨hlength, hentries⟩ := hv
      have hmany := readMany_flatMap (readPair (readValue depth))
        (fun kv => encode kv.1 ++ encode kv.2) entries
        (fun kv hkv => readPair_append (readValue depth) encode kv
          (ih kv.1 (hentries kv hkv).1) (ih kv.2 (hentries kv hkv).2)) rest
      simp only [encode, List.append_assoc, readValue,
        readHead_head 5 entries.length (by omega) hlength, encodeEntries_eq_flatMap, hmany,
        Option.bind_eq_bind, Option.bind_some, Option.pure_def]

/-- Round trip. -/
theorem decode_encode (depth : ℕ) (v : Value) (hv : Serializable depth v) :
    decode depth (encode v) = some v := by
  have hread := readValue_encode depth v hv []
  rw [List.append_nil] at hread
  rw [decode, hread]

/-! Maps with integer keys. -/

def isKey (key : ℤ) : Value → Bool
  | .integer i => i == key
  | _ => false

/-- The first value stored under an integer key. -/
def lookup (key : ℤ) (entries : List (Value × Value)) : Option Value :=
  (entries.find? fun kv => isKey key kv.1).map Prod.snd

def integerAt (key : ℤ) (entries : List (Value × Value)) : Option ℤ :=
  match lookup key entries with
  | some (.integer i) => some i
  | _ => none

def bytesAt (key : ℤ) (entries : List (Value × Value)) : Option Bytes :=
  match lookup key entries with
  | some (.bytes b) => some b
  | _ => none

def textAt (key : ℤ) (entries : List (Value × Value)) : Option String :=
  match lookup key entries with
  | some (.text s) => some s
  | _ => none

/-- A serializer that may fail and, on what a head can hold, writes standard
items. -/
def StandardEncoder (toVec : Value → Option Bytes) : Prop :=
  ∀ depth v, Serializable depth v → toVec v = some (encode v)

theorem standardEncoder_encode : StandardEncoder fun v => some (encode v) := fun _ _ _ => rfl

end Weverywhere.Cbor
