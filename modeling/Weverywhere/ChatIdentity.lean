import Weverywhere.ChatSafety

/-!
Who a line of the transcript says it is from (`src/example-programs/chat.c`). The
name is whatever the sender chose; the id in brackets behind it is taken from the
verified key. The name is shortened as if the id needed no room, so a long one
leaves none for it.
-/
namespace Weverywhere.ChatIdentity

open ByteStrings Cbor MessageLog MessagesRead Chat ChatWalk

/-! What a line is to say. -/

/-- What stands behind the sender. -/
inductive Say
  | joined
  | left
  | text (bytes : Bytes)
  deriving DecidableEq

/-- A message as a line of the transcript presents it. -/
structure Spoken where
  name : Bytes
  pubkey : Bytes
  say : Say

namespace Spoken

/-- The name, behind the mark of a notice. -/
def heading (s : Spoken) : Bytes :=
  match s.say with
  | .joined => utf8 "*** " ++ s.name
  | .left => utf8 "*** " ++ s.name
  | .text _ => s.name

/-- The short id in brackets. -/
def ident (s : Spoken) : Bytes := utf8 " (" ++ utf8 (shortId s.pubkey) ++ utf8 ")"

/-- The line has the whole id behind as much of the name as is ever shown. -/
def ShowsId (s : Spoken) (line : Bytes) : Prop := (s.heading.take (LINEW - 2) ++ s.ident) <+: line

/-- There is room for the id. Where only its closing bracket has none, a text that
begins with one supplies it. -/
def Fits (s : Spoken) : Prop :=
  s.heading.length ≤ 187 ∨
    s.heading.length ≤ 189 ∧ ∃ bytes, s.say = .text (41 :: bytes)

/-- What is written behind the sender. -/
def rest (s : Spoken) : Bytes :=
  match s.say with
  | .joined => joinedText
  | .left => leftText
  | .text bytes => if s.heading.length < 187 then 58 :: 32 :: bytes else bytes

/-- The room for the id behind a heading of so many bytes. Its digits come in pairs, and
the loop stops before a pair, not in it. -/
def idRoom (length : ℕ) : ℕ := if length ≤ 196 then 2 * ((199 - length) / 2) else 198 - length

/-- The line that is composed: the heading, the id and what is said, each as far as there
is room for it. -/
def line (s : Spoken) : Bytes :=
  (s.heading.take (LINEW - 2) ++ s.ident.take (idRoom s.heading.length) ++ s.rest).take LINEW

/-- What follows the id. -/
def tail (s : Spoken) : Bytes := if s.heading.length ≤ 187 then s.rest else s.rest.drop 1

/-- As much of it as the line has room for. -/
def visibleTail (s : Spoken) : Bytes := s.tail.take (LINEW - (s.heading ++ s.ident).length)

/-- The name of the one begins with the sender of the other, and what the other says
goes on with the rest of that name, the id and the tail behind it. -/
def Mimics (s s' : Spoken) : Prop :=
  ∃ w, s.heading = s'.heading ++ s'.ident ++ w ∧ s'.visibleTail = w ++ s.ident ++ s.visibleTail

end Spoken

/-! What the messages of a reply are to say. -/

/-- A reply as `host::messages_read` leaves it in `rbuf`. -/
structure Reply where
  mem : Memory
  msgs : List StoredMessage
  seq_lt : ∀ m ∈ msgs, m.seq < 2 ^ 64
  length_lt : (encode (.array (msgs.map toValue))).length < 2 ^ 31
  held : Holds mem 0 (encode (.array (msgs.map toValue)))

namespace Reply

def poll (r : Reply) (after : Int64) (transcript : Transcript) : Poll :=
  pollMessages r.mem (encode (.array (r.msgs.map toValue))).length after transcript

/-- Where a record lies. -/
def place (r : Reply) (i : ℕ) : ℤ :=
  headLength r.msgs.length + (encodeItems ((r.msgs.take i).map toValue)).length

/-- What `shown` has found in the payload. -/
def sayOf (mem : Memory) (shown : Shown) : Say :=
  if shown.kind = Kind.join.toNat then .joined
  else if shown.kind = Kind.leave.toNat then .left
  else .text (bytesFrom mem shown.dispP shown.dispL.toNat)

def spoken (r : Reply) (i : ℕ) (m : StoredMessage) : Spoken where
  name := utf8 m.fromName
  pubkey := m.fromPubkey
  say := sayOf r.mem (decodePayload r.mem (r.place i + textOff m) m.text.length)

end Reply

/-- A poll has appended the line to the transcript for the message. -/
structure Heard (r : Reply) (i : ℕ) (m : StoredMessage) (line : Bytes) : Prop where
  pubkey : m.fromPubkey.length = 32
  message : r.msgs[i]? = some m
  turn : ∃ after transcript t, (r.poll after transcript).turns[i]? = some t ∧
    t.line.comp.take LINEW = line

/-! The id. -/

/-- The digits the loop writes for one byte. -/
def hexPair (b : UInt8) : Bytes := [hexDigit (b >>> 4), hexDigit (b &&& 0xf)]

theorem utf8EncodeChar_digitChar {d : ℕ} (hd : d < 16) :
    String.utf8EncodeChar (Nat.digitChar d) = [hexDigit (UInt8.ofNat d)] := by
  have hall : ∀ d < 16, String.utf8EncodeChar (Nat.digitChar d) = [hexDigit (UInt8.ofNat d)] := by
    decide
  exact hall d hd

theorem shiftRight_four (b : UInt8) : b >>> 4 = UInt8.ofNat (b.toNat / 16) := by
  have hb := b.toNat_lt
  have hfour : (4 : UInt8).toNat % 8 = 4 := rfl
  apply UInt8.toNat_inj.mp
  rw [UInt8.toNat_shiftRight, hfour, Nat.shiftRight_eq_div_pow, UInt8.toNat_ofNat']
  omega

theorem and_fifteen (b : UInt8) : b &&& 0xf = UInt8.ofNat (b.toNat % 16) := by
  have hmask : b.toNat &&& 15 = b.toNat % 16 := Nat.and_two_pow_sub_one_eq_mod b.toNat 4
  have hlow : (0xf : UInt8).toNat = 15 := rfl
  apply UInt8.toNat_inj.mp
  rw [UInt8.toNat_and, hlow, hmask, UInt8.toNat_ofNat']
  omega

/-- The program writes the digits that `to_hex` does. -/
theorem utf8_hex (bytes : Bytes) : utf8 (hex bytes) = bytes.flatMap hexPair := by
  rw [hex, utf8_ofList, List.flatMap_assoc]
  congr 1
  funext b
  have hb := b.toNat_lt
  rw [hexPair, shiftRight_four, and_fifteen, hexDigits, List.flatMap_cons, List.flatMap_cons,
    List.flatMap_nil, List.append_nil, utf8EncodeChar_digitChar (by omega),
    utf8EncodeChar_digitChar (by omega), List.singleton_append]

theorem hexDigit_ne {d : ℕ} (hd : d < 16) : hexDigit (UInt8.ofNat d) ≠ 41 := by
  have hall : ∀ d < 16, hexDigit (UInt8.ofNat d) ≠ 41 := by decide
  exact hall d hd

/-- No digit is a closing bracket. -/
theorem not_mem_hexPair (b : UInt8) : 41 ∉ hexPair b := by
  have hb := b.toNat_lt
  rw [hexPair, shiftRight_four, and_fifteen]
  intro hmem
  rcases List.mem_cons.mp hmem with h | h
  · exact hexDigit_ne (by omega) h.symm
  · exact hexDigit_ne (by omega) (List.mem_singleton.mp h).symm

/-- The id up to its closing bracket. -/
def opening (pubkey : Bytes) : Bytes := 32 :: 40 :: (pubkey.take 4).flatMap hexPair

theorem ident_eq (s : Spoken) : s.ident = opening s.pubkey ++ [41] := by
  have hopen : utf8 " (" = [32, 40] := rfl
  have hclose : utf8 ")" = [41] := rfl
  have htake : s.pubkey.take (min s.pubkey.length 4) = s.pubkey.take 4 := by
    rw [Nat.min_comm, ← List.take_take, List.take_length]
  rw [Spoken.ident, shortId, htake, utf8_hex, hopen, hclose]
  rfl

theorem hexPairs_length (bytes : Bytes) : (bytes.flatMap hexPair).length = 2 * bytes.length := by
  induction bytes with
  | nil => rfl
  | cons b bytes ih =>
    rw [List.flatMap_cons, List.length_append, ih, List.length_cons]
    show 2 + _ = _
    omega

theorem opening_length {pubkey : Bytes} (h : pubkey.length = 32) :
    (opening pubkey).length = 10 := by
  rw [opening, List.length_cons, List.length_cons, hexPairs_length, List.length_take, h]
  rfl

theorem not_mem_opening (pubkey : Bytes) : 41 ∉ opening pubkey := by
  intro hmem
  rcases List.mem_cons.mp hmem with h | hmem
  · exact absurd h (by decide)
  · rcases List.mem_cons.mp hmem with h | hmem
    · exact absurd h (by decide)
    · obtain ⟨b, -, hb⟩ := List.mem_flatMap.mp hmem
      exact not_mem_hexPair b hb

/-! The composition. -/

theorem comp_putBelow_of_room {l : Line} {limit : ℕ} (h : l.comp.length < limit) (b : UInt8) :
    (l.putBelow limit b).comp = l.comp ++ [b] := by
  rw [Line.putBelow, if_pos h, Line.put]

theorem comp_putBelow_of_full {l : Line} {limit : ℕ} (h : ¬ l.comp.length < limit) (b : UInt8) :
    (l.putBelow limit b).comp = l.comp := by
  rw [Line.putBelow, if_neg h]

theorem bytesFrom_min (mem : Memory) (p : ℤ) (n k : ℕ) :
    bytesFrom mem p (min n k) = (bytesFrom mem p n).take k := by
  rw [bytesFrom, bytesFrom, ← List.map_take, List.take_range, Nat.min_comm]

/-- The copy keeps the longest prefix that fits. -/
theorem comp_copy {l : Line} {limit : ℕ} (h : l.comp.length ≤ limit) (mem : Memory)
    (src len : ℤ) : (l.copy mem limit src len).comp =
      (l.comp ++ bytesFrom mem src len.toNat).take limit := by
  rw [Line.copy, List.take_append, List.take_of_length_le h]
  dsimp only
  rw [bytesFrom_min]

theorem comp_putText {l : Line} (h : l.comp.length ≤ LINEW) (text : Bytes) :
    (putText l text).comp = (l.comp ++ text).take LINEW := by
  rw [← BoundedBuffer.Buffer.items_pushAll ⟨l.comp, h⟩ text]
  generalize hb : (⟨l.comp, h⟩ : BoundedBuffer.Buffer UInt8 LINEW) = b
  have hitems : l.comp = b.items := by rw [← hb]
  clear hb h
  induction text generalizing l b with
  | nil => exact hitems
  | cons x text ih =>
    rw [putText, List.foldl_cons, ← putText, BoundedBuffer.Buffer.pushAll_cons]
    apply ih
    by_cases hroom : l.comp.length < LINEW
    · rw [comp_putBelow_of_room hroom, BoundedBuffer.Buffer.items_push (hitems ▸ hroom), hitems]
    · rw [comp_putBelow_of_full hroom, BoundedBuffer.Buffer.push_of_full (hitems ▸ hroom), hitems]

theorem comp_putHex {mem : Memory} {pkP : ℤ} {l : Line} {k : ℕ} (h : l.comp.length + 2 < LINEW) :
    (putHex mem pkP l k).comp = l.comp ++ hexPair (mem (pkP + k)) := by
  have hlinew : LINEW = 200 := rfl
  rw [putHex, if_pos (by omega)]
  dsimp only
  rw [comp_putBelow_of_room, comp_putBelow_of_room (by dsimp only; omega)]
  · exact List.append_assoc _ _ _
  · rw [comp_putBelow_of_room (by dsimp only; omega), List.length_append]
    show l.comp.length + 1 < _
    omega

theorem putHex_of_full {mem : Memory} {pkP : ℤ} {l : Line} {k : ℕ}
    (h : ¬ l.comp.length < LINEW - 2) : putHex mem pkP l k = l := by
  rw [putHex, if_neg h]

/-- The loop writes the pairs of digits that begin before the limit. -/
theorem comp_foldl_putHex {mem : Memory} {pkP : ℤ} {l : Line} (n : ℕ)
    (h : l.comp.length ≤ LINEW - 2) :
    ((List.range n).foldl (putHex mem pkP) l).comp = l.comp ++
      ((bytesFrom mem pkP n).flatMap hexPair).take (2 * ((LINEW - 1 - l.comp.length) / 2)) := by
  have hlinew : LINEW = 200 := rfl
  generalize hroom : 2 * ((LINEW - 1 - l.comp.length) / 2) = room
  induction n with
  | zero => simp [bytesFrom]
  | succ n ih =>
    have hone : bytesFrom mem (pkP + n) 1 = [mem (pkP + n)] := by simp [bytesFrom]
    have hpairs : (bytesFrom mem pkP (n + 1)).flatMap hexPair =
        (bytesFrom mem pkP n).flatMap hexPair ++ hexPair (mem (pkP + n)) := by
      rw [bytesFrom_add, List.flatMap_append, hone, List.flatMap_singleton]
    have hbefore : ((bytesFrom mem pkP n).flatMap hexPair).length = 2 * n := by
      rw [hexPairs_length, bytesFrom_length]
    have hpair : (hexPair (mem (pkP + n))).length = 2 := rfl
    have hlong := congrArg List.length ih
    rw [List.length_append, List.length_take, hbefore] at hlong
    rw [List.range_succ, List.foldl_append, List.foldl_cons, List.foldl_nil, hpairs]
    by_cases hfits : l.comp.length + 2 * n < LINEW - 2
    · rw [comp_putHex (by omega), ih, List.take_of_length_le (by omega),
        List.take_of_length_le (by rw [List.length_append]; omega), List.append_assoc]
    · rw [putHex_of_full (by omega), ih, List.take_append_of_le_length (by omega)]

/-- The record points at the name and at the key. -/
structure Names (mem : Memory) (r : Record) (name pubkey : Bytes) : Prop where
  name : bytesFrom mem r.nameP r.nameL.toNat = name
  pubkey : bytesFrom mem r.pkP 4 = pubkey.take 4
  pubkey_low : 0 ≤ r.pkP
  pubkey_length : r.pkL = 32

variable {mem : Memory} {r : Record} {name pubkey : Bytes} {l : Line} {heading : Bytes}

/-- The digits and the bracket that closes them, by the room that is left. The bracket is
written when all the digits were. -/
theorem comp_digits {l : Line} {digits : Bytes} (h : l.comp.length ≤ LINEW - 2)
    (hdigits : (bytesFrom mem r.pkP 4).flatMap hexPair = digits) :
    (((List.range 4).foldl (putHex mem r.pkP) l).putBelow (LINEW - 2) 41).comp =
      l.comp ++ (digits ++ [41]).take (2 * ((LINEW - 1 - l.comp.length) / 2)) := by
  have hlinew : LINEW = 200 := rfl
  have hlength : digits.length = 8 := by rw [← hdigits, hexPairs_length, bytesFrom_length]
  have hpairs := @comp_foldl_putHex mem r.pkP l 4 h
  rw [hdigits] at hpairs
  have hwritten := congrArg List.length hpairs
  rw [List.length_append, List.length_take, hlength] at hwritten
  by_cases hclosed : 2 * ((LINEW - 1 - l.comp.length) / 2) ≤ 8
  · rw [comp_putBelow_of_full (by omega), hpairs, List.take_append_of_le_length (by omega)]
  · rw [comp_putBelow_of_room (by omega), hpairs, List.take_of_length_le (by omega),
      List.take_of_length_le (by rw [List.length_append, List.length_singleton]; omega),
      List.append_assoc]

/-- The blank and the bracket before them. -/
theorem comp_opened {l : Line} (h : l.comp.length ≤ LINEW - 2) :
    ((l.putBelow (LINEW - 2) 32).putBelow (LINEW - 2) 40).comp =
      l.comp ++ [32, 40].take (LINEW - 2 - l.comp.length) := by
  rcases Nat.lt_or_ge l.comp.length (LINEW - 2) with hlt | hfull
  · have hblank : (l.putBelow (LINEW - 2) 32).comp = l.comp ++ [32] := comp_putBelow_of_room hlt _
    have hlength := congrArg List.length hblank
    rw [List.length_append, List.length_singleton] at hlength
    by_cases htwo : l.comp.length + 1 < LINEW - 2
    · rw [comp_putBelow_of_room (by omega), hblank, List.append_assoc,
        List.take_of_length_le (by simp; omega)]
      rfl
    · have hone : LINEW - 2 - l.comp.length = 1 := by omega
      rw [comp_putBelow_of_full (by omega), hblank, hone]
      rfl
  · have hnone : LINEW - 2 - l.comp.length = 0 := by omega
    have hblank : l.putBelow (LINEW - 2) 32 = l := by rw [Line.putBelow, if_neg (by omega)]
    rw [hblank, comp_putBelow_of_full (by omega), hnone, List.take_zero, List.append_nil]

/-- What is written behind the name, by the room that it leaves. -/
theorem comp_brackets {l : Line} {digits : Bytes} (h : l.comp.length ≤ LINEW - 2)
    (hdigits : (bytesFrom mem r.pkP 4).flatMap hexPair = digits) :
    let m := (l.putBelow (LINEW - 2) 32).putBelow (LINEW - 2) 40
    (((List.range 4).foldl (putHex mem r.pkP) m).putBelow (LINEW - 2) 41).comp =
      l.comp ++ (32 :: 40 :: digits ++ [41]).take (Spoken.idRoom l.comp.length) := by
  intro m
  have hlinew : LINEW = 200 := rfl
  have hopened : m.comp = l.comp ++ [32, 40].take (LINEW - 2 - l.comp.length) := comp_opened h
  have hlength := congrArg List.length hopened
  rw [List.length_append, List.length_take, List.length_cons, List.length_singleton] at hlength
  have hsplit : (32 :: 40 :: digits ++ [41] : Bytes) = [32, 40] ++ (digits ++ [41]) := rfl
  have hroom : Spoken.idRoom l.comp.length - 2 = 2 * ((LINEW - 1 - m.comp.length) / 2) := by
    rw [Spoken.idRoom]
    split_ifs <;> omega
  have hfirst : min 2 (Spoken.idRoom l.comp.length) = min 2 (LINEW - 2 - l.comp.length) := by
    rw [Spoken.idRoom]
    split_ifs <;> omega
  have htake : ([32, 40] ++ (digits ++ [41]) : Bytes).take (Spoken.idRoom l.comp.length) =
      [32, 40].take (Spoken.idRoom l.comp.length) ++
        (digits ++ [41]).take (Spoken.idRoom l.comp.length - 2) := List.take_append
  have hbrackets : ([32, 40] : Bytes).take (Spoken.idRoom l.comp.length) =
      [32, 40].take (LINEW - 2 - l.comp.length) := by
    rw [List.take_eq_take_iff]
    simpa [Nat.min_comm] using hfirst
  rw [comp_digits (by omega) hdigits, hsplit, htake, hroom, hbrackets, ← List.append_assoc,
    ← hopened]

/-- The sender, as far as there is room for it. -/
def sender (s : Spoken) : Bytes :=
  s.heading.take (LINEW - 2) ++ s.ident.take (Spoken.idRoom s.heading.length)

theorem comp_putIdent {s : Spoken} (h : Names mem r s.name s.pubkey)
    (hheading : l.comp ++ s.name = s.heading) (hstart : l.comp.length ≤ LINEW - 2) :
    (putIdent mem r l).comp = sender s := by
  have hlinew : LINEW = 200 := rfl
  have hname : (l.copy mem (LINEW - 2) r.nameP r.nameL).comp = s.heading.take (LINEW - 2) := by
    rw [comp_copy hstart, h.name, hheading]
  have hfour : min 4 r.pkL.toNat = 4 := by
    rw [h.pubkey_length]
    rfl
  have hkeyed : 0 ≤ r.pkP ∧ 0 < r.pkL := ⟨h.pubkey_low, by rw [h.pubkey_length]; omega⟩
  have hlength : (s.heading.take (LINEW - 2)).length = min (LINEW - 2) s.heading.length :=
    List.length_take
  have hroom : Spoken.idRoom (s.heading.take (LINEW - 2)).length =
      Spoken.idRoom s.heading.length := by
    rw [hlength, Spoken.idRoom, Spoken.idRoom]
    split_ifs <;> omega
  have hident : s.ident = 32 :: 40 :: (s.pubkey.take 4).flatMap hexPair ++ [41] := ident_eq s
  rw [putIdent, if_pos hkeyed, hfour]
  dsimp only
  rw [comp_brackets (by rw [hname, hlength]; omega) (by rw [h.pubkey]), hname, hroom, ← hident,
    sender]

theorem ident_length {s : Spoken} (hkey : s.pubkey.length = 32) : s.ident.length = 11 := by
  rw [ident_eq, List.length_append, opening_length hkey, List.length_singleton]

/-- There is room behind the sender exactly where the whole id is. -/
theorem sender_length {s : Spoken} (hkey : s.pubkey.length = 32) :
    (sender s).length ≤ LINEW ∧ ((sender s).length < LINEW - 2 ↔ s.heading.length < 187) := by
  have hlinew : LINEW = 200 := rfl
  have hident := ident_length hkey
  rw [sender, List.length_append, List.length_take, List.length_take, hident, Spoken.idRoom]
  split_ifs <;> omega

theorem comp_notice {s : Spoken} (h : Names mem r s.name s.pubkey) (hkey : s.pubkey.length = 32)
    (hheading : utf8 "*** " ++ s.name = s.heading) (verb : Bytes) :
    (putText (putIdent mem r (putText .empty (utf8 "*** "))) verb).comp =
      (sender s ++ verb).take LINEW := by
  have hmark : (putText .empty (utf8 "*** ")).comp = utf8 "*** " := by decide
  have hsender := comp_putIdent h (hmark ▸ hheading) (by rw [hmark]; decide)
  rw [comp_putText, hsender]
  rw [hsender]
  exact (sender_length hkey).1

theorem comp_text {s : Spoken} {bytes : Bytes} (h : Names mem r s.name s.pubkey)
    (hkey : s.pubkey.length = 32) (hsay : s.say = .text bytes)
    {src len : ℤ} (hbytes : bytesFrom mem src len.toNat = bytes) :
    let l := putIdent mem r .empty
    ((if l.comp.length < LINEW - 2 then (l.put 58).put 32 else l).copy mem LINEW src len).comp =
      (sender s ++ s.rest).take LINEW := by
  intro l
  have hlinew : LINEW = 200 := rfl
  have hheading : Line.empty.comp ++ s.name = s.heading := by
    rw [Spoken.heading, hsay]
    rfl
  have hsender : l.comp = sender s := comp_putIdent h hheading (Nat.zero_le _)
  obtain ⟨hlong, hroomIff⟩ := sender_length hkey
  have hrest : s.rest = if s.heading.length < 187 then 58 :: 32 :: bytes else bytes := by
    rw [Spoken.rest, hsay]
  rw [hsender]
  by_cases hroom : s.heading.length < 187
  · have hput : ((l.put 58).put 32).comp = sender s ++ [58] ++ [32] := by
      simp only [Line.put, hsender]
    have hputLength := congrArg List.length hput
    rw [List.length_append, List.length_append, List.length_singleton, List.length_singleton]
      at hputLength
    rw [if_pos (hroomIff.mpr hroom), comp_copy, hbytes, hrest, if_pos hroom, hput]
    · simp
    · have hless := hroomIff.mpr hroom
      omega
  · rw [if_neg (fun hless => hroom (hroomIff.mp hless)), comp_copy, hbytes, hrest, if_neg hroom,
      hsender]
    rw [hsender]
    exact hlong

theorem composeLine_eq {s : Spoken} {shown : Shown} (h : Names mem r s.name s.pubkey)
    (hkey : s.pubkey.length = 32) (hsay : s.say = Reply.sayOf mem shown) :
    (composeLine mem r shown).comp.take LINEW = s.line := by
  have hcomp : (composeLine mem r shown).comp = s.line := by
    rw [Reply.sayOf] at hsay
    rw [composeLine]
    split_ifs at hsay with hjoin hleave
    · rw [if_pos (.inl hjoin), if_pos hjoin,
        comp_notice h hkey (by rw [Spoken.heading, hsay]), Spoken.line, Spoken.rest, hsay]
      rfl
    · rw [if_pos (.inr hleave), if_neg hjoin,
        comp_notice h hkey (by rw [Spoken.heading, hsay]), Spoken.line, Spoken.rest, hsay]
      rfl
    · rw [if_neg (not_or.mpr ⟨hjoin, hleave⟩)]
      exact comp_text h hkey hsay rfl
  rw [hcomp, Spoken.line, List.take_take, Nat.min_self]

/-- A line with room for all of it. -/
theorem Spoken.line_of_room {s : Spoken} (hkey : s.pubkey.length = 32)
    (hroom : s.heading.length + 11 + s.rest.length ≤ LINEW) (hheading : s.heading.length ≤ 187) :
    s.line = s.heading ++ s.ident ++ s.rest := by
  have hlinew : LINEW = 200 := rfl
  have hident := ident_length hkey
  have hidRoom : 11 ≤ Spoken.idRoom s.heading.length := by
    rw [Spoken.idRoom, if_pos (by omega)]
    omega
  rw [Spoken.line, List.take_of_length_le (by omega : s.heading.length ≤ LINEW - 2),
    List.take_of_length_le (by omega : s.ident.length ≤ _), List.take_of_length_le]
  simp only [List.length_append]
  omega

/-- The line is the one that is composed for the message; heading, id and what is said are
whole when there is room for them. -/
structure ShownAs (s : Spoken) (line : Bytes) : Prop where
  line_eq : line = s.line
  whole : s.heading.length ≤ 187 → s.heading.length + 11 + s.rest.length ≤ LINEW →
    line = s.heading ++ s.ident ++ s.rest

theorem shownAs_line {s : Spoken} (hkey : s.pubkey.length = 32) : ShownAs s s.line where
  line_eq := rfl
  whole hheading hroom := s.line_of_room hkey hroom hheading

/-- What of it the comparison of lines needs. -/
structure Composed (s : Spoken) (line : Bytes) : Prop where
  length_le : line.length ≤ LINEW
  closed : s.heading.length ≤ 187 → line = (s.heading ++ s.ident ++ s.rest).take LINEW
  unclosed : ¬ s.heading.length ≤ 187 → s.heading.length ≤ 189 →
    line = (s.heading ++ opening s.pubkey ++ s.rest).take LINEW
  nameOnly : LINEW - 2 ≤ s.heading.length →
    line = (s.heading.take (LINEW - 2) ++ s.rest).take LINEW

theorem composed_line {s : Spoken} (hkey : s.pubkey.length = 32) : Composed s s.line := by
  have hlinew : LINEW = 200 := rfl
  have hident := ident_length hkey
  have hopening := opening_length hkey
  refine ⟨List.length_take_le _ _, ?_, ?_, ?_⟩
  · intro hclosed
    have hwhole : s.ident.take (Spoken.idRoom s.heading.length) = s.ident := by
      apply List.take_of_length_le
      rw [Spoken.idRoom, if_pos (by omega)]
      omega
    rw [Spoken.line, List.take_of_length_le (by omega : s.heading.length ≤ LINEW - 2), hwhole]
  · intro hunclosed hlength
    have hroom : Spoken.idRoom s.heading.length = 10 := by
      rw [Spoken.idRoom, if_pos (by omega)]
      omega
    have hopen : s.ident.take 10 = opening s.pubkey := by
      rw [ident_eq, List.take_append_of_le_length (by omega), List.take_of_length_le (by omega)]
    rw [Spoken.line, List.take_of_length_le (by omega : s.heading.length ≤ LINEW - 2), hroom, hopen]
  · intro hlength
    have hroom : Spoken.idRoom s.heading.length = 0 := by
      rw [Spoken.idRoom, if_neg (by omega)]
      omega
    rw [Spoken.line, hroom, List.take_zero, List.append_nil]

/-! What a composed line shows. -/

theorem bracket_isPrefix_rest_iff {s : Spoken} (hlong : ¬ s.heading.length ≤ 187) :
    [41] <+: s.rest ↔ ∃ bytes, s.say = .text (41 :: bytes) := by
  have hjoined : ¬ [41] <+: joinedText := by decide
  have hleft : ¬ [41] <+: leftText := by decide
  rw [Spoken.rest]
  cases hsay : s.say with
  | joined => simp [hjoined]
  | left => simp [hleft]
  | text bytes =>
    dsimp only
    rw [if_neg (by omega)]
    constructor
    · intro h
      obtain ⟨bytes', hbytes⟩ := h
      exact ⟨bytes', by rw [← hbytes]; rfl⟩
    · intro h
      obtain ⟨bytes', hbytes⟩ := h
      rw [Say.text.inj hbytes]
      exact ⟨bytes', rfl⟩

/-- A prefix of what is cut off at a width, when it is no longer than that. -/
theorem isPrefix_take_iff {a b : Bytes} {width : ℕ} (h : a.length ≤ width) :
    a <+: b.take width ↔ a <+: b := by
  rw [List.prefix_take_iff]
  exact and_iff_left h

theorem Composed.showsId_iff {s : Spoken} {line : Bytes} (h : Composed s line)
    (hkey : s.pubkey.length = 32) : s.ShowsId line ↔ s.Fits := by
  have hlinew : LINEW = 200 := rfl
  have hident := ident_length hkey
  have hlength := h.length_le
  unfold Spoken.ShowsId Spoken.Fits
  by_cases hclosed : s.heading.length ≤ 187
  · rw [List.take_of_length_le (by omega), h.closed hclosed, isPrefix_take_iff]
    · exact iff_of_true (List.prefix_append _ _) (.inl hclosed)
    · rw [List.length_append]
      omega
  · by_cases hunclosed : s.heading.length ≤ 189
    · have hbracket := bracket_isPrefix_rest_iff hclosed
      rw [List.take_of_length_le (by omega), h.unclosed hclosed hunclosed, isPrefix_take_iff,
        ident_eq, ← List.append_assoc, List.prefix_append_right_inj, hbracket]
      · simp [hclosed, hunclosed]
      · rw [List.length_append]
        omega
    · apply iff_of_false
      · intro hshown
        have hlong := hshown.length_le
        rw [List.length_append, List.length_take] at hlong
        omega
      · omega

theorem Composed.line_eq {s : Spoken} {line : Bytes} (h : Composed s line)
    (hkey : s.pubkey.length = 32) (hfits : s.Fits) :
    line = s.heading ++ s.ident ++ s.visibleTail := by
  have hlinew : LINEW = 200 := rfl
  have hident := ident_length hkey
  have hcut : line = (s.heading ++ s.ident ++ s.tail).take LINEW := by
    by_cases hclosed : s.heading.length ≤ 187
    · rw [Spoken.tail, if_pos hclosed]
      exact h.closed hclosed
    · obtain ⟨hunclosed, hbytes⟩ := hfits.resolve_left hclosed
      obtain ⟨bytes, hrest⟩ := (bracket_isPrefix_rest_iff hclosed).mpr hbytes
      rw [Spoken.tail, if_neg hclosed, h.unclosed hclosed hunclosed, ident_eq, ← hrest]
      simp
  have hroom : (s.heading ++ s.ident).length ≤ LINEW := by
    rw [List.length_append]
    rcases hfits with hclosed | ⟨hunclosed, -⟩ <;> omega
  rw [hcut, List.take_append, List.take_of_length_le hroom, Spoken.visibleTail]

/-! Two lines that are the same. -/

/-- The front of a list up to where an element first stands. -/
theorem append_cons_inj {α : Type} {c : α} {a b t u : List α} (ha : c ∉ a) (hb : c ∉ b)
    (h : a ++ c :: t = b ++ c :: u) : a = b := by
  induction a generalizing b with
  | nil =>
    cases b with
    | nil => rfl
    | cons y b => exact absurd (List.mem_cons.mpr (.inl (List.cons.inj h).1)) hb
  | cons x a ih =>
    cases b with
    | nil => exact absurd (List.mem_cons.mpr (.inl (List.cons.inj h).1.symm)) ha
    | cons y b =>
      obtain ⟨hhead, htail⟩ := List.cons.inj h
      rw [hhead, ih (fun hmem => ha (List.mem_cons_of_mem x hmem))
        (fun hmem => hb (List.mem_cons_of_mem y hmem)) htail]

/-- Two words of one length that end in a closing element do not overlap: one is found in
a text that begins with the other either at its front or behind it. -/
theorem closed_overlap {α : Type} {c : α} {x y a t u : List α} (hx : c ∉ x) (hy : c ∉ y)
    (hlength : x.length = y.length) (h : x ++ [c] ++ t = a ++ (y ++ [c] ++ u)) :
    a = [] ∧ x = y ∨ ∃ w, a = x ++ [c] ++ w ∧ t = w ++ (y ++ [c] ++ u) := by
  rcases List.append_eq_append_iff.mp h with ⟨w, ha, ht⟩ | ⟨b, hxb, hyb⟩
  · exact .inr ⟨w, ha, ht⟩
  · rcases List.eq_nil_or_concat b with rfl | ⟨b, c', rfl⟩
    · refine .inr ⟨[], ?_, ?_⟩
      · rw [hxb, List.append_nil, List.append_nil]
      · rw [List.nil_append, hyb, List.nil_append]
    · rw [List.concat_eq_append, ← List.append_assoc] at hxb
      obtain ⟨hfront, hlast⟩ := List.append_inj' hxb rfl
      obtain rfl := (List.cons.inj hlast).1
      have hb : c ∉ b := fun hmem => hx (hfront ▸ List.mem_append_right a hmem)
      rw [List.concat_eq_append, List.append_assoc, List.append_assoc] at hyb
      obtain rfl := append_cons_inj hy hb hyb
      have hempty : a = [] := by
        have hsame := congrArg List.length hfront
        rw [List.length_append] at hsame
        exact List.length_eq_zero_iff.mp (by omega)
      rw [hempty, List.nil_append] at hfront
      exact .inl ⟨hempty, hfront⟩

/-- Of two headings, the one that is not the shorter goes on from the other. -/
theorem mimics_of_same {s s' : Spoken} {line : Bytes} (h : Composed s line) (h' : Composed s' line)
    (hkey : s.pubkey.length = 32) (hkey' : s'.pubkey.length = 32) (hfits : s.Fits)
    (hfits' : s'.Fits) (hdiffer : shortId s.pubkey ≠ shortId s'.pubkey) {a : Bytes}
    (hlonger : s'.heading = s.heading ++ a) : s'.Mimics s := by
  have hsame := h.line_eq hkey hfits
  rw [h'.line_eq hkey' hfits', hlonger] at hsame
  simp only [List.append_assoc] at hsame
  have htails := (List.append_cancel_left hsame).symm
  rw [ident_eq, ident_eq] at htails
  rcases closed_overlap (not_mem_opening _) (not_mem_opening _)
    ((opening_length hkey).trans (opening_length hkey').symm)
    (by simpa using htails) with ⟨-, hopening⟩ | ⟨w, ha, htail⟩
  · refine absurd ?_ hdiffer
    have hident : s.ident = s'.ident := by rw [ident_eq, ident_eq, hopening]
    unfold Spoken.ident at hident
    exact utf8_injective (List.append_cancel_left (List.append_cancel_right hident))
  · refine ⟨w, ?_, ?_⟩
    · rw [hlonger, ha, ident_eq, List.append_assoc s.heading]
    · rw [htail, ident_eq, List.append_assoc w]

theorem same_of_mimics {s s' : Spoken} {line line' : Bytes} (h : Composed s line)
    (h' : Composed s' line') (hkey : s.pubkey.length = 32) (hkey' : s'.pubkey.length = 32)
    (hfits : s.Fits) (hfits' : s'.Fits) (hmimics : s.Mimics s') : line = line' := by
  obtain ⟨w, hheading, htail⟩ := hmimics
  rw [h.line_eq hkey hfits, h'.line_eq hkey' hfits', hheading, htail]
  simp

theorem same_line_iff {s s' : Spoken} {line line' : Bytes} (h : Composed s line)
    (h' : Composed s' line') (hkey : s.pubkey.length = 32) (hkey' : s'.pubkey.length = 32)
    (hfits : s.Fits) (hfits' : s'.Fits) (hdiffer : shortId s.pubkey ≠ shortId s'.pubkey) :
    line = line' ↔ s.Mimics s' ∨ s'.Mimics s := by
  constructor
  · intro hline
    rw [← hline] at h'
    have hsame := h.line_eq hkey hfits
    rw [h'.line_eq hkey' hfits', List.append_assoc, List.append_assoc] at hsame
    rcases List.append_eq_append_iff.mp hsame with ⟨a, ha, -⟩ | ⟨a, ha, -⟩
    · exact .inl (mimics_of_same h' h hkey' hkey hfits' hfits hdiffer.symm ha)
    · exact .inr (mimics_of_same h h' hkey hkey' hfits hfits' hdiffer ha)
  · intro hmimics
    rcases hmimics with hmimics | hmimics
    · exact same_of_mimics h h' hkey hkey' hfits hfits' hmimics
    · exact (same_of_mimics h' h hkey' hkey hfits' hfits hmimics).symm

/-! Every message of a reply. -/

/-- The name and the key are where the walk finds them. -/
theorem names_recordAt {p : ℤ} {m : StoredMessage} (hkey : m.fromPubkey.length = 32)
    (hlow : 0 ≤ p) (hheld : Holds mem p (encode (toValue m))) :
    Names mem (recordAt p m) (utf8 m.fromName) m.fromPubkey := by
  have hone : ∀ n < 24, headLength n = 1 := fun _ => headLength_of_lt
  have hsplit : ∃ front between behind, front.length = nameOff m ∧
      between.length = 1 + headLength m.fromPubkey.length ∧ encode (toValue m) =
        front ++ (utf8 m.fromName ++ (between ++ (m.fromPubkey ++ behind))) := by
    refine ⟨head 5 5 ++ (head 0 1 ++ head 0 m.seq) ++
        (head 0 2 ++ head 3 (utf8 m.fromName).length), head 0 3 ++ head 2 m.fromPubkey.length,
      (head 0 4 ++ head 0 m.epochS.toNat) ++ (head 0 5 ++ (head 2 m.text.length ++ m.text)),
      ?_, ?_, ?_⟩
    · simp [hone, nameOff, add_assoc]
    · simp [hone]
    · rw [encode_toValue]
      simp only [List.append_assoc]
  obtain ⟨front, between, behind, hfront, hbetween, hsplit⟩ := hsplit
  rw [hsplit, holds_append, hfront, holds_append, holds_append, hbetween] at hheld
  obtain ⟨-, hname, -, hpubkey⟩ := hheld
  have hplace : p + nameOff m + (utf8 m.fromName).length +
      (1 + headLength m.fromPubkey.length : ℕ) = p + pkOff m := by
    rw [pkOff]
    omega
  rw [hplace, holds_append] at hpubkey
  refine ⟨hname, ?_, ?_, ?_⟩
  · have hkeyAt : bytesFrom mem (p + pkOff m) m.fromPubkey.length = m.fromPubkey := hpubkey.1
    have hfour := bytesFrom_min mem (p + pkOff m) m.fromPubkey.length 4
    rw [hkeyAt, hkey] at hfour
    exact hfour
  · show 0 ≤ p + (pkOff m : ℤ)
    omega
  · show (m.fromPubkey.length : ℤ) = 32
    rw [hkey]
    rfl

/-- The turns of a loop over records, with the place of each. -/
theorem pollRecords_turns {n : ℕ} (hn : n < 2 ^ 31) {s : Poll} (msgs : List StoredMessage)
    (hseq : ∀ m ∈ msgs, m.seq < 2 ^ 64)
    (hheld : Holds mem s.walk.pos (encodeItems (msgs.map toValue))) (hlow : 0 ≤ s.walk.pos)
    (hhigh : s.walk.pos + (encodeItems (msgs.map toValue)).length ≤ n) :
    ∃ turns : List Turn, ((pollRecord mem)^[msgs.length] s).turns = s.turns ++ turns ∧
      turns.length = msgs.length ∧
      ∀ i t m, turns[i]? = some t → msgs[i]? = some m → ∃ slot p,
        p = s.walk.pos + (encodeItems ((msgs.take i).map toValue)).length ∧
        Holds mem p (encode (toValue m)) ∧ t = turnOf mem (recordAt p m) slot := by
  induction msgs generalizing s with
  | nil => exact ⟨[], (List.append_nil _).symm, rfl, fun i t m ht => by simp at ht⟩
  | cons m msgs ih =>
    rw [List.map_cons, encodeItems, holds_append] at hheld
    rw [List.map_cons, encodeItems, List.length_append] at hhigh
    obtain ⟨w, hread, hmoved⟩ := readRecord_encode (hseq m (by simp)) hheld.1 hlow (by omega)
    have hpos : (pollRecord mem s).walk.pos = s.walk.pos + (encode (toValue m)).length := by
      rw [pollRecord, hread]
      exact hmoved.pos
    have hturn : (pollRecord mem s).turns =
        s.turns ++ [turnOf mem (recordAt s.walk.pos m) s.transcript.slot] := by
      rw [pollRecord, hread]
    obtain ⟨turns, hturns, hlength, hall⟩ := ih (s := pollRecord mem s)
      (fun m' hm' => hseq m' (List.mem_cons_of_mem m hm')) (by rw [hpos]; exact hheld.2)
      (by omega) (by omega)
    refine ⟨turnOf mem (recordAt s.walk.pos m) s.transcript.slot :: turns, ?_, ?_, ?_⟩
    · rw [List.length_cons, Function.iterate_succ_apply, hturns, hturn, List.append_assoc,
        List.singleton_append]
    · rw [List.length_cons, List.length_cons, hlength]
    · intro i t m' ht hm'
      cases i with
      | zero =>
        obtain rfl := Option.some.inj hm'
        exact ⟨s.transcript.slot, s.walk.pos, by simp [encodeItems], hheld.1,
          (Option.some.inj ht).symm⟩
      | succ i =>
        rw [List.getElem?_cons_succ] at ht hm'
        obtain ⟨slot, p, hp, hthere, hsame⟩ := hall i t m' ht hm'
        refine ⟨slot, p, ?_, hthere, hsame⟩
        rw [hp, hpos, List.take_succ_cons, List.map_cons, encodeItems, List.length_append]
        omega

namespace Reply

variable (r : Reply)

/-- The turns of a poll, one for each message. -/
theorem poll_turns (after : Int64) (transcript : Transcript) :
    (r.poll after transcript).turns.length = r.msgs.length ∧
      ∀ i t m, (r.poll after transcript).turns[i]? = some t → r.msgs[i]? = some m → ∃ slot,
        0 ≤ r.place i ∧ Holds r.mem (r.place i) (encode (toValue m)) ∧
        t = turnOf r.mem (recordAt (r.place i) m) slot := by
  obtain ⟨w, -, hlow, hend, hitems, hpoll⟩ :=
    pollMessages_start r.length_lt after transcript r.msgs r.held rfl
  obtain ⟨turns, hturns, hlength, hall⟩ := pollRecords_turns r.length_lt
    (s := ⟨w, after, transcript, []⟩) r.msgs r.seq_lt hitems hlow hend.le
  have hfound : (r.poll after transcript).turns = turns := by
    rw [poll, hpoll, hturns, List.nil_append]
  have hstart : w.pos = headLength r.msgs.length := by
    rw [encode, List.length_append, head_length, List.length_map] at hend
    omega
  rw [hfound]
  refine ⟨hlength, ?_⟩
  intro i t m ht hm
  obtain ⟨slot, p, hp, hthere, hsame⟩ := hall i t m ht hm
  have hplace : p = r.place i := by
    rw [hp, hstart, place]
  subst hplace
  exact ⟨slot, by rw [place]; omega, hthere, hsame⟩

end Reply

variable {reply : Reply} {i : ℕ} {m : StoredMessage} {line : Bytes}

/-- There is a line for every message. -/
theorem exists_heard (hkey : m.fromPubkey.length = 32) (hm : reply.msgs[i]? = some m)
    (after : Int64) (transcript : Transcript) : ∃ line, Heard reply i m line := by
  obtain ⟨hlength, -⟩ := reply.poll_turns after transcript
  obtain ⟨hi, -⟩ := List.getElem?_eq_some_iff.mp hm
  exact ⟨_, hkey, hm, after, transcript, _, List.getElem?_eq_getElem (hlength ▸ hi), rfl⟩

/-- The line of a message is fixed by its name, its key and what it says. -/
theorem Heard.line_eq (h : Heard reply i m line) : line = (reply.spoken i m).line := by
  obtain ⟨after, transcript, t, ht, hline⟩ := h.turn
  obtain ⟨slot, hlow, hthere, rfl⟩ := (reply.poll_turns after transcript).2 i t m ht h.message
  rw [← hline]
  exact composeLine_eq (names_recordAt h.pubkey hlow hthere) h.pubkey rfl

theorem Heard.composed (h : Heard reply i m line) : Composed (reply.spoken i m) line :=
  h.line_eq ▸ composed_line h.pubkey

/-- Both lines carry the verified id, and senders with different ids do not get the same
line, exactly when both names leave room for the id and neither name takes in the
other's. -/
theorem lines_tell_senders_apart_iff {reply' : Reply} {i' : ℕ} {m' : StoredMessage}
    {line' : Bytes} (h : Heard reply i m line) (h' : Heard reply' i' m' line') :
    (((reply.spoken i m).ShowsId line ∧ (reply'.spoken i' m').ShowsId line') ∧
      (shortId m.fromPubkey ≠ shortId m'.fromPubkey → line ≠ line')) ↔
    ((reply.spoken i m).Fits ∧ (reply'.spoken i' m').Fits) ∧
      (shortId m.fromPubkey ≠ shortId m'.fromPubkey →
        ¬ (reply.spoken i m).Mimics (reply'.spoken i' m') ∧
        ¬ (reply'.spoken i' m').Mimics (reply.spoken i m)) := by
  rw [h.composed.showsId_iff h.pubkey, h'.composed.showsId_iff h'.pubkey]
  apply and_congr_right
  intro hfits
  apply imp_congr_right
  intro hdiffer
  rw [Ne, same_line_iff h.composed h'.composed h.pubkey h'.pubkey hfits.1 hfits.2 hdiffer, not_or]

/-! Messages whose name is as long as the line. -/

theorem same_line_of_long {s s' : Spoken} {line line' : Bytes} (h : Composed s line)
    (h' : Composed s' line') (hlength : LINEW - 2 ≤ s.heading.length)
    (hheading : s.heading = s'.heading) (hrest : s.rest = s'.rest) : line = line' := by
  rw [h.nameOnly hlength, h'.nameOnly (hheading ▸ hlength), hheading, hrest]

/-- A chat line under a name of so many letters. -/
def lineFrom (letters : Fin 256) (key : UInt8) : StoredMessage where
  seq := 1
  fromName := String.ofList (List.replicate letters 'a')
  fromPubkey := List.replicate 32 key
  epochS := 1760000000
  text := [0x81, 0x62, 0x68, 0x69]

theorem utf8_letters (letters : ℕ) :
    utf8 (String.ofList (List.replicate letters 'a')) = List.replicate letters 97 := by
  have hletter : String.utf8EncodeChar 'a' = [97] := by decide
  rw [utf8_ofList]
  induction letters with
  | zero => rfl
  | succ letters ih =>
    rw [List.replicate_succ, List.flatMap_cons, ih, hletter]
    rfl

theorem lineFrom_length (letters : Fin 256) (key : UInt8) :
    (encode (.array ([lineFrom letters key].map toValue))).length < 2 ^ 31 := by
  have hname : (utf8 (lineFrom letters key).fromName).length = letters := by
    rw [lineFrom, utf8_letters, List.length_replicate]
  have hpubkey : (lineFrom letters key).fromPubkey.length = 32 := List.length_replicate
  have htext : (lineFrom letters key).text.length = 4 := rfl
  have hsize := replyLength_eq (lineFrom letters key)
  have hheadSeq := headLength_le (lineFrom letters key).seq
  have hheadName := headLength_le letters
  have hheadPubkey := headLength_le 32
  have hheadEpoch := headLength_le (lineFrom letters key).epochS.toNat
  have hheadText := headLength_le 4
  have hletters := letters.isLt
  rw [replyLength, hname, hpubkey, htext] at hsize
  rw [List.map_singleton]
  omega

theorem seq_lineFrom (letters : Fin 256) (key : UInt8) : (lineFrom letters key).seq < 2 ^ 64 := by
  show 1 < 2 ^ 64
  omega

/-- The reply with this line in it. -/
def replyWith (letters : Fin 256) (key : UInt8) : Reply where
  mem := ChatSafety.ofBytes (encode (.array ([lineFrom letters key].map toValue)))
  msgs := [lineFrom letters key]
  seq_lt := List.forall_mem_singleton.mpr (seq_lineFrom letters key)
  length_lt := lineFrom_length letters key
  held := ChatSafety.holds_ofBytes _

def spokenFrom (letters : Fin 256) (key : UInt8) : Spoken :=
  (replyWith letters key).spoken 0 (lineFrom letters key)

theorem heard_lineFrom (letters : Fin 256) (key : UInt8) :
    ∃ line, Heard (replyWith letters key) 0 (lineFrom letters key) line :=
  exists_heard List.length_replicate rfl 0 ChatSafety.emptyTranscript

theorem spokenFrom_say : ∀ letters ∈ [3, 198], ∀ key ∈ [1, 2],
    (spokenFrom letters key).say = .text [0x68, 0x69] := by
  decide +kernel

theorem spokenFrom_heading {letters : Fin 256} {key : UInt8} {bytes : Bytes}
    (hsay : (spokenFrom letters key).say = .text bytes) :
    (spokenFrom letters key).heading = List.replicate letters 97 := by
  rw [Spoken.heading, hsay]
  exact utf8_letters letters

/-- Two senders with the same name of three letters. -/
theorem lines_tell_senders_apart_iff_aaa :
    ∃ line line', Heard (replyWith 3 1) 0 (lineFrom 3 1) line ∧
      Heard (replyWith 3 2) 0 (lineFrom 3 2) line' ∧ line ≠ line' := by
  obtain ⟨line, hline⟩ := heard_lineFrom 3 1
  obtain ⟨line', hline'⟩ := heard_lineFrom 3 2
  have hiff := lines_tell_senders_apart_iff hline hline'
  have hheading := spokenFrom_heading (spokenFrom_say 3 (by decide) 1 (by decide))
  have hheading' := spokenFrom_heading (spokenFrom_say 3 (by decide) 2 (by decide))
  have hfits : ∀ s : Spoken, s.heading = List.replicate 3 97 → s.Fits := by
    intro s hs
    rw [Spoken.Fits, hs]
    exact .inl (by decide)
  have hapart : ∀ s s' : Spoken, s.heading = List.replicate 3 97 →
      s'.heading = List.replicate 3 97 → ¬ s.Mimics s' := by
    intro s s' hs hs' hmimics
    obtain ⟨w, hw, -⟩ := hmimics
    have hlength := congrArg List.length hw
    rw [hs, hs', ident_eq, List.length_append, List.length_append, List.length_append] at hlength
    simp at hlength
    omega
  have hshort : shortId (lineFrom 3 1).fromPubkey ≠ shortId (lineFrom 3 2).fromPubkey := by decide
  exact ⟨line, line', hline, hline', (hiff.mpr ⟨⟨hfits _ hheading, hfits _ hheading'⟩,
    fun _ => ⟨hapart _ _ hheading hheading', hapart _ _ hheading' hheading⟩⟩).2 hshort⟩

/-- A name of 198 letters: two senders with different ids get the same line, and the id
of neither is in it. -/
theorem long_names_same_line :
    ∃ line, Heard (replyWith 198 1) 0 (lineFrom 198 1) line ∧
      Heard (replyWith 198 2) 0 (lineFrom 198 2) line ∧
      shortId (lineFrom 198 1).fromPubkey ≠ shortId (lineFrom 198 2).fromPubkey ∧
      ¬ (spokenFrom 198 1).ShowsId line ∧ ¬ (spokenFrom 198 2).ShowsId line := by
  obtain ⟨line, hline⟩ := heard_lineFrom 198 1
  obtain ⟨line', hline'⟩ := heard_lineFrom 198 2
  have hsay := spokenFrom_say 198 (by decide) 1 (by decide)
  have hsay' := spokenFrom_say 198 (by decide) 2 (by decide)
  have hheading := spokenFrom_heading hsay
  have hheading' := spokenFrom_heading hsay'
  have hlong : LINEW - 2 ≤ (spokenFrom 198 1).heading.length := by
    rw [hheading, List.length_replicate]
    decide
  have hrest : (spokenFrom 198 1).rest = (spokenFrom 198 2).rest := by
    rw [Spoken.rest, Spoken.rest, hsay, hsay', hheading, hheading']
  have hsame : line = line' := same_line_of_long hline.composed hline'.composed hlong
    (hheading.trans hheading'.symm) hrest
  have hcut : ∀ s : Spoken, s.heading = List.replicate 198 97 → ¬ s.Fits := by
    intro s hs hfits
    rw [Spoken.Fits, hs, List.length_replicate] at hfits
    omega
  refine ⟨line, hline, hsame ▸ hline', by decide, ?_, ?_⟩
  · intro hshown
    exact hcut _ hheading ((hline.composed.showsId_iff hline.pubkey).mp hshown)
  · intro hshown
    rw [hsame] at hshown
    exact hcut _ hheading' ((hline'.composed.showsId_iff hline'.pubkey).mp hshown)

end Weverywhere.ChatIdentity
