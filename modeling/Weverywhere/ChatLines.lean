import Weverywhere.ChatWalk
import Weverywhere.CborItems

/-!
A line of chat on its way (`src/example-programs/chat.c`): `send_msg` packs it and
`poll_messages` finds it again in the record that carries it. The buffer it is
packed in is as long as the one it is typed in, so the head that goes in front
pushes the end of the longest lines out.
-/
namespace Weverywhere.ChatLines

open ByteStrings Cbor CborItems BoundedBuffer MessageLog MessagesRead Chat ChatWalk

/-- `static char input[1024]` up to `input_len`, when Enter sends it. -/
structure InputLine where
  bytes : Bytes
  nonempty : 1 ≤ bytes.length
  fits : bytes.length ≤ 1024

/-- The list a line makes, were there no end to the buffer. -/
def linePayload (text : Bytes) (kind : Kind) : Bytes :=
  head 4 (if kind = .chat then 1 else 2) ++ (head 3 text.length ++ text) ++
    if kind = .chat then [] else head 0 kind.toNat

/-! Packing. -/

theorem cbText_eq (cb : Cb) {s : Bytes} (hs : s.length < 65536) :
    cbText cb s = cb.pushAll (head 3 s.length ++ s) := by
  have h20 : UInt8.ofNat (3 <<< 5) = 0x60 := rfl
  have h24 : (0x78 : UInt8) = initialByte 3 24 := rfl
  have h25 : (0x79 : UInt8) = initialByte 3 25 := rfl
  have hone : beBytes 1 s.length = [UInt8.ofNat s.length] := rfl
  have htwo : beBytes 2 s.length = [UInt8.ofNat (s.length >>> 8), UInt8.ofNat s.length] := by
    rw [Nat.shiftRight_eq_div_pow]
    rfl
  rw [← Buffer.pushAll_append, cbText, head, h24, h25, hone, htwo]
  simp only [Nat.reducePow, hs, if_true]
  split_ifs with hshort hbyte
  · rw [← h20, initialByte_eq_or (by omega)]
    rfl
  · rfl
  · rfl

theorem sendMsg_eq {text : Bytes} (htext : text.length < 65536) (kind : Kind) :
    sendMsg text kind = Buffer.empty.pushAll (linePayload text kind) := by
  have hone : head 4 1 = [0x81] := rfl
  have htwo : head 4 2 = [0x82] := rfl
  have hpush : ∀ (cb : Cb) b, cb.push b = cb.pushAll [b] := fun _ _ => rfl
  rw [sendMsg, linePayload]
  split_ifs with hchat
  · rw [cbText_eq _ htext, hpush, Buffer.pushAll_append, hone, List.append_nil]
  · have hkind : head 0 kind.toNat = [UInt8.ofNat kind.toNat] := by
      cases kind <;> rfl
    rw [cbText_eq _ htext, hpush, hpush, Buffer.pushAll_append, Buffer.pushAll_append, htwo, hkind,
      List.append_assoc [(0x82 : UInt8)]]

theorem items_sendMsg (line : InputLine) (kind : Kind) :
    (sendMsg line.bytes kind).items = (linePayload line.bytes kind).take 1024 := by
  have hfits := line.fits
  rw [sendMsg_eq (by omega), Buffer.items_pushAll, Buffer.items_empty, List.nil_append]

theorem linePayload_length (text : Bytes) (kind : Kind) :
    (linePayload text kind).length =
      1 + (headLength text.length + text.length) + if kind = .chat then 0 else 1 := by
  cases kind <;> simp [linePayload, headLength_of_lt, Kind.toNat, add_assoc]

/-- A list of one text, or of a text and a number. -/
theorem wellFormed_linePayload {text : Bytes} (htext : text.length < 2 ^ 64) (kind : Kind) :
    WellFormed (linePayload text kind) := by
  have hstring : WellFormed (head 3 text.length ++ text) :=
    .string (Or.inr rfl) ⟨_, text, rfl, isHead_head (by omega) htext⟩
  have hnumber : ∀ n < 24, WellFormed (head 0 n) := fun n hn =>
    .integer (Or.inl rfl) (isHead_head (by omega) (by omega))
  have hnotice : ∀ n < 24,
      WellFormed (head 4 2 ++ (head 3 text.length ++ text) ++ head 0 n) := by
    intro n hn
    have hhead : IsHead 4 [head 3 text.length ++ text, head 0 n].length (head 4 2) :=
      isHead_head (by omega) (show 2 < 2 ^ 64 by omega)
    have hlist := WellFormed.array hhead (by simpa using ⟨hstring, hnumber n hn⟩)
    simpa using hlist
  cases kind with
  | chat =>
    have hhead : IsHead 4 [head 3 text.length ++ text].length (head 4 1) :=
      isHead_head (by omega) (show 1 < 2 ^ 64 by omega)
    have hlist := WellFormed.array hhead (by simpa using hstring)
    simpa [linePayload] using hlist
  | join => exact hnotice 1 (by omega)
  | leave => exact hnotice 2 (by omega)

/-! Unpacking. -/

/-- The heads of the list and of the text in it, and the place of what follows. -/
theorem line_heads {mem : Memory} {p : ℤ} {text : Bytes} {kind : Kind}
    (htext : text.length < 2 ^ 64) (hheld : Holds mem p (linePayload text kind)) :
    chead mem p = ⟨1, 4, UInt64.ofNat (if kind = .chat then 1 else 2)⟩ ∧
      chead mem (p + (1 : ℕ)) = ⟨headLength text.length, 3, UInt64.ofNat text.length⟩ ∧
      Holds mem (p + 1 + headLength text.length) text ∧
      Holds mem (p + (1 + headLength text.length + text.length))
        (if kind = .chat then [] else head 0 kind.toNat) := by
  have hcount : (if kind = .chat then 1 else 2) < 24 := by split_ifs <;> omega
  have hone := headLength_of_lt hcount
  rw [linePayload, holds_append, holds_append, holds_append] at hheld
  obtain ⟨⟨houter, hinner, hplace⟩, hkind⟩ := hheld
  rw [head_length, hone] at hinner hplace
  rw [head_length, Nat.cast_one] at hplace
  rw [List.length_append, head_length, hone, List.length_append, head_length] at hkind
  have hread := chead_head (by omega) (by omega) houter
  rw [hone] at hread
  refine ⟨hread, chead_head (by omega) htext hinner, hplace, ?_⟩
  rw [show p + (1 + headLength text.length + text.length) =
    p + (1 + (headLength text.length + text.length) : ℕ) by omega]
  exact hkind

/-- The number behind the text. -/
theorem kindOf_chead {mem : Memory} {p : ℤ} {kind : Kind}
    (hheld : Holds mem p (head 0 kind.toNat)) :
    kindOf (chead mem p) = kind.toNat := by
  have hsmall : kind.toNat < 24 := by cases kind <;> decide
  rw [chead_head (by omega) (by omega) hheld, kindOf, if_pos rfl]
  exact cInt_ofNat_of_lt (by omega)

/-- Wherever the whole list lies, its text and its kind are found. -/
theorem decodePayload_line {mem : Memory} {p : ℤ} {text : Bytes} {kind : Kind} (hlow : 0 ≤ p)
    (hhigh : p + (linePayload text kind).length < 2 ^ 31) (htext : 1 ≤ text.length)
    (hheld : Holds mem p (linePayload text kind)) :
    let shown := decodePayload mem p (linePayload text kind).length
    shown.dispP = p + 1 + headLength text.length ∧ shown.dispL = text.length ∧
      shown.kind = kind.toNat := by
  intro shown
  have hlength := linePayload_length text kind
  have hpositive := headLength_pos text.length
  obtain ⟨hread₁, hread₂, -, hkind⟩ := line_heads (by omega) hheld
  have hvalue : cInt (UInt64.ofNat text.length).toNat = text.length := cInt_ofNat_of_lt (by omega)
  have hend : elementEnd ⟨1, 4, UInt64.ofNat (if kind = .chat then 1 else 2)⟩
      ⟨headLength text.length, 3, UInt64.ofNat text.length⟩ =
        1 + headLength text.length + text.length := by
    simp only [elementEnd, hvalue]
    exact cInt_of_fits (by omega) (by omega)
  have hshown : displayed p (linePayload text kind).length
      ⟨1, 4, UInt64.ofNat (if kind = .chat then 1 else 2)⟩
      ⟨headLength text.length, 3, UInt64.ofNat text.length⟩ =
        (p + 1 + headLength text.length, (text.length : ℤ)) := by
    rw [displayed, hend, hvalue, if_pos ⟨Or.inl rfl, by omega⟩]
    dsimp only
    rw [cInt_of_fits (by omega) (by omega), Nat.cast_one]
  have hopen : shown = decodePayload mem p (linePayload text kind).length := rfl
  rw [decodePayload, if_pos ⟨hlow, by omega⟩] at hopen
  simp only [hread₁, hread₂, hshown, hend] at hopen
  have hsome : (1 : UInt64) ≤ UInt64.ofNat (if kind = .chat then 1 else 2) := by
    split_ifs <;> decide
  rw [if_pos ⟨trivial, hsome, by omega⟩] at hopen
  rw [hopen]
  cases kind with
  | chat =>
    rw [if_neg fun h => absurd h.1 (by decide)]
    exact ⟨rfl, rfl, rfl⟩
  | join =>
    rw [if_pos ⟨by decide, by rw [hlength, if_neg (by decide)]; omega⟩]
    exact ⟨rfl, rfl, kindOf_chead hkind⟩
  | leave =>
    rw [if_pos ⟨by decide, by rw [hlength, if_neg (by decide)]; omega⟩]
    exact ⟨rfl, rfl, kindOf_chead hkind⟩

/-! The way through a poll. -/

/-- Whatever reply carries the payload as a record's text, the poll that takes it in
finds this text, as the range it displays, and this kind. -/
def Recovered (payload text : Bytes) (kind : Kind) : Prop :=
  ∀ (mem : Memory) (n : ℕ) (after : Int64) (transcript : Transcript)
    (msgs : List StoredMessage), n ≤ 16384 → (∀ m ∈ msgs, m.seq < 2 ^ 64) →
    Holds mem 0 (encode (.array (msgs.map toValue))) →
    (encode (.array (msgs.map toValue))).length = n →
    ∀ (i : ℕ) (m : StoredMessage), msgs[i]? = some m → m.text = payload →
      ∃ t : Turn, (pollMessages mem n after transcript).turns[i]? = some t ∧
        t.shown.dispL = text.length ∧ bytesFrom mem t.shown.dispP text.length = text ∧
        t.shown.kind = kind.toNat

theorem recovered_linePayload {text : Bytes} (htext : 1 ≤ text.length) (kind : Kind) :
    Recovered (linePayload text kind) text kind := by
  intro mem n after transcript msgs hn hseq hheld hlength i m hm hpayload
  obtain ⟨w, turns, -, hpolled⟩ :=
    pollMessages_encode (by omega) after transcript msgs hseq hheld hlength
  have hturns : (pollMessages mem n after transcript).turns = turns := hpolled.turns_eq
  obtain ⟨hsame, hall⟩ := List.forall₂_iff_get.mp hpolled.forall₂
  obtain ⟨hi, rfl⟩ := List.getElem?_eq_some_iff.mp hm
  have hi' : i < turns.length := hsame ▸ hi
  obtain ⟨p, hturn⟩ := hall i hi hi'
  have hlow := hturn.low
  have hhigh := hturn.high
  have hthere := hturn.text
  have hshown := hturn.shown
  simp only [List.get_eq_getElem, hpayload] at hthere hshown hhigh
  obtain ⟨hdispP, hdispL, hkind⟩ := decodePayload_line (by omega) (by omega) htext hthere
  rw [← hshown] at hdispP hdispL hkind
  refine ⟨turns[i], ?_, hdispL, ?_, hkind⟩
  · rw [hturns]
    exact List.getElem?_eq_getElem hi'
  · have hlength := linePayload_length text kind
    obtain ⟨-, -, hplace, -⟩ := line_heads (by omega) hthere
    rw [hdispP]
    exact hplace

/-- The longest line of a kind that fits with what goes around it. -/
def longest : Kind → ℕ
  | .chat => 1020
  | .join => 1019
  | .leave => 1019

theorem linePayload_fits_iff (line : InputLine) (kind : Kind) :
    (linePayload line.bytes kind).length ≤ 1024 ↔ line.bytes.length ≤ longest kind := by
  have hfits := line.fits
  rw [linePayload_length, headLength]
  cases kind with
  | chat =>
    rw [longest, if_pos rfl]
    split_ifs <;> omega
  | join =>
    have hkind : (if Kind.join = Kind.chat then 0 else 1) = 1 := rfl
    rw [longest, hkind]
    split_ifs <;> omega
  | leave =>
    have hkind : (if Kind.leave = Kind.chat then 0 else 1) = 1 := rfl
    rw [longest, hkind]
    split_ifs <;> omega

/-- A list that has lost its end is no list. -/
theorem not_wellFormed_cut {line : InputLine} {kind : Kind}
    (hlong : 1024 < (linePayload line.bytes kind).length) :
    ¬ WellFormed (sendMsg line.bytes kind).items := by
  intro hcut
  have hfits := line.fits
  have hwhole : WellFormed (linePayload line.bytes kind) := wellFormed_linePayload (by omega) kind
  rw [items_sendMsg] at hcut
  have hsame := hcut.eq_of_append (a := (linePayload line.bytes kind).drop 1024) (b := []) hwhole
    (by rw [List.take_append_drop, List.append_nil])
  have hlength := congrArg List.length hsame
  rw [List.length_take] at hlength
  omega

/-- A line of any length is one list, and is displayed as it was typed and under its
kind, exactly when it is short enough for its head. -/
theorem line_recovered_iff (line : InputLine) (kind : Kind) :
    (WellFormed (sendMsg line.bytes kind).items ∧
      (∃ n rest, readHead (sendMsg line.bytes kind).items = some (4, n, rest)) ∧
      Recovered (sendMsg line.bytes kind).items line.bytes kind) ↔
    line.bytes.length ≤ longest kind := by
  rw [← linePayload_fits_iff]
  constructor
  · rintro ⟨hwellFormed, -, -⟩
    by_contra hlong
    exact not_wellFormed_cut (by omega) hwellFormed
  · intro hfits
    have hline := line.fits
    rw [items_sendMsg, List.take_of_length_le hfits]
    refine ⟨wellFormed_linePayload (by omega) kind, ?_, recovered_linePayload line.nonempty kind⟩
    have hcount : (if kind = .chat then 1 else 2) < 2 ^ 64 := by split_ifs <;> omega
    rw [linePayload, List.append_assoc]
    exact ⟨_, _, readHead_head 4 _ (by omega) hcount _⟩

/-- The input buffer full but for three bytes. -/
def longLine : InputLine where
  bytes := List.replicate 1021 0x61
  nonempty := by rw [List.length_replicate]; omega
  fits := by rw [List.length_replicate]; omega

/-- Its last byte is lost, and no list is sent. -/
theorem longLine_cut : ¬ WellFormed (sendMsg longLine.bytes .chat).items := by
  apply not_wellFormed_cut
  rw [linePayload_length, show longLine.bytes.length = 1021 from List.length_replicate]
  decide

end Weverywhere.ChatLines
