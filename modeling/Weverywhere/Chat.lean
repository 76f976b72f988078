import Weverywhere.BoundedBuffer
import Weverywhere.Cbor
import Mathlib.Data.List.Induction

/-!
The chat program (`src/example-programs/chat.c`): how it packs a line for
`host::messages_send`, and how `poll_messages` walks the reply of
`host::messages_read` with a hand-written decoder. `int` and `unsigned long long`
are those of wasm32. Every read of `rbuf` is kept in a log.
-/
namespace Weverywhere.Chat

open ByteStrings Cbor BoundedBuffer

/-- What is at and around `rbuf`, by the distance from its first byte. -/
abbrev Memory := ℤ → UInt8

/-- A value as an `int`. -/
def cInt (x : ℤ) : ℤ := x.bmod (2 ^ 32)

/-- The bytes `start .. start + count` are looked at. -/
structure Read where
  start : ℤ
  count : ℕ
  deriving DecidableEq

structure Head where
  length : ℕ
  major : ℕ
  val : UInt64
  deriving DecidableEq

/-- The loop `v = (v << 8) | p[1 + i]`. -/
def shiftIn (v : UInt64) (b : UInt8) : UInt64 := (v <<< 8) ||| b.toUInt64

def bytesFrom (mem : Memory) (start : ℤ) (count : ℕ) : Bytes :=
  (List.range count).map fun i : ℕ => mem (start + i)

def chead (mem : Memory) (p : ℤ) : Head :=
  let ib := mem p
  let major := (ib >>> 5).toNat
  let ai := ib &&& 0x1f
  if ai < 24 then ⟨1, major, ai.toUInt64⟩
  else if ai = 24 then ⟨2, major, (mem (p + 1)).toUInt64⟩
  else if ai = 25 then ⟨3, major, (mem (p + 1)).toUInt64 <<< 8 ||| (mem (p + 2)).toUInt64⟩
  else if ai = 26 then
    ⟨5, major, (mem (p + 1)).toUInt64 <<< 24 ||| (mem (p + 2)).toUInt64 <<< 16 |||
      (mem (p + 3)).toUInt64 <<< 8 ||| (mem (p + 4)).toUInt64⟩
  else ⟨9, major, (bytesFrom mem (p + 1) 8).foldl shiftIn 0⟩

/-! Sending. -/

/-- `static unsigned char cb[1024]` up to `cbn`. -/
abbrev Cb := Buffer UInt8 1024

def cbText (cb : Cb) (s : Bytes) : Cb :=
  let n := s.length
  let cb :=
    if n < 24 then cb.push (0x60 ||| UInt8.ofNat n)
    else if n < 256 then (cb.push 0x78).push (UInt8.ofNat n)
    else ((cb.push 0x79).push (UInt8.ofNat (n >>> 8))).push (UInt8.ofNat n)
  cb.pushAll s

inductive Kind
  | chat
  | join
  | leave
  deriving DecidableEq

def Kind.toNat : Kind → ℕ
  | chat => 0
  | join => 1
  | leave => 2

/-- The payload handed to `host::messages_send`. -/
def sendMsg (text : Bytes) (kind : Kind) : Cb :=
  if kind = .chat then cbText (Buffer.empty.push 0x81) text
  else (cbText (Buffer.empty.push 0x82) text).push (UInt8.ofNat kind.toNat)

/-! The walk over a reply. -/

/-- `pos`, and what was read on the way. -/
structure Walk where
  pos : ℤ
  reads : List Read

/-- `pos += chead(rbuf + pos, ..)`. -/
def nextHead (mem : Memory) (w : Walk) : Head × Walk :=
  let h := chead mem w.pos
  (h, ⟨cInt (w.pos + h.length), w.reads ++ [⟨w.pos, h.length⟩]⟩)

def K_SEQ : UInt64 := 1
def K_NAME : UInt64 := 2
def K_PUBKEY : UInt64 := 3
def K_TEXT : UInt64 := 5

/-- What `poll_messages` remembers of one record, positions in `rbuf`. -/
structure Record where
  seq : Int64
  nameP : ℤ
  nameL : ℤ
  pkP : ℤ
  pkL : ℤ
  textP : ℤ
  textL : ℤ

def Record.init : Record := ⟨0, -1, 0, -1, 0, -1, 0⟩

/-- An integer found under a key of a record; the clock is ignored. -/
def Record.noteInteger (r : Record) (key val : UInt64) : Record :=
  if key = K_SEQ then { r with seq := val.toInt64 } else r

/-- A string found under a key of a record. -/
def Record.note (r : Record) (key : UInt64) (pos len : ℤ) : Record :=
  if key = K_NAME then { r with nameP := pos, nameL := len }
  else if key = K_PUBKEY then { r with pkP := pos, pkL := len }
  else if key = K_TEXT then { r with textP := pos, textL := len }
  else r

/-- One turn of the loop over the pairs of a map. -/
def readField (mem : Memory) (s : Walk × Record) : Walk × Record :=
  let key := nextHead mem s.1
  let value := nextHead mem key.2
  let w := value.2
  if value.1.major = 0 then (w, s.2.noteInteger key.1.val value.1.val)
  else
    let len := cInt value.1.val.toNat
    (⟨cInt (w.pos + len), w.reads⟩, s.2.note key.1.val w.pos len)

def readRecord (mem : Memory) (w : Walk) : Walk × Record :=
  let map := nextHead mem w
  (readField mem)^[(cInt map.1.val.toNat).toNat] (map.2, Record.init)

/-! The payload of a record. -/

/-- `dispP`, `dispL` and `kind`, with what was read to find them. -/
structure Shown where
  dispP : ℤ
  dispL : ℤ
  kind : ℤ
  reads : List Read

/-- `h + eh + (int)ev`. -/
def elementEnd (outer inner : Head) : ℤ :=
  cInt (outer.length + inner.length + cInt inner.val.toNat)

/-- The range of the first element where that is a string in the payload. -/
def displayed (textP textL : ℤ) (outer inner : Head) : ℤ × ℤ :=
  if (inner.major = 3 ∨ inner.major = 2) ∧ elementEnd outer inner ≤ textL then
    (cInt (textP + outer.length + inner.length), cInt inner.val.toNat)
  else (textP, textL)

def kindOf (h : Head) : ℤ := if h.major = 0 then cInt h.val.toNat else Kind.chat.toNat

def decodePayload (mem : Memory) (textP textL : ℤ) : Shown :=
  if 0 ≤ textP ∧ 1 ≤ textL then
    let outer := chead mem textP
    let outerRead : Read := ⟨textP, outer.length⟩
    if outer.major = 4 ∧ 1 ≤ outer.val ∧ outer.length < textL then
      let inner := chead mem (textP + outer.length)
      let innerRead : Read := ⟨textP + outer.length, inner.length⟩
      let disp := displayed textP textL outer inner
      let off := elementEnd outer inner
      if 2 ≤ outer.val ∧ off < textL then
        let h := chead mem (textP + off)
        ⟨disp.1, disp.2, kindOf h, [outerRead, innerRead, ⟨textP + off, h.length⟩]⟩
      else ⟨disp.1, disp.2, Kind.chat.toNat, [outerRead, innerRead]⟩
    else ⟨textP, textL, Kind.chat.toNat, [outerRead]⟩
  else ⟨textP, textL, Kind.chat.toNat, []⟩

/-! The line for a record. -/

def LINEW : ℕ := 200

/-- `comp[0 .. c]` and the reads of `rbuf` for it; every write is at the end. -/
structure Line where
  comp : Bytes
  reads : List Read

def Line.empty : Line := ⟨[], []⟩

def Line.put (l : Line) (b : UInt8) : Line := ⟨l.comp ++ [b], l.reads⟩

/-- `if (*c < limit) comp[(*c)++] = b`. -/
def Line.putBelow (limit : ℕ) (l : Line) (b : UInt8) : Line :=
  if l.comp.length < limit then l.put b else l

/-- A loop that copies from `rbuf` while `k < len` and `c < limit`. -/
def Line.copy (mem : Memory) (limit : ℕ) (src len : ℤ) (l : Line) : Line :=
  let count := min len.toNat (limit - l.comp.length)
  ⟨l.comp ++ bytesFrom mem src count, l.reads ++ [⟨src, count⟩]⟩

/-- A byte of the constant `HEX`. -/
def hexDigit (b : UInt8) : UInt8 := if b < 10 then 48 + b else 87 + b

/-- One turn of the loop over the first bytes of the key. -/
def putHex (mem : Memory) (pkP : ℤ) (l : Line) (k : ℕ) : Line :=
  if l.comp.length < LINEW - 2 then
    let b := mem (pkP + k)
    let l : Line := ⟨l.comp, l.reads ++ [⟨pkP + k, 1⟩]⟩
    (l.putBelow (LINEW - 1) (hexDigit (b >>> 4))).putBelow (LINEW - 1) (hexDigit (b &&& 0xf))
  else l

/-- `"name (pk8)"`. -/
def putIdent (mem : Memory) (r : Record) (l : Line) : Line :=
  let l := l.copy mem (LINEW - 2) r.nameP r.nameL
  if 0 ≤ r.pkP ∧ 0 < r.pkL then
    let l := (l.putBelow (LINEW - 2) 32).putBelow (LINEW - 2) 40
    let l := (List.range (min 4 r.pkL.toNat)).foldl (putHex mem r.pkP) l
    l.putBelow (LINEW - 2) 41
  else l

def putText (l : Line) (s : Bytes) : Line := s.foldl (Line.putBelow LINEW) l

def joinedText : Bytes := utf8 " joined the chat"

def leftText : Bytes := utf8 " left the chat"

def composeLine (mem : Memory) (r : Record) (shown : Shown) : Line :=
  if shown.kind = Kind.join.toNat ∨ shown.kind = Kind.leave.toNat then
    let l := putIdent mem r (putText .empty (utf8 "*** "))
    putText l (if shown.kind = Kind.join.toNat then joinedText else leftText)
  else
    let l := putIdent mem r .empty
    let l := if l.comp.length < LINEW - 2 then (l.put 58).put 32 else l
    l.copy mem LINEW shown.dispP shown.dispL

/-! The transcript and the poll. -/

def MAXLINES : ℕ := 256

/-- `lines` with `line_len`, and `line_count`. -/
structure Transcript where
  lines : ℤ → Bytes
  lineCount : Int32

def Transcript.slot (t : Transcript) : ℤ := t.lineCount.toInt.tmod MAXLINES

def Transcript.appendLine (t : Transcript) (s : Bytes) : Transcript where
  lines := Function.update t.lines t.slot (s.take LINEW)
  lineCount := t.lineCount + 1

/-- What one turn of the loop over the records did. -/
structure Turn where
  record : Record
  shown : Shown
  line : Line
  slot : ℤ

structure Poll where
  walk : Walk
  after : Int64
  transcript : Transcript
  turns : List Turn

/-- What becomes of a record that has been read. -/
def turnOf (mem : Memory) (r : Record) (slot : ℤ) : Turn :=
  let shown := decodePayload mem r.textP r.textL
  ⟨r, shown, composeLine mem r shown, slot⟩

def pollRecord (mem : Memory) (s : Poll) : Poll :=
  let read := readRecord mem s.walk
  let t := turnOf mem read.2 s.transcript.slot
  { walk := ⟨read.1.pos, read.1.reads ++ t.shown.reads ++ t.line.reads⟩
    after := if s.after < read.2.seq then read.2.seq else s.after
    transcript := s.transcript.appendLine t.line.comp
    turns := s.turns ++ [t] }

/-- `poll_messages` after `host::messages_read` has returned `n`. -/
def pollMessages (mem : Memory) (n : ℤ) (after : Int64) (t : Transcript) : Poll :=
  if n ≤ 0 then ⟨⟨0, []⟩, after, t, []⟩
  else
    let array := nextHead mem ⟨0, []⟩
    let s : Poll := ⟨array.2, after, t, []⟩
    if array.1.major ≠ 4 then s
    else (pollRecord mem)^[(cInt array.1.val.toNat).toNat] s

/-- The value returned: whether anything was new. -/
def Poll.got (s : Poll) : Bool := !s.turns.isEmpty

/-! Bytes in memory. -/

/-- The bytes lie at `p`. -/
def Holds (mem : Memory) (p : ℤ) (bytes : Bytes) : Prop := bytesFrom mem p bytes.length = bytes

@[simp] theorem bytesFrom_length (mem : Memory) (start : ℤ) (count : ℕ) :
    (bytesFrom mem start count).length = count := by
  simp [bytesFrom]

theorem bytesFrom_add (mem : Memory) (start : ℤ) (m n : ℕ) :
    bytesFrom mem start (m + n) = bytesFrom mem start m ++ bytesFrom mem (start + m) n := by
  simp [bytesFrom, List.range_add, Function.comp_def, add_assoc]

theorem bytesFrom_succ (mem : Memory) (start : ℤ) (count : ℕ) :
    bytesFrom mem start (count + 1) = mem start :: bytesFrom mem (start + 1) count := by
  rw [Nat.add_comm, bytesFrom_add]
  simp [bytesFrom]

theorem holds_append {mem : Memory} {p : ℤ} {a b : Bytes} :
    Holds mem p (a ++ b) ↔ Holds mem p a ∧ Holds mem (p + a.length) b := by
  unfold Holds
  rw [List.length_append, bytesFrom_add]
  constructor
  · intro h
    exact List.append_inj h (by simp)
  · rintro ⟨ha, hb⟩
    rw [ha, hb]

theorem holds_cons {mem : Memory} {p : ℤ} {b : UInt8} {bytes : Bytes} :
    Holds mem p (b :: bytes) ↔ mem p = b ∧ Holds mem (p + 1) bytes := by
  unfold Holds
  rw [List.length_cons, bytesFrom_succ, List.cons.injEq]

/-! Integers. -/

theorem cInt_of_fits {x : ℤ} (hlow : -2 ^ 31 ≤ x) (hhigh : x < 2 ^ 31) : cInt x = x := by
  apply Int.bmod_eq_of_le <;> omega

/-- A length that a head carries, cast back. -/
theorem cInt_ofNat_of_lt {n : ℕ} (hn : n < 2 ^ 31) : cInt (UInt64.ofNat n).toNat = n := by
  rw [UInt64.toNat_ofNat_of_lt' (show n < 2 ^ 64 by omega)]
  exact cInt_of_fits (by omega) (by omega)

theorem toNat_shiftIn {v : UInt64} (hv : v.toNat < 2 ^ 56) (b : UInt8) :
    (shiftIn v b).toNat = v.toNat * 256 + b.toNat := by
  have hb := b.toNat_lt
  have hfits : v.toNat <<< 8 < 2 ^ 64 := by
    rw [Nat.shiftLeft_eq]
    omega
  have hshift : (v <<< 8).toNat = v.toNat <<< 8 := by
    rw [UInt64.toNat_shiftLeft]
    exact Nat.mod_eq_of_lt hfits
  rw [shiftIn, UInt64.toNat_or, hshift, UInt8.toNat_toUInt64,
    ← Nat.shiftLeft_add_eq_or_of_lt (by omega), Nat.shiftLeft_eq]

/-- At most eight bytes shifted in are the number they stand for. -/
theorem toNat_foldl_shiftIn (bytes : Bytes) (hlength : bytes.length ≤ 8) :
    (bytes.foldl shiftIn 0).toNat = ofBeBytes bytes ∧ ofBeBytes bytes < 256 ^ bytes.length := by
  induction bytes using List.reverseRecOn with
  | nil => exact ⟨rfl, by decide⟩
  | append_singleton bytes b ih =>
    rw [List.length_append, List.length_singleton] at hlength
    obtain ⟨hvalue, hbound⟩ := ih (by omega)
    have hb := b.toNat_lt
    have hsmall : ofBeBytes bytes < 2 ^ 56 := by
      have hpow : 256 ^ bytes.length ≤ 256 ^ 7 := Nat.pow_le_pow_right (by omega) (by omega)
      omega
    have hstep : ofBeBytes (bytes ++ [b]) = ofBeBytes bytes * 256 + b.toNat := by
      simp [ofBeBytes]
    rw [List.foldl_append, List.foldl_cons, List.foldl_nil, hstep, List.length_append,
      List.length_singleton, Nat.pow_succ]
    constructor
    · rw [toNat_shiftIn (by omega), hvalue]
    · omega

/-! Heads in memory. -/

theorem shiftRight_initialByte {major info : ℕ} (hmajor : major < 8) (hinfo : info < 32) :
    (initialByte major info >>> 5).toNat = major := by
  have hfive : (5 : UInt8).toNat % 8 = 5 := rfl
  rw [UInt8.toNat_shiftRight, toNat_initialByte major info hmajor hinfo, hfive,
    Nat.shiftRight_eq_div_pow]
  omega

theorem and_initialByte {major info : ℕ} (hmajor : major < 8) (hinfo : info < 32) :
    initialByte major info &&& 0x1f = UInt8.ofNat info := by
  have hmask : (major * 32 + info) &&& 31 = (major * 32 + info) % 32 :=
    Nat.and_two_pow_sub_one_eq_mod (major * 32 + info) 5
  have hlow : (0x1f : UInt8).toNat = 31 := rfl
  apply UInt8.toNat_inj.mp
  rw [UInt8.toNat_and, toNat_initialByte major info hmajor hinfo, UInt8.toNat_ofNat', hlow, hmask]
  omega

/-- The bytes behind the first, put together. -/
def argument (mem : Memory) (p : ℤ) (width : ℕ) : UInt64 :=
  (bytesFrom mem (p + 1) width).foldl shiftIn 0

theorem shiftIn_zero (b : UInt8) : shiftIn 0 b = b.toUInt64 := by
  simp [shiftIn]

/-- Two shifts and an or, as the four-byte form has them, are three turns of the
loop. -/
theorem shiftIn_four (a b c d : UInt8) :
    a.toUInt64 <<< 24 ||| b.toUInt64 <<< 16 ||| c.toUInt64 <<< 8 ||| d.toUInt64 =
      shiftIn (shiftIn (shiftIn (shiftIn 0 a) b) c) d := by
  have h16 : ∀ x : UInt64, x <<< 8 <<< 8 = x <<< 16 := fun x =>
    (UInt64.shiftLeft_add (by decide) (by decide) (by decide)).symm
  have h24 : ∀ x : UInt64, x <<< 16 <<< 8 = x <<< 24 := fun x =>
    (UInt64.shiftLeft_add (by decide) (by decide) (by decide)).symm
  rw [shiftIn_zero]
  simp only [shiftIn, UInt64.shiftLeft_or, h16, h24]

/-- The four wide forms shift the bytes in one after the other. -/
theorem chead_wide {mem : Memory} {p : ℤ} {major info width : ℕ} (hmajor : major < 8)
    (hwidth : argumentWidth info = some width) (hfirst : mem p = initialByte major info) :
    chead mem p = ⟨width + 1, major, argument mem p width⟩ := by
  have hone : bytesFrom mem (p + 1) 1 = [mem (p + 1)] := by simp [bytesFrom]
  have htwo : bytesFrom mem (p + 1) 2 = [mem (p + 1), mem (p + 2)] := by
    simp [bytesFrom, List.range_succ, add_assoc]
  have hfour : bytesFrom mem (p + 1) 4 =
      [mem (p + 1), mem (p + 2), mem (p + 3), mem (p + 4)] := by
    simp [bytesFrom, List.range_succ, add_assoc]
  unfold argument
  unfold argumentWidth at hwidth
  split at hwidth
  · obtain rfl := Option.some.inj hwidth
    have hai : initialByte major 24 &&& 0x1f = 24 := and_initialByte hmajor (by omega)
    simp [chead, hfirst, shiftRight_initialByte hmajor, hai, hone, shiftIn_zero]
  · obtain rfl := Option.some.inj hwidth
    have hai : initialByte major 25 &&& 0x1f = 25 := and_initialByte hmajor (by omega)
    simp [chead, hfirst, shiftRight_initialByte hmajor, hai, htwo, shiftIn]
  · obtain rfl := Option.some.inj hwidth
    have hai : initialByte major 26 &&& 0x1f = 26 := and_initialByte hmajor (by omega)
    simp [chead, hfirst, shiftRight_initialByte hmajor, hai, hfour, shiftIn_four]
  · obtain rfl := Option.some.inj hwidth
    have hai : initialByte major 27 &&& 0x1f = 27 := and_initialByte hmajor (by omega)
    simp [chead, hfirst, shiftRight_initialByte hmajor, hai]
  · cases hwidth

theorem chead_short {mem : Memory} {p : ℤ} {major n : ℕ} (hmajor : major < 8) (hn : n < 24)
    (hfirst : mem p = initialByte major n) : chead mem p = ⟨1, major, UInt64.ofNat n⟩ := by
  have hai : initialByte major n &&& 0x1f = UInt8.ofNat n := and_initialByte hmajor (by omega)
  have hless : UInt8.ofNat n < 24 := by
    rw [UInt8.lt_iff_toNat_lt, UInt8.toNat_ofNat']
    show n % 256 < 24
    omega
  have hval : (UInt8.ofNat n).toUInt64 = UInt64.ofNat n := by
    apply UInt64.toNat_inj.mp
    rw [UInt8.toNat_toUInt64, UInt8.toNat_ofNat', UInt64.toNat_ofNat']
    omega
  have hinfo : n < 32 := by omega
  simp only [chead, hfirst, shiftRight_initialByte hmajor hinfo, hai, if_pos hless, hval]

/-- The decoder reads every standard head back, whatever follows it. -/
theorem chead_head {mem : Memory} {p : ℤ} {major n : ℕ} (hmajor : major < 8) (hn : n < 2 ^ 64)
    (hheld : Holds mem p (head major n)) :
    chead mem p = ⟨headLength n, major, UInt64.ofNat n⟩ := by
  rcases head_cases hn with ⟨hshort, hlength, hform⟩ |
    ⟨info, width, hwidth, hsmall, hfits, hlength, hform⟩
  · rw [hform, holds_cons] at hheld
    rw [hlength]
    exact chead_short hmajor hshort hheld.1
  · rw [hform, holds_cons] at hheld
    obtain ⟨hfirst, hrest⟩ := hheld
    rw [chead_wide hmajor hwidth hfirst, hlength]
    have hbytes : bytesFrom mem (p + 1) width = beBytes width n := by
      rw [Holds, beBytes_length] at hrest
      exact hrest
    have hvalue : argument mem p width = UInt64.ofNat n := by
      apply UInt64.toNat_inj.mp
      rw [argument, hbytes, (toNat_foldl_shiftIn _ (by simpa using hsmall)).1,
        ofBeBytes_beBytes width n hfits, UInt64.toNat_ofNat_of_lt' hn]
    rw [hvalue]

end Weverywhere.Chat
