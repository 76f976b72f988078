import Weverywhere.Chat
import Weverywhere.MessagesRead

/-!
The walk of `poll_messages` (`src/example-programs/chat.c`) over a reply that
`encode_messages_cbor` has built. It meets the heads of the records one after the
other, looks at nothing else, and finds every field where it was written. What a
payload holds plays no part in it.
-/
namespace Weverywhere.ChatWalk

open ByteStrings Cbor MessageLog MessagesRead Chat

/-- The bytes looked at lie between `low` and `high`. -/
def Within (low high : ℤ) (r : Read) : Prop :=
  r.count = 0 ∨ low ≤ r.start ∧ r.start + r.count ≤ high

theorem Within.mono {low high low' high' : ℤ} {r : Read} (h : Within low high r)
    (hlow : low' ≤ low) (hhigh : high ≤ high') : Within low' high' r := by
  rcases h with hnone | ⟨hstart, hend⟩
  · exact .inl hnone
  · exact .inr ⟨hlow.trans hstart, hend.trans hhigh⟩

/-- The walk has moved on by `len` bytes and looked only at these. -/
structure Moved (w w' : Walk) (len : ℕ) : Prop where
  pos : w'.pos = w.pos + len
  reads : ∀ r ∈ w'.reads, r ∈ w.reads ∨ Within w.pos w'.pos r

theorem Moved.trans {w w' w'' : Walk} {a b : ℕ} (h : Moved w w' a) (h' : Moved w' w'' b) :
    Moved w w'' (a + b) := by
  have hpos := h.pos
  have hpos' := h'.pos
  constructor
  · omega
  · intro r hr
    rcases h'.reads r hr with hr | hr
    · rcases h.reads r hr with hr | hr
      · exact .inl hr
      · exact .inr (hr.mono (by omega) (by omega))
    · exact .inr (hr.mono (by omega) (by omega))

/-- What comes behind the bytes passed over lies where the walk now is. -/
theorem Moved.holds {mem : Memory} {w w' : Walk} {len : ℕ} {a rest : Bytes} (h : Moved w w' len)
    (hlength : a.length = len) (hheld : Holds mem w.pos (a ++ rest)) : Holds mem w'.pos rest := by
  rw [h.pos, ← hlength]
  exact (holds_append.mp hheld).2

/-! One head, one pair, one record. -/

theorem nextHead_head {mem : Memory} {w : Walk} {major n : ℕ} (hmajor : major < 8)
    (hn : n < 2 ^ 64) (hheld : Holds mem w.pos (head major n)) (hlow : 0 ≤ w.pos)
    (hhigh : w.pos + headLength n < 2 ^ 31) :
    ∃ w', nextHead mem w = (⟨headLength n, major, UInt64.ofNat n⟩, w') ∧
      Moved w w' (headLength n) := by
  have hpos : cInt (w.pos + headLength n) = w.pos + headLength n :=
    cInt_of_fits (by omega) hhigh
  refine ⟨⟨w.pos + headLength n, w.reads ++ [⟨w.pos, headLength n⟩]⟩, ?_, rfl, ?_⟩
  · rw [nextHead, chead_head hmajor hn hheld]
    simp only [hpos]
  · intro r hr
    rcases List.mem_append.mp hr with hr | hr
    · exact .inl hr
    · rw [List.mem_singleton.mp hr]
      exact .inr (.inr ⟨le_refl _, le_refl _⟩)

/-- A key of one byte in front of an integer. -/
theorem readField_integer {mem : Memory} {w : Walk} {key n : ℕ} (hkey : key < 24)
    (hn : n < 2 ^ 64) (hheld : Holds mem w.pos (head 0 key ++ head 0 n)) (hlow : 0 ≤ w.pos)
    (hhigh : w.pos + (1 + headLength n) < 2 ^ 31) :
    ∃ w', (∀ r, readField mem (w, r) =
        (w', r.noteInteger (UInt64.ofNat key) (UInt64.ofNat n))) ∧
      Moved w w' (1 + headLength n) := by
  have hone : headLength key = 1 := headLength_of_lt hkey
  rw [holds_append, head_length, hone] at hheld
  obtain ⟨w₁, hread₁, hmoved₁⟩ :=
    nextHead_head (by omega) (by omega) hheld.1 hlow (by omega)
  rw [hone] at hmoved₁
  have hpos₁ := hmoved₁.pos
  have hheld₂ : Holds mem w₁.pos (head 0 n) := by
    rw [hpos₁]
    exact hheld.2
  obtain ⟨w₂, hread₂, hmoved₂⟩ := nextHead_head (by omega) hn hheld₂ (by omega) (by omega)
  refine ⟨w₂, fun r => ?_, hmoved₁.trans hmoved₂⟩
  simp only [readField, hread₁, hread₂, if_true]

/-- A key of one byte in front of a string. -/
theorem readField_string {mem : Memory} {w : Walk} {key major : ℕ} {b : Bytes}
    (hkey : key < 24) (hmajor : major < 8) (hstring : major ≠ 0)
    (hheld : Holds mem w.pos (head 0 key ++ (head major b.length ++ b))) (hlow : 0 ≤ w.pos)
    (hhigh : w.pos + (1 + (headLength b.length + b.length)) < 2 ^ 31) :
    ∃ w', (∀ r, readField mem (w, r) = (w', r.note (UInt64.ofNat key)
        (w.pos + (1 + headLength b.length)) b.length)) ∧
      Moved w w' (1 + (headLength b.length + b.length)) := by
  have hone : headLength key = 1 := headLength_of_lt hkey
  rw [holds_append, holds_append, head_length, hone] at hheld
  obtain ⟨w₁, hread₁, hmoved₁⟩ :=
    nextHead_head (by omega) (by omega) hheld.1 hlow (by omega)
  rw [hone] at hmoved₁
  have hpos₁ := hmoved₁.pos
  have hheld₂ : Holds mem w₁.pos (head major b.length) := by
    rw [hpos₁]
    exact hheld.2.1
  obtain ⟨w₂, hread₂, hmoved₂⟩ := nextHead_head hmajor (by omega) hheld₂ (by omega) (by omega)
  have hpos₂ := hmoved₂.pos
  have hlength : cInt (UInt64.ofNat b.length).toNat = b.length := cInt_ofNat_of_lt (by omega)
  have hend : cInt (w₂.pos + b.length) = w₂.pos + b.length :=
    cInt_of_fits (by omega) (by omega)
  refine ⟨⟨w₂.pos + b.length, w₂.reads⟩, ?_, ?_, ?_⟩
  · intro r
    simp only [readField, hread₁, hread₂, if_neg hstring, hlength, hend]
    rw [show w.pos + (1 + headLength b.length) = w₂.pos by omega]
  · show w₂.pos + b.length = w.pos + (1 + (headLength b.length + b.length) : ℕ)
    omega
  · intro x hx
    rcases (hmoved₁.trans hmoved₂).reads x hx with hx | hx
    · exact .inl hx
    · exact .inr (hx.mono (by omega) (by show w₂.pos ≤ w₂.pos + b.length; omega))

/-! Where the fields of a record lie, from its first byte on. -/

def nameOff (m : StoredMessage) : ℕ :=
  1 + (1 + headLength m.seq) + (1 + headLength (utf8 m.fromName).length)

def pkOff (m : StoredMessage) : ℕ :=
  nameOff m + (utf8 m.fromName).length + (1 + headLength m.fromPubkey.length)

def textOff (m : StoredMessage) : ℕ :=
  pkOff m + m.fromPubkey.length + (1 + headLength m.epochS.toNat) + (1 + headLength m.text.length)

/-- What is remembered of the record of `m` at `p`. -/
def recordAt (p : ℤ) (m : StoredMessage) : Record where
  seq := (UInt64.ofNat m.seq).toInt64
  nameP := p + nameOff m
  nameL := (utf8 m.fromName).length
  pkP := p + pkOff m
  pkL := m.fromPubkey.length
  textP := p + textOff m
  textL := m.text.length

theorem encode_toValue_length (m : StoredMessage) :
    (encode (toValue m)).length = textOff m + m.text.length := by
  rw [encode_toValue]
  simp (disch := omega) only [List.length_append, head_length, headLength_of_lt, textOff, pkOff,
    nameOff]
  omega

/-- The record once its fields are noted, the clock passed over. -/
theorem noted_recordAt (p : ℤ) (m : StoredMessage) :
    ((((Record.init.noteInteger (UInt64.ofNat 1) (UInt64.ofNat m.seq)).note (UInt64.ofNat 2)
      (p + nameOff m) (utf8 m.fromName).length).note (UInt64.ofNat 3)
      (p + pkOff m) m.fromPubkey.length).noteInteger (UInt64.ofNat 4)
      (UInt64.ofNat m.epochS.toNat)).note (UInt64.ofNat 5) (p + textOff m) m.text.length =
      recordAt p m := rfl

/-- The walk over one record finds its fields and ends behind it. -/
theorem readRecord_encode {mem : Memory} {w : Walk} {m : StoredMessage} (hseq : m.seq < 2 ^ 64)
    (hheld : Holds mem w.pos (encode (toValue m))) (hlow : 0 ≤ w.pos)
    (hhigh : w.pos + (encode (toValue m)).length < 2 ^ 31) :
    ∃ w', readRecord mem w = (w', recordAt w.pos m) ∧ Moved w w' (encode (toValue m)).length := by
  have hepoch := m.epochS.toNat_lt
  have hone : ∀ n < 24, headLength n = 1 := fun _ => headLength_of_lt
  have hname : nameOff m = 1 + (1 + headLength m.seq) + (1 + headLength (utf8 m.fromName).length) :=
    rfl
  have hpk : pkOff m = nameOff m + (utf8 m.fromName).length +
      (1 + headLength m.fromPubkey.length) := rfl
  have htext : textOff m = pkOff m + m.fromPubkey.length + (1 + headLength m.epochS.toNat) +
      (1 + headLength m.text.length) := rfl
  rw [encode_toValue_length] at hhigh ⊢
  rw [encode_toValue] at hheld
  obtain ⟨w₀, hread₀, hmoved₀⟩ := nextHead_head (by omega) (by omega) (holds_append.mp hheld).1
    hlow (by rw [hone 5 (by omega)]; omega)
  rw [hone 5 (by omega)] at hmoved₀
  have hheld₀ := hmoved₀.holds (by simp [hone]) hheld
  have hpos₀ := hmoved₀.pos
  obtain ⟨w₁, hread₁, hmoved₁⟩ := readField_integer (by omega) hseq
    (holds_append.mp hheld₀).1 (by omega) (by omega)
  have hheld₁ := hmoved₁.holds (by simp [hone]) hheld₀
  have hpos₁ := hmoved₁.pos
  obtain ⟨w₂, hread₂, hmoved₂⟩ := readField_string (by omega) (by omega) (by omega)
    (holds_append.mp hheld₁).1 (by omega) (by omega)
  have hheld₂ := hmoved₂.holds (by simp [hone]) hheld₁
  have hpos₂ := hmoved₂.pos
  obtain ⟨w₃, hread₃, hmoved₃⟩ := readField_string (by omega) (by omega) (by omega)
    (holds_append.mp hheld₂).1 (by omega) (by omega)
  have hheld₃ := hmoved₃.holds (by simp [hone]) hheld₂
  have hpos₃ := hmoved₃.pos
  obtain ⟨w₄, hread₄, hmoved₄⟩ := readField_integer (by omega) hepoch
    (holds_append.mp hheld₃).1 (by omega) (by omega)
  have hheld₄ := hmoved₄.holds (by simp [hone]) hheld₃
  have hpos₄ := hmoved₄.pos
  obtain ⟨w₅, hread₅, hmoved₅⟩ := readField_string (by omega) (by omega) (by omega)
    hheld₄ (by omega) (by omega)
  have hcount : (cInt (UInt64.ofNat 5).toNat).toNat = 5 := by decide
  have hloop : readRecord mem w = (readField mem)^[5] (w₀, Record.init) := by
    rw [readRecord, hread₀]
    dsimp only
    rw [hcount]
  refine ⟨w₅, ?_, ?_⟩
  · rw [hloop, ← noted_recordAt]
    show readField mem (readField mem (readField mem (readField mem (readField mem
      (w₀, Record.init))))) = _
    rw [hread₁, hread₂, hread₃, hread₄, hread₅]
    rw [show w₁.pos + (1 + headLength (utf8 m.fromName).length) = w.pos + nameOff m by omega,
      show w₂.pos + (1 + headLength m.fromPubkey.length) = w.pos + pkOff m by omega,
      show w₄.pos + (1 + headLength m.text.length) = w.pos + textOff m by omega]
  · have hmoved := ((((hmoved₀.trans hmoved₁).trans hmoved₂).trans hmoved₃).trans
      hmoved₄).trans hmoved₅
    refine ⟨?_, hmoved.reads⟩
    rw [hmoved.pos]
    omega

/-- The text is the end of the record. -/
theorem holds_text {mem : Memory} {p : ℤ} {m : StoredMessage}
    (hheld : Holds mem p (encode (toValue m))) : Holds mem (p + textOff m) m.text := by
  have hlength := encode_toValue_length m
  obtain ⟨front, hsplit⟩ : ∃ front, encode (toValue m) = front ++ m.text := by
    rw [encode_toValue]
    simp only [← List.append_assoc]
    exact ⟨_, rfl⟩
  have hfront : front.length = textOff m := by
    rw [hsplit, List.length_append] at hlength
    omega
  rw [hsplit, holds_append, hfront] at hheld
  exact hheld.2

/-! The loop over the records. -/

/-- What a turn over the record of `m` at `p` finds, whatever the payload holds. -/
structure TurnAt (mem : Memory) (n : ℕ) (p : ℤ) (m : StoredMessage) (t : Turn) : Prop where
  low : 0 ≤ p
  high : p + textOff m + m.text.length ≤ n
  text : Holds mem (p + textOff m) m.text
  record : t.record = recordAt p m
  shown : t.shown = decodePayload mem (p + textOff m) m.text.length
  line : t.line = composeLine mem t.record t.shown

/-- The effect of one turn. -/
structure TookIn (mem : Memory) (n : ℕ) (m : StoredMessage) (s s' : Poll) (t : Turn) : Prop where
  turn : ∃ p, TurnAt mem n p m t
  slot : t.slot = s.transcript.slot
  turns : s'.turns = s.turns ++ [t]
  transcript : s'.transcript = s.transcript.appendLine t.line.comp
  after : s'.after = if s.after < (UInt64.ofNat m.seq).toInt64 then (UInt64.ofNat m.seq).toInt64
    else s.after
  pos : s'.walk.pos = s.walk.pos + (encode (toValue m)).length
  reads : ∀ r ∈ s'.walk.reads,
    r ∈ s.walk.reads ∨ Within 0 n r ∨ r ∈ t.shown.reads ∨ r ∈ t.line.reads

theorem pollRecord_encode {mem : Memory} {n : ℕ} (hn : n < 2 ^ 31) {s : Poll} {m : StoredMessage}
    (hseq : m.seq < 2 ^ 64) (hheld : Holds mem s.walk.pos (encode (toValue m)))
    (hlow : 0 ≤ s.walk.pos) (hhigh : s.walk.pos + (encode (toValue m)).length ≤ n) :
    ∃ t, TookIn mem n m s (pollRecord mem s) t := by
  obtain ⟨w, hread, hmoved⟩ := readRecord_encode hseq hheld hlow (by omega)
  have hlength := encode_toValue_length m
  have hpos := hmoved.pos
  refine ⟨turnOf mem (recordAt s.walk.pos m) s.transcript.slot, ?_⟩
  rw [pollRecord, hread]
  refine ⟨⟨s.walk.pos, hlow, by omega, holds_text hheld, rfl, rfl, rfl⟩, rfl, rfl, rfl, rfl, hpos,
    ?_⟩
  intro r hr
  rcases List.mem_append.mp hr with hr | hr
  · rcases List.mem_append.mp hr with hr | hr
    · rcases hmoved.reads r hr with hr | hr
      · exact .inl hr
      · exact .inr (.inl (hr.mono hlow (by omega)))
    · exact .inr (.inr (.inl hr))
  · exact .inr (.inr (.inr hr))

/-- The loop over the records of `msgs`, turn by turn. -/
inductive Polled (mem : Memory) (n : ℕ) : Poll → List StoredMessage → List Turn → Poll → Prop
  | nil (s : Poll) : Polled mem n s [] [] s
  | cons {s s' s'' : Poll} {m : StoredMessage} {msgs : List StoredMessage} {t : Turn}
      {turns : List Turn} (hturn : TookIn mem n m s s' t) (hrest : Polled mem n s' msgs turns s'') :
      Polled mem n s (m :: msgs) (t :: turns) s''

theorem Polled.turns_eq {mem : Memory} {n : ℕ} {s s' : Poll} {msgs : List StoredMessage}
    {turns : List Turn} (h : Polled mem n s msgs turns s') : s'.turns = s.turns ++ turns := by
  induction h with
  | nil s => exact (List.append_nil _).symm
  | cons hturn hrest ih => rw [ih, hturn.turns, List.append_assoc, List.singleton_append]

/-- Every record has its turn. -/
theorem Polled.forall₂ {mem : Memory} {n : ℕ} {s s' : Poll} {msgs : List StoredMessage}
    {turns : List Turn} (h : Polled mem n s msgs turns s') :
    List.Forall₂ (fun m t => ∃ p, TurnAt mem n p m t) msgs turns := by
  induction h with
  | nil s => exact .nil
  | cons hturn hrest ih => exact .cons hturn.turn ih

theorem pollRecords_encode {mem : Memory} {n : ℕ} (hn : n < 2 ^ 31) {s : Poll}
    (msgs : List StoredMessage) (hseq : ∀ m ∈ msgs, m.seq < 2 ^ 64)
    (hheld : Holds mem s.walk.pos (encodeItems (msgs.map toValue))) (hlow : 0 ≤ s.walk.pos)
    (hhigh : s.walk.pos + (encodeItems (msgs.map toValue)).length ≤ n) :
    ∃ turns, Polled mem n s msgs turns ((pollRecord mem)^[msgs.length] s) := by
  induction msgs generalizing s with
  | nil => exact ⟨[], .nil s⟩
  | cons m msgs ih =>
    rw [List.map_cons, encodeItems, holds_append] at hheld
    rw [List.map_cons, encodeItems, List.length_append] at hhigh
    obtain ⟨t, hturn⟩ := pollRecord_encode hn (hseq m (by simp)) hheld.1 hlow (by omega)
    have hpos := hturn.pos
    obtain ⟨turns, hrest⟩ := ih (s := pollRecord mem s)
      (fun m' hm' => hseq m' (List.mem_cons_of_mem m hm')) (by rw [hpos]; exact hheld.2)
      (by omega) (by omega)
    rw [List.length_cons, Function.iterate_succ_apply]
    exact ⟨t :: turns, .cons hturn hrest⟩

theorem length_le_encodeItems (msgs : List StoredMessage) :
    msgs.length ≤ (encodeItems (msgs.map toValue)).length := by
  induction msgs with
  | nil => exact Nat.zero_le _
  | cons m msgs ih =>
    have hlength := encode_toValue_length m
    rw [textOff, pkOff, nameOff] at hlength
    rw [List.map_cons, encodeItems, List.length_append, List.length_cons]
    omega

/-- A poll passes over the head of a reply of `n` bytes and takes in one record after the
other. -/
theorem pollMessages_start {mem : Memory} {n : ℕ} (hn : n < 2 ^ 31) (after : Int64)
    (transcript : Transcript) (msgs : List StoredMessage)
    (hheld : Holds mem 0 (encode (.array (msgs.map toValue))))
    (hlength : (encode (.array (msgs.map toValue))).length = n) :
    ∃ w : Walk, (∀ r ∈ w.reads, Within 0 n r) ∧ 0 ≤ w.pos ∧
      w.pos + (encodeItems (msgs.map toValue)).length = n ∧
      Holds mem w.pos (encodeItems (msgs.map toValue)) ∧
      pollMessages mem n after transcript =
        (pollRecord mem)^[msgs.length] ⟨w, after, transcript, []⟩ := by
  have hpositive := headLength_pos msgs.length
  have hcount := length_le_encodeItems msgs
  rw [encode, List.length_map] at hheld
  rw [encode, List.length_map, List.length_append, head_length] at hlength
  obtain ⟨w, hread, hmoved⟩ := nextHead_head (w := ⟨0, []⟩) (by omega) (by omega)
    (holds_append.mp hheld).1 (le_refl 0) (by dsimp only; omega)
  have hpos : w.pos = 0 + headLength msgs.length := hmoved.pos
  have htimes : (cInt (UInt64.ofNat msgs.length).toNat).toNat = msgs.length := by
    rw [cInt_ofNat_of_lt (by omega), Int.toNat_natCast]
  refine ⟨w, ?_, by omega, by omega, hmoved.holds (head_length _ _) hheld, ?_⟩
  · intro r hr
    rcases hmoved.reads r hr with hr | hr
    · cases hr
    · exact hr.mono (le_refl 0) (by omega)
  · have hsome : ¬ (n : ℤ) ≤ 0 := by omega
    rw [pollMessages, if_neg hsome, hread]
    dsimp only
    rw [if_neg (by simp), htimes]

/-- A poll that gets a reply of `n` bytes takes in the records in it. -/
theorem pollMessages_encode {mem : Memory} {n : ℕ} (hn : n < 2 ^ 31) (after : Int64)
    (transcript : Transcript) (msgs : List StoredMessage) (hseq : ∀ m ∈ msgs, m.seq < 2 ^ 64)
    (hheld : Holds mem 0 (encode (.array (msgs.map toValue))))
    (hlength : (encode (.array (msgs.map toValue))).length = n) :
    ∃ w turns, (∀ r ∈ w.reads, Within 0 n r) ∧
      Polled mem n ⟨w, after, transcript, []⟩ msgs turns
        (pollMessages mem n after transcript) := by
  obtain ⟨w, hreads, hlow, hend, hitems, hpoll⟩ :=
    pollMessages_start hn after transcript msgs hheld hlength
  obtain ⟨turns, hpolled⟩ := pollRecords_encode hn (s := ⟨w, after, transcript, []⟩) msgs hseq
    hitems hlow hend.le
  exact ⟨w, turns, hreads, hpoll ▸ hpolled⟩

end Weverywhere.ChatWalk
