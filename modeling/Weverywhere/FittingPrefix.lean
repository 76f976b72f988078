import Weverywhere.Chat
import Weverywhere.CborHeads
import Weverywhere.MessagesRead

/-!
What `encode_messages_cbor` (`src/src/executor/mod.rs`) returns: the longest front
of the messages whose encoding fits the guest's buffer. The guest in question, the
chat program, reads every head of it back.
-/
namespace Weverywhere.FittingPrefix

open ByteStrings Cbor CborHeads MessageLog MessagesRead Chat

/-- Messages whose sizes and numbers are those of the source's types. -/
structure Storable (msgs : List StoredMessage) : Prop where
  length_lt : msgs.length < 2 ^ 64
  sized : ∀ m ∈ msgs, Sized m
  seq_lt : ∀ m ∈ msgs, m.seq < 2 ^ 64

/-- The records of the first `n` messages. -/
def records (msgs : List StoredMessage) (n : ℕ) : Value := .array ((msgs.take n).map toValue)

variable {msgs : List StoredMessage}

theorem Storable.serializable (h : Storable msgs) (n : ℕ) : Serializable 3 (records msgs n) := by
  have hsub : (msgs.take n).Sublist msgs := List.take_sublist n msgs
  apply serializable_records
  · exact hsub.length_le.trans_lt h.length_lt
  · intro m hm
    exact h.sized m (hsub.subset hm)
  · intro m hm
    exact h.seq_lt m (hsub.subset hm)

theorem Storable.encodeFirst_eq (h : Storable msgs) {toVec : Value → Option Bytes}
    (htoVec : StandardEncoder toVec) (n : ℕ) :
    encodeFirst toVec msgs n = encode (records msgs n) := by
  rw [encodeFirst, ← records, htoVec 3 _ (h.serializable n), Option.getD_some]

/-- The chat program's view of a head that stands in its buffer. -/
theorem chead_inPlace {mem : Memory} {bytes : Bytes} {h : HeadAt} (hplace : InPlace 0 bytes h)
    (hheld : Holds mem 0 bytes) :
    (chead mem h.pos).length = headLength h.argument ∧ (chead mem h.pos).major = h.major ∧
      (chead mem h.pos).val.toNat = h.argument := by
  obtain ⟨before, after, rfl, hpos⟩ := hplace.found
  rw [holds_append, holds_append] at hheld
  have hhead : Holds mem h.pos (head h.major h.argument) := by
    have hthere := hheld.1.2
    rw [show (0 : ℤ) + before.length = h.pos by omega] at hthere
    exact hthere
  rw [chead_head hplace.major_lt hplace.argument_lt hhead]
  exact ⟨rfl, rfl, UInt64.toNat_ofNat_of_lt' hplace.argument_lt⟩

/-- Each record is a map of five entries under the five keys. -/
theorem toValue_entries (m : StoredMessage) :
    ∃ entries, toValue m = .map entries ∧ entries.length = 5 ∧ (entries.map Prod.fst).Nodup := by
  refine ⟨_, rfl, rfl, ?_⟩
  simp [MessageKeys.SEQ, MessageKeys.NAME, MessageKeys.PUBKEY, MessageKeys.EPOCH_S,
    MessageKeys.TEXT]

/-- For all messages and every buffer, the reply fits, decodes to the records of a
front of the messages, that front is the longest that would have fitted, and the
chat program reads each of its heads as it was written. -/
theorem encode_longest_prefix {toVec : Value → Option Bytes} (htoVec : StandardEncoder toVec)
    (msgs : List StoredMessage) (hmsgs : Storable msgs) {cap : ℕ} (hcap : 1 ≤ cap) :
    ∃ n ≤ msgs.length,
      (encodeMessagesCbor toVec msgs cap).length ≤ cap ∧
      decode 3 (encodeMessagesCbor toVec msgs cap) = some (records msgs n) ∧
      (∀ m ∈ msgs.take n, ∃ entries, toValue m = .map entries ∧ entries.length = 5 ∧
        (entries.map Prod.fst).Nodup) ∧
      recordsOf (encodeMessagesCbor toVec msgs cap) = some (msgs.take n) ∧
      (∀ k, n < k → k ≤ msgs.length → cap < (encodeFirst toVec msgs k).length) ∧
      ∀ mem, Holds mem 0 (encodeMessagesCbor toVec msgs cap) →
        ∀ h ∈ heads 0 (records msgs n),
          (chead mem h.pos).length = headLength h.argument ∧
            (chead mem h.pos).major = h.major ∧ (chead mem h.pos).val.toNat = h.argument := by
  obtain ⟨n, hn, hresult, hsmall, hmax⟩ := encodeLoop_spec toVec msgs cap msgs.length
  have hencoded : encodeMessagesCbor toVec msgs cap = encode (records msgs n) := by
    rw [encodeMessagesCbor, hresult, hmsgs.encodeFirst_eq htoVec]
  have hserializable := hmsgs.serializable n
  have hfits : (encode (records msgs n)).length ≤ cap := by
    rcases hsmall with rfl | hsmall
    · -- the head of the empty list is one byte
      have hempty : (encode (records msgs 0)).length = 1 := rfl
      omega
    · rw [hmsgs.encodeFirst_eq htoVec] at hsmall
      exact hsmall
  refine ⟨n, hn, ?_, ?_, fun m _ => toValue_entries m, ?_, hmax, ?_⟩
  · rw [hencoded]
    exact hfits
  · rw [hencoded]
    exact decode_encode 3 _ hserializable
  · rw [hencoded]
    exact recordsOf_encode _ hserializable
  · intro mem hheld h hh
    rw [hencoded] at hheld
    exact chead_inPlace (heads_inPlace 3 _ hserializable 0 h hh) hheld

/-- The two lines of the earlier run in a buffer that holds one of them. -/
theorem encode_longest_prefix_line :
    ∃ n ≤ 2, (encodeMessagesCbor (fun v => some (encode v))
        [Push.stored (shortPush, 1), Push.stored (shortPush, 2)] 64).length ≤ 64 ∧
      recordsOf (encodeMessagesCbor (fun v => some (encode v))
        [Push.stored (shortPush, 1), Push.stored (shortPush, 2)] 64) =
          some ([Push.stored (shortPush, 1), Push.stored (shortPush, 2)].take n) := by
  have hstorable : Storable [Push.stored (shortPush, 1), Push.stored (shortPush, 2)] := by
    refine ⟨by decide, ?_, ?_⟩
    · intro m hm
      rcases List.mem_pair.mp hm with rfl | rfl
      · exact sizesHeld_longThenShort shortPush (by simp [longThenShort]) 1
      · exact sizesHeld_longThenShort shortPush (by simp [longThenShort]) 2
    · intro m hm
      rcases List.mem_pair.mp hm with rfl | rfl <;> decide
  obtain ⟨n, hn, hfits, -, -, hrecords, -⟩ :=
    encode_longest_prefix standardEncoder_encode _ hstorable (show 1 ≤ 64 by omega)
  exact ⟨n, hn, hfits, hrecords⟩

end Weverywhere.FittingPrefix
