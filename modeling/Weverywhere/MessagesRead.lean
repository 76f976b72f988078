import Weverywhere.Cbor
import Weverywhere.MessageLog
import Weverywhere.Paging

/-!
How a guest reads the message store: `host::messages_read` and
`encode_messages_cbor` (`src/src/executor/mod.rs`), and the reader that keeps
polling with the highest sequence number it has seen, as `poll_messages` of
`src/example-programs/chat.c` does.
-/
namespace Weverywhere.MessagesRead

open ByteStrings BoundedQueue Cbor MessageLog Paging

namespace MessageKeys

def SEQ : ℤ := 1
def NAME : ℤ := 2
def PUBKEY : ℤ := 3
def EPOCH_S : ℤ := 4
def TEXT : ℤ := 5

end MessageKeys

/-- The map the closure `to_value` builds; its entries are in key order. -/
def toValue (m : StoredMessage) : Value :=
  .map [(.integer MessageKeys.SEQ, .integer m.seq),
    (.integer MessageKeys.NAME, .text m.fromName),
    (.integer MessageKeys.PUBKEY, .bytes m.fromPubkey),
    (.integer MessageKeys.EPOCH_S, .integer m.epochS.toNat),
    (.integer MessageKeys.TEXT, .bytes m.text)]

/-- The reply that carries the first `n` messages. The serializer is a
parameter; its failure leaves an empty reply. -/
def encodeFirst (toVec : Value → Option Bytes) (msgs : List StoredMessage) (n : ℕ) : Bytes :=
  (toVec (.array ((msgs.take n).map toValue))).getD []

/-- The loop of `encode_messages_cbor`, entered with `n` messages. -/
def encodeLoop (toVec : Value → Option Bytes) (msgs : List StoredMessage) (cap : ℕ) : ℕ → Bytes
  | 0 => encodeFirst toVec msgs 0
  | n + 1 =>
      if (encodeFirst toVec msgs (n + 1)).length ≤ cap then encodeFirst toVec msgs (n + 1)
      else encodeLoop toVec msgs cap n

def encodeMessagesCbor (toVec : Value → Option Bytes) (msgs : List StoredMessage) (cap : ℕ) :
    Bytes :=
  encodeLoop toVec msgs cap msgs.length

/-- What `write_guest_bytes` copies into a buffer inside the guest's memory. -/
def writeGuestBytes (cap : ℕ) (src : Bytes) : Bytes := src.take (min src.length cap)

/-- A number of elements as the `i32` a guest gets. -/
def asI32 (n : ℕ) : Int32 := Int32.ofNat n

/-- `list.get(index as usize)`: a negative index is beyond every list. -/
def getIndex {α : Type} (list : List α) (index : Int32) : Option α :=
  if index < 0 then none else list[index.toNatClampNeg]?

/-- What a guest's buffer of `cap` bytes gets of a text. -/
def written (cap : Int32) (s : String) : Bytes := writeGuestBytes cap.toNatClampNeg (utf8 s)

/-- `host::messages_read`; negative arguments count as zero. -/
def messagesRead (toVec : Value → Option Bytes) (s : MessageStore) (afterSeq : Int64)
    (cap : Int32) : Bytes :=
  writeGuestBytes cap.toNatClampNeg
    (encodeMessagesCbor toVec (s.readAfter afterSeq.toNatClampNeg) cap.toNatClampNeg)

/-! The reader. -/

/-- The message of one record, its fields found by key. -/
def ofValue : Value → Option StoredMessage
  | .map entries => do
    let seq ← integerAt MessageKeys.SEQ entries
    let fromName ← textAt MessageKeys.NAME entries
    let fromPubkey ← bytesAt MessageKeys.PUBKEY entries
    let epochS ← integerAt MessageKeys.EPOCH_S entries
    let text ← bytesAt MessageKeys.TEXT entries
    pure ⟨seq.toNat, fromName, fromPubkey, text, UInt64.ofNat epochS.toNat⟩
  | _ => none

/-- The messages of a reply: a list of records, three levels deep. -/
def recordsOf (reply : Bytes) : Option (List StoredMessage) :=
  match decode 3 reply with
  | some (.array items) => items.mapM ofValue
  | _ => none

structure Reader where
  after : Int64
  received : List StoredMessage
  deriving DecidableEq

namespace Reader

/-- Take in one record and remember the largest sequence number seen. -/
def take (r : Reader) (m : StoredMessage) : Reader where
  after := if r.after < Int64.ofNat m.seq then Int64.ofNat m.seq else r.after
  received := r.received ++ [m]

/-- One poll with a buffer of `cap` bytes; a reply that is not a list of records
changes nothing. -/
def poll (toVec : Value → Option Bytes) (s : MessageStore) (cap : Int32) (r : Reader) : Reader :=
  match recordsOf (messagesRead toVec s r.after cap) with
  | some msgs => msgs.foldl take r
  | none => r

/-- `k` polls while the store stays as it is. -/
def polls (toVec : Value → Option Bytes) (s : MessageStore) (cap : Int32) (r : Reader) :
    ℕ → Reader
  | 0 => r
  | k + 1 => poll toVec s cap (polls toVec s cap r k)

end Reader

/-! What the store holds. -/

/-- Sizes a length head can state; a datagram carries far less. -/
def Sized (m : StoredMessage) : Prop :=
  (utf8 m.fromName).length < 2 ^ 64 ∧ m.fromPubkey.length < 2 ^ 64 ∧ m.text.length < 2 ^ 64

structure Readable (s : MessageStore) : Prop where
  ascending : s.msgs.Pairwise fun m n => m.seq < n.seq
  seq_pos : ∀ m ∈ s.msgs, 0 < m.seq
  seq_lt : ∀ m ∈ s.msgs, m.seq < 2 ^ 63
  sized : ∀ m ∈ s.msgs, Sized m

/-- What a run of the store keeps, whatever it is called with. -/
structure Numbered (s : MessageStore) (pushes : ℕ) : Prop where
  ascending : s.msgs.Pairwise fun m n => m.seq < n.seq
  seq_pos : ∀ m ∈ s.msgs, 0 < m.seq
  below : ∀ m ∈ s.msgs, m.seq < s.nextSeq
  nextSeq_pos : 0 < s.nextSeq
  nextSeq_le : s.nextSeq ≤ 1 + pushes
  sized : ∀ m ∈ s.msgs, Sized m

/-- A push leaves the messages alone or numbers one more and trims. -/
theorem pushOf_cases (s : MessageStore) (p : Push) :
    ((s.pushOf p).1.msgs = s.msgs ∧ (s.pushOf p).1.nextSeq = s.nextSeq) ∨
      ((s.pushOf p).1.msgs = (s.msgs ++ [Push.stored (p, s.nextSeq)]).rtake s.cap ∧
        (s.pushOf p).1.nextSeq = s.nextSeq + 1) := by
  by_cases hid : p.id.isEmpty
  · simp only [MessageStore.pushOf, MessageStore.push, hid, if_true]
    exact .inr ⟨trimFront_eq_rtake _ _, rfl⟩
  · simp only [MessageStore.pushOf, MessageStore.push, hid, Bool.false_eq_true, if_false]
    by_cases hseen : p.fromPubkey ++ p.id ∈ s.seen
    · left
      simp only [hseen, if_true, and_self]
    · simp only [hseen, if_false]
      exact .inr ⟨trimFront_eq_rtake _ _, rfl⟩

theorem numbered_push {s : MessageStore} {pushes : ℕ} (h : Numbered s pushes) (p : Push)
    (hsize : ∀ seq, Sized (Push.stored (p, seq))) : Numbered (s.pushOf p).1 (pushes + 1) := by
  have hnext := h.nextSeq_le
  rcases pushOf_cases s p with ⟨hmsgs, hseq⟩ | ⟨hmsgs, hseq⟩
  · exact {
      ascending := by rw [hmsgs]; exact h.ascending
      seq_pos := by rw [hmsgs]; exact h.seq_pos
      below := by rw [hmsgs, hseq]; exact h.below
      nextSeq_pos := by rw [hseq]; exact h.nextSeq_pos
      nextSeq_le := by omega
      sized := by rw [hmsgs]; exact h.sized }
  · have hmem : ∀ m ∈ (s.pushOf p).1.msgs, m ∈ s.msgs ∨ m = Push.stored (p, s.nextSeq) := by
      intro m hm
      rw [hmsgs] at hm
      simpa using (rtake_sublist _ _).subset hm
    have hall : (s.msgs ++ [Push.stored (p, s.nextSeq)]).Pairwise fun m n => m.seq < n.seq := by
      rw [List.pairwise_append]
      refine ⟨h.ascending, List.pairwise_singleton _ _, ?_⟩
      intro m hm n hn
      rw [List.mem_singleton.mp hn]
      exact h.below m hm
    refine ⟨?_, ?_, ?_, by omega, by omega, ?_⟩
    · rw [hmsgs]
      exact hall.sublist (rtake_sublist _ _)
    · intro m hm
      rcases hmem m hm with hold | rfl
      · exact h.seq_pos m hold
      · exact h.nextSeq_pos
    · intro m hm
      rw [hseq]
      rcases hmem m hm with hold | rfl
      · exact Nat.lt_succ_of_lt (h.below m hold)
      · exact Nat.lt_succ_self _
    · intro m hm
      rcases hmem m hm with hold | rfl
      · exact h.sized m hold
      · exact hsize _

/-- Every message pushed has sizes a length head can state. -/
def SizesHeld (calls : List Call) : Prop :=
  ∀ p, Call.push p ∈ calls → ∀ seq, Sized (Push.stored (p, seq))

theorem numbered_run (cap : ℕ) (calls : List Call) (hsizes : SizesHeld calls) :
    Numbered ((MessageStore.new cap).run calls) calls.length := by
  induction calls using List.reverseRecOn with
  | nil =>
    exact {
      ascending := List.Pairwise.nil
      seq_pos := by simp [MessageStore.run, MessageStore.new]
      below := by simp [MessageStore.run, MessageStore.new]
      nextSeq_pos := Nat.one_pos
      nextSeq_le := Nat.le_refl _
      sized := by simp [MessageStore.run, MessageStore.new] }
  | append_singleton calls call ih =>
    have hprior := ih fun p hp => hsizes p (List.mem_append_left _ hp)
    have hrun : (MessageStore.new cap).run (calls ++ [call]) =
        ((MessageStore.new cap).run calls).call call := by
      simp [MessageStore.run]
    rw [hrun, List.length_append, List.length_singleton]
    cases call with
    | push p => exact numbered_push hprior p (hsizes p (by simp))
    | readAfter afterSeq =>
      exact { hprior with nextSeq_le := hprior.nextSeq_le.trans (by omega) }

/-- Sequence numbers grow by one, so the reader's signed mark holds them for
2^63 - 1 calls. -/
theorem readable_run (cap : ℕ) (calls : List Call) (hcount : calls.length < 2 ^ 63)
    (hsizes : SizesHeld calls) : Readable ((MessageStore.new cap).run calls) := by
  have h := numbered_run cap calls hsizes
  refine ⟨h.ascending, h.seq_pos, fun m hm => ?_, h.sized⟩
  have hbelow := h.below m hm
  have hnext := h.nextSeq_le
  omega

/-! One reply. -/

theorem serializable_toValue (m : StoredMessage) (hsized : Sized m) (hseq : m.seq < 2 ^ 64) :
    Serializable 2 (toValue m) := by
  obtain ⟨hname, hpubkey, htext⟩ := hsized
  have hepoch := m.epochS.toNat_lt
  simp only [toValue, Serializable, List.length_cons, List.length_nil, List.forall_mem_cons,
    List.not_mem_nil, false_implies, implies_true, and_true, MessageKeys.SEQ, MessageKeys.NAME,
    MessageKeys.PUBKEY, MessageKeys.EPOCH_S, MessageKeys.TEXT]
  omega

theorem ofValue_toValue (m : StoredMessage) : ofValue (toValue m) = some m := by
  simp [ofValue, toValue, integerAt, textAt, bytesAt, lookup, isKey, MessageKeys.SEQ,
    MessageKeys.NAME, MessageKeys.PUBKEY, MessageKeys.EPOCH_S, MessageKeys.TEXT]

theorem mapM_ofValue (msgs : List StoredMessage) :
    (msgs.map toValue).mapM ofValue = some msgs := by
  induction msgs with
  | nil => rfl
  | cons m msgs ih => simp [List.mapM_cons, ofValue_toValue, ih]

/-- A list of records of messages that can be written down. -/
theorem serializable_records (msgs : List StoredMessage) (hlength : msgs.length < 2 ^ 64)
    (hsized : ∀ m ∈ msgs, Sized m) (hseq : ∀ m ∈ msgs, m.seq < 2 ^ 64) :
    Serializable 3 (.array (msgs.map toValue)) := by
  refine ⟨by rwa [List.length_map], ?_⟩
  intro v hv
  obtain ⟨m, hm, rfl⟩ := List.mem_map.mp hv
  exact serializable_toValue m (hsized m hm) (hseq m hm)

theorem recordsOf_encode (msgs : List StoredMessage)
    (h : Serializable 3 (.array (msgs.map toValue))) :
    recordsOf (encode (.array (msgs.map toValue))) = some msgs := by
  rw [recordsOf, decode_encode 3 _ h]
  exact mapM_ofValue msgs

/-- The size of the reply that carries this one message. -/
def replyLength (m : StoredMessage) : ℕ := (encode (.array [toValue m])).length

/-- The message's own record fits a buffer of `cap` bytes. -/
def Fits (cap : Int32) (m : StoredMessage) : Prop := replyLength m ≤ cap.toNatClampNeg

instance (cap : Int32) : DecidablePred (Fits cap) := fun m =>
  inferInstanceAs (Decidable (replyLength m ≤ cap.toNatClampNeg))

/-- A reply is no shorter than the reply of any single message it carries. -/
theorem replyLength_le (msgs : List StoredMessage) (m : StoredMessage) (hm : m ∈ msgs) :
    replyLength m ≤ (encode (.array (msgs.map toValue))).length := by
  have hone : headLength 1 = 1 := rfl
  obtain ⟨front, back, rfl⟩ := List.append_of_mem hm
  have hpos := headLength_pos (front ++ m :: back).length
  simp only [replyLength, encode, encodeItems_eq_flatMap, List.length_append, head_length,
    List.length_map, List.length_cons, List.length_nil, List.flatMap_cons, List.flatMap_nil,
    List.map_append, List.map_cons, List.flatMap_append, zero_add, hone] at hpos ⊢
  omega

/-- The loop stops at the longest prefix that fits, or at none. -/
theorem encodeLoop_spec (toVec : Value → Option Bytes) (msgs : List StoredMessage) (cap start : ℕ) :
    ∃ n ≤ start, encodeLoop toVec msgs cap start = encodeFirst toVec msgs n ∧
      (n = 0 ∨ (encodeFirst toVec msgs n).length ≤ cap) ∧
      ∀ k, n < k → k ≤ start → cap < (encodeFirst toVec msgs k).length := by
  induction start with
  | zero => exact ⟨0, Nat.le_refl 0, rfl, .inl rfl, fun k hlow hhigh => by omega⟩
  | succ start ih =>
    by_cases hfits : (encodeFirst toVec msgs (start + 1)).length ≤ cap
    · exact ⟨start + 1, Nat.le_refl _, by rw [encodeLoop, if_pos hfits], .inr hfits,
        fun k hlow hhigh => by omega⟩
    · obtain ⟨n, hn, hresult, hsmall, hmax⟩ := ih
      refine ⟨n, Nat.le_succ_of_le hn, ?_, hsmall, ?_⟩
      · rw [encodeLoop, if_neg hfits, hresult]
      · intro k hlow hhigh
        rcases Nat.lt_or_ge k (start + 1) with hk | hk
        · exact hmax k hlow (by omega)
        · rw [show k = start + 1 by omega]
          omega

theorem writeGuestBytes_of_le {cap : ℕ} {src : Bytes} (h : src.length ≤ cap) :
    writeGuestBytes cap src = src :=
  List.take_of_length_le (by omega)

/-- A reply that fits its buffer is read back; one that does not is the empty
list, cut short. -/
theorem recordsOf_written (cap : ℕ) (msgs : List StoredMessage)
    (hserializable : Serializable 3 (.array (msgs.map toValue)))
    (hsmall : msgs = [] ∨ (encode (.array (msgs.map toValue))).length ≤ cap) :
    recordsOf (writeGuestBytes cap (encode (.array (msgs.map toValue)))) = some msgs ∨
      msgs = [] ∧ recordsOf (writeGuestBytes cap (encode (.array (msgs.map toValue)))) = none := by
  by_cases hfits : (encode (.array (msgs.map toValue))).length ≤ cap
  · left
    rw [writeGuestBytes_of_le hfits, recordsOf_encode msgs hserializable]
  · right
    have hnone : msgs = [] := hsmall.resolve_right hfits
    subst hnone
    have hcap : cap = 0 := by
      have hlength : (encode (.array ([].map toValue))).length = 1 := rfl
      omega
    subst hcap
    exact ⟨rfl, rfl⟩

/-- The longest prefix that fits is a page: a front record that fits is a prefix
of one, so the loop stops no lower. -/
theorem isPage_take (cap : Int32) (pending : List StoredMessage) (n : ℕ)
    (hsmall : n = 0 ∨
      (encode (.array ((pending.take n).map toValue))).length ≤ cap.toNatClampNeg)
    (hmax : ∀ k, n < k → k ≤ pending.length →
      cap.toNatClampNeg < (encode (.array ((pending.take k).map toValue))).length) :
    IsPage (Fits cap) pending (pending.take n) where
  isPrefix := List.take_prefix n pending
  all_fit := by
    intro m hm
    rcases hsmall with rfl | hsmall
    · simp at hm
    · exact (replyLength_le (pending.take n) m hm).trans hsmall
  ne_nil := by
    rintro m rest rfl hm hnil
    have hzero : n = 0 := by simpa using hnil
    have hone := hmax 1 (by omega) (by simp)
    have hlength : (encode (.array (((m :: rest).take 1).map toValue))).length =
        replyLength m := rfl
    rw [hlength] at hone
    exact absurd hm (by rw [Fits]; omega)

/-! The polling loop. -/

/-- Ascending numbers below a bound are no more than the bound. -/
theorem length_le_of_ascending (bound : ℕ) (numbers : List ℕ)
    (hascending : numbers.Pairwise fun m n => m < n) (hbound : ∀ n ∈ numbers, n < bound) :
    numbers.length ≤ bound := by
  have hnodup : numbers.Nodup := hascending.imp fun h => Nat.ne_of_lt h
  have hsubset : numbers ⊆ List.range bound := fun n hn => List.mem_range.mpr (hbound n hn)
  simpa using (hnodup.subperm hsubset).length_le

namespace Readable

variable {s : MessageStore} (h : Readable s)

include h

theorem length_lt : s.msgs.length < 2 ^ 64 := by
  have hle := length_le_of_ascending (2 ^ 63) (s.msgs.map StoredMessage.seq)
    (List.pairwise_map.mpr h.ascending) (by simpa using h.seq_lt)
  rw [List.length_map] at hle
  omega

theorem readAfter_ascending (afterSeq : ℕ) :
    (s.readAfter afterSeq).Pairwise fun m n => m.seq < n.seq :=
  h.ascending.sublist List.filter_sublist

/-- Reading on from the first pending message leaves the others pending. -/
theorem readAfter_next {afterSeq : ℕ} {m : StoredMessage} {rest : List StoredMessage}
    (hpending : s.readAfter afterSeq = m :: rest) : s.readAfter m.seq = rest := by
  have hm : m ∈ s.readAfter afterSeq := by simp [hpending]
  have hafter : afterSeq < m.seq := by simpa using (List.mem_filter.mp hm).2
  have hlater : ∀ n ∈ rest, m.seq < n.seq := by
    have hascending := h.readAfter_ascending afterSeq
    rw [hpending] at hascending
    exact (List.pairwise_cons.mp hascending).1
  have htwice : s.readAfter m.seq = (s.readAfter afterSeq).filter fun n => m.seq < n.seq := by
    rw [MessageStore.readAfter, MessageStore.readAfter, List.filter_filter]
    apply List.filter_congr
    intro n _
    by_cases hn : m.seq < n.seq
    · have hboth : afterSeq < n.seq := by omega
      simp [hn, hboth]
    · simp [hn]
  rw [htwice, hpending, List.filter_cons_of_neg (by simp)]
  exact List.filter_eq_self.mpr fun n hn => by simpa using hlater n hn

/-- The reply that carries the first `n` pending messages. -/
theorem encodeFirst_eq {toVec : Value → Option Bytes} (htoVec : StandardEncoder toVec)
    (afterSeq n : ℕ) :
    let msgs := (s.readAfter afterSeq).take n
    Serializable 3 (.array (msgs.map toValue)) ∧
      encodeFirst toVec (s.readAfter afterSeq) n = encode (.array (msgs.map toValue)) := by
  intro msgs
  have hsub : msgs.Sublist s.msgs := (List.take_sublist _ _).trans List.filter_sublist
  have hserializable := serializable_records msgs (hsub.length_le.trans_lt h.length_lt)
    (fun m hm => h.sized m (hsub.subset hm))
    (fun m hm => (h.seq_lt m (hsub.subset hm)).trans (by omega))
  refine ⟨hserializable, ?_⟩
  rw [encodeFirst, htoVec 3 _ hserializable, Option.getD_some]

end Readable

namespace Reader

theorem take_mark (r : Reader) (m : StoredMessage) (hseq : m.seq < 2 ^ 63)
    (hnew : r.after.toNatClampNeg < m.seq) : (r.take m).after.toNatClampNeg = m.seq := by
  have hmark : (Int64.ofNat m.seq).toInt = m.seq := Int64.toInt_ofNat_of_lt hseq
  have hlt : r.after < Int64.ofNat m.seq := by
    rw [Int64.lt_iff_toInt_lt, hmark]
    have hclamp : r.after.toNatClampNeg = r.after.toInt.toNat := rfl
    omega
  simp only [take, hlt, if_true]
  exact Int64.toNatClampNeg_ofNat_of_lt hseq

/-- Taking in the front of what is pending leaves the rest pending. -/
theorem foldl_take {s : MessageStore} (hs : Readable s) (page rest : List StoredMessage)
    (r : Reader) (hpending : s.readAfter r.after.toNatClampNeg = page ++ rest) :
    (page.foldl take r).received = r.received ++ page ∧
      s.readAfter (page.foldl take r).after.toNatClampNeg = rest := by
  induction page generalizing r with
  | nil => exact ⟨by simp, hpending⟩
  | cons m page ih =>
    have hm : m ∈ s.readAfter r.after.toNatClampNeg := by simp [hpending]
    obtain ⟨hmem, hnew⟩ := List.mem_filter.mp hm
    have hmark := take_mark r m (hs.seq_lt m hmem) (by simpa using hnew)
    have hnext : s.readAfter (r.take m).after.toNatClampNeg = page ++ rest := by
      rw [hmark]
      exact hs.readAfter_next hpending
    obtain ⟨hreceived, hafter⟩ := ih (r.take m) hnext
    refine ⟨?_, hafter⟩
    rw [List.foldl_cons, hreceived]
    simp [take]

variable {toVec : Value → Option Bytes} (htoVec : StandardEncoder toVec) {s : MessageStore}
  (hs : Readable s) (cap : Int32) (r : Reader)

include htoVec hs

/-- What one poll takes in is a page of what is pending. -/
theorem poll_page : ∃ page, IsPage (Fits cap) (s.readAfter r.after.toNatClampNeg) page ∧
    poll toVec s cap r = page.foldl take r := by
  obtain ⟨n, -, hresult, hsmall, hmax⟩ := encodeLoop_spec toVec
    (s.readAfter r.after.toNatClampNeg) cap.toNatClampNeg
    (s.readAfter r.after.toNatClampNeg).length
  have hfirst := fun n => (hs.encodeFirst_eq htoVec r.after.toNatClampNeg n).2
  have hserializable := (hs.encodeFirst_eq htoVec r.after.toNatClampNeg n).1
  simp only [hfirst] at hresult hsmall hmax
  refine ⟨(s.readAfter r.after.toNatClampNeg).take n, isPage_take cap _ n hsmall hmax, ?_⟩
  rw [poll, messagesRead, encodeMessagesCbor, hresult]
  rcases recordsOf_written cap.toNatClampNeg _ hserializable
    (hsmall.imp_left fun hzero => by rw [hzero, List.take_zero]) with hread | ⟨hnone, hread⟩
  · rw [hread]
  · rw [hread, hnone]
    rfl

/-- Step lemma: a poll is one turn of a page reader. -/
theorem poll_takesPage : TakesPage (Fits cap)
    ⟨r.received, s.readAfter r.after.toNatClampNeg⟩
    ⟨(poll toVec s cap r).received, s.readAfter (poll toVec s cap r).after.toNatClampNeg⟩ := by
  obtain ⟨page, hpage, hpoll⟩ := poll_page htoVec hs cap r
  obtain ⟨rest, hsplit⟩ := hpage.isPrefix
  obtain ⟨hreceived, hpending⟩ := foldl_take hs page rest r hsplit.symm
  refine ⟨page, hpage, ?_, ?_⟩
  · rw [hpoll, hreceived]
  · rw [hpoll, hpending, hsplit]

end Reader

/-- Once it has polled as often as there are retained messages, a fresh reader
has what is pending in front of the first record too large for its buffer. -/
theorem polls_received {toVec : Value → Option Bytes} (htoVec : StandardEncoder toVec)
    {s : MessageStore} (hs : Readable s) (cap : Int32) (start : Int64) (k : ℕ)
    (hk : s.msgs.length ≤ k) :
    (Reader.polls toVec s cap ⟨start, []⟩ k).received =
      (s.readAfter start.toNatClampNeg).takeWhile (Fits cap) := by
  have hafter := after_turns (Fits cap) (s.readAfter start.toNatClampNeg)
    (fun k => ⟨(Reader.polls toVec s cap ⟨start, []⟩ k).received,
      s.readAfter (Reader.polls toVec s cap ⟨start, []⟩ k).after.toNatClampNeg⟩)
    rfl (fun k => Reader.poll_takesPage htoVec hs cap _) k
  exact hafter.delivered_eq ((List.length_filter_le _ _).trans hk)

/-- The reader has received exactly once, in order, every retained message above
its starting point that fits its buffer. -/
structure CaughtUp (s : MessageStore) (cap : Int32) (start : Int64)
    (received : List StoredMessage) : Prop where
  complete : ∀ m ∈ s.msgs, start.toInt < m.seq → Fits cap m → m ∈ received
  sound : ∀ m ∈ received, m ∈ s.msgs ∧ start.toInt < m.seq
  ascending : received.Pairwise fun m n => m.seq < n.seq

/-- No retained message above the starting point is too large for the buffer
while a later one fits. -/
def NoneBlocked (s : MessageStore) (cap : Int32) (start : Int64) : Prop :=
  ∀ m ∈ s.msgs, ∀ n ∈ s.msgs, start.toInt < m.seq → m.seq < n.seq → Fits cap n → Fits cap m

theorem mem_readAfter_iff {s : MessageStore} (hs : Readable s) (start : Int64)
    (m : StoredMessage) :
    m ∈ s.readAfter start.toNatClampNeg ↔ m ∈ s.msgs ∧ start.toInt < m.seq := by
  rw [MessageStore.readAfter, List.mem_filter, decide_eq_true_iff]
  refine and_congr_right fun hm => ?_
  have hpos := hs.seq_pos m hm
  have hclamp : start.toNatClampNeg = start.toInt.toNat := rfl
  omega

theorem noneBlocked_iff_pairwise {s : MessageStore} (hs : Readable s) (cap : Int32)
    (start : Int64) :
    NoneBlocked s cap start ↔
      (s.readAfter start.toNatClampNeg).Pairwise fun m n => Fits cap n → Fits cap m := by
  have hascending := hs.readAfter_ascending start.toNatClampNeg
  constructor
  · intro hnone
    refine hascending.imp_of_mem ?_
    intro m n hm hn hlt
    obtain ⟨hm, hstart⟩ := (mem_readAfter_iff hs start m).mp hm
    exact hnone m hm n ((mem_readAfter_iff hs start n).mp hn).1 hstart hlt
  · intro hpairs m hm n hn hstart hlt
    have hpending : m ∈ s.readAfter start.toNatClampNeg ∧ n ∈ s.readAfter start.toNatClampNeg :=
      ⟨(mem_readAfter_iff hs start m).mpr ⟨hm, hstart⟩,
        (mem_readAfter_iff hs start n).mpr ⟨hn, hstart.trans (by omega)⟩⟩
    obtain ⟨i, hi, rfl⟩ := List.mem_iff_getElem.mp hpending.1
    obtain ⟨j, hj, rfl⟩ := List.mem_iff_getElem.mp hpending.2
    have hij : i < j := by
      by_contra hnot
      rcases Nat.lt_or_ge j i with hji | hji
      · exact absurd (List.pairwise_iff_getElem.mp hascending j i hj hi hji) (by omega)
      · have heq : i = j := by omega
        subst heq
        exact absurd hlt (lt_irrefl _)
    exact List.pairwise_iff_getElem.mp hpairs i j hi hj hij

/-- For every content a run of the store can leave, every starting point and
every buffer size: after as many polls as there are retained messages, or more,
the reader has caught up exactly when no message too large for the buffer is
pending in front of one that fits. -/
theorem reader_catches_up_iff (toVec : Value → Option Bytes) (htoVec : StandardEncoder toVec)
    (storeCap : ℕ) (calls : List Call) (hcount : calls.length < 2 ^ 63)
    (hsizes : SizesHeld calls) (start : Int64) (cap : Int32) (k : ℕ)
    (hk : ((MessageStore.new storeCap).run calls).msgs.length ≤ k) :
    CaughtUp ((MessageStore.new storeCap).run calls) cap start
        (Reader.polls toVec ((MessageStore.new storeCap).run calls) cap ⟨start, []⟩ k).received ↔
      NoneBlocked ((MessageStore.new storeCap).run calls) cap start := by
  have hs := readable_run storeCap calls hcount hsizes
  have hreceived := polls_received htoVec hs cap start k hk
  have hascending := hs.readAfter_ascending start.toNatClampNeg
  have hnodup : (((MessageStore.new storeCap).run calls).readAfter start.toNatClampNeg).Nodup :=
    hascending.imp fun hlt heq => absurd hlt (by rw [heq]; exact lt_irrefl _)
  rw [noneBlocked_iff_pairwise hs, ← fitting_mem_takeWhile_iff (Fits cap) _ hnodup, hreceived]
  constructor
  · intro hcaught m hm hfits
    obtain ⟨hmem, hstart⟩ := (mem_readAfter_iff hs start m).mp hm
    exact hcaught.complete m hmem hstart hfits
  · intro hall
    refine ⟨fun m hm hstart hfits => ?_, fun m hm => ?_, ?_⟩
    · exact hall m ((mem_readAfter_iff hs start m).mpr ⟨hm, hstart⟩) hfits
    · exact (mem_readAfter_iff hs start m).mp ((List.takeWhile_sublist _).subset hm)
    · exact hascending.sublist (List.takeWhile_sublist _)

/-- The bytes of a record, pair by pair. -/
theorem encode_toValue (m : StoredMessage) :
    encode (toValue m) = head 5 5 ++ ((head 0 1 ++ head 0 m.seq) ++
      ((head 0 2 ++ (head 3 (utf8 m.fromName).length ++ utf8 m.fromName)) ++
      ((head 0 3 ++ (head 2 m.fromPubkey.length ++ m.fromPubkey)) ++
      ((head 0 4 ++ head 0 m.epochS.toNat) ++
      (head 0 5 ++ (head 2 m.text.length ++ m.text)))))) := by
  simp [toValue, encode, encodeEntries, MessageKeys.SEQ, MessageKeys.NAME, MessageKeys.PUBKEY,
    MessageKeys.EPOCH_S, MessageKeys.TEXT]

/-- The size of a one-message reply, field by field. -/
theorem replyLength_eq (m : StoredMessage) :
    replyLength m = 7 + headLength m.seq + (headLength (utf8 m.fromName).length +
      (utf8 m.fromName).length) + (headLength m.fromPubkey.length + m.fromPubkey.length) +
      headLength m.epochS.toNat + (headLength m.text.length + m.text.length) := by
  rw [replyLength, encode, encodeItems, encodeItems, encode_toValue]
  simp (disch := omega) only [List.length_append, List.length_cons, List.length_nil, head_length,
    headLength_of_lt]
  omega

/-- A payload of 20000 bytes. -/
def longPush : Push where
  fromName := "alice"
  fromPubkey := List.replicate 32 0xAA
  id := [1]
  text := List.replicate 20000 0x61
  epochS := 1760000000

/-- A chat line by the same sender, a second later. -/
def shortPush : Push where
  fromName := "alice"
  fromPubkey := List.replicate 32 0xAA
  id := [2]
  text := [0x81, 0x62, 0x68, 0x69]
  epochS := 1760000001

def longThenShort : List Call := [.push longPush, .push shortPush]

theorem sizesHeld_longThenShort : SizesHeld longThenShort := by
  intro p hp seq
  have hname : (utf8 "alice").length = 5 := by decide
  have hlength : ∀ p, (p = longPush ∨ p = shortPush) → (utf8 p.fromName).length = 5 ∧
      p.fromPubkey.length = 32 ∧ p.text.length ≤ 20000 := by
    rintro p (rfl | rfl)
    · exact ⟨hname, List.length_replicate, Nat.le_of_eq List.length_replicate⟩
    · exact ⟨hname, List.length_replicate, by decide⟩
  simp only [longThenShort, List.mem_cons, Call.push.injEq, List.not_mem_nil, or_false] at hp
  obtain ⟨hfromName, hfromPubkey, htext⟩ := hlength p hp
  refine ⟨?_, ?_, ?_⟩ <;> simp only [Push.stored] <;> omega

/-- A buffer of 16384 bytes: the iff on the two lines. -/
theorem reader_catches_up_iff_lines :
    CaughtUp ((MessageStore.new 4096).run longThenShort) 16384 0
        (Reader.polls (fun v => some (encode v)) ((MessageStore.new 4096).run longThenShort)
          16384 ⟨0, []⟩ 2).received ↔
      NoneBlocked ((MessageStore.new 4096).run longThenShort) 16384 0 :=
  reader_catches_up_iff (fun v => some (encode v)) standardEncoder_encode 4096 longThenShort
    (by decide) sizesHeld_longThenShort 0 16384 2 (Nat.le_refl 2)

/-- The short line is retained and fits the buffer, and however often the reader
polls it receives nothing. -/
theorem long_line_hides_short :
    Push.stored (shortPush, 2) ∈ ((MessageStore.new 4096).run longThenShort).msgs ∧
      Fits 16384 (Push.stored (shortPush, 2)) ∧
      (∀ k, 2 ≤ k →
        (Reader.polls (fun v => some (encode v)) ((MessageStore.new 4096).run longThenShort)
          16384 ⟨0, []⟩ k).received = []) ∧
      ¬ CaughtUp ((MessageStore.new 4096).run longThenShort) 16384 0
        (Reader.polls (fun v => some (encode v)) ((MessageStore.new 4096).run longThenShort)
          16384 ⟨0, []⟩ 2).received := by
  have hs : Readable ((MessageStore.new 4096).run longThenShort) :=
    readable_run 4096 longThenShort (by decide) sizesHeld_longThenShort
  have hmsgs : ((MessageStore.new 4096).run longThenShort).msgs =
      [Push.stored (longPush, 1), Push.stored (shortPush, 2)] := rfl
  have hretained : Push.stored (shortPush, 2) ∈
      ((MessageStore.new 4096).run longThenShort).msgs := by
    rw [hmsgs]
    exact List.mem_cons_of_mem _ (List.mem_singleton_self _)
  have hlong : ¬ Fits 16384 (Push.stored (longPush, 1)) := by
    have htext : (Push.stored (longPush, 1)).text.length = 20000 := List.length_replicate
    have hcap : (16384 : Int32).toNatClampNeg = 16384 := by decide
    rw [Fits, replyLength_eq, htext, hcap]
    omega
  have hshort : Fits 16384 (Push.stored (shortPush, 2)) := by
    rw [Fits, replyLength_eq]
    decide
  have hnothing : ∀ k, 2 ≤ k →
      (Reader.polls (fun v => some (encode v)) ((MessageStore.new 4096).run longThenShort)
        16384 ⟨0, []⟩ k).received = [] := by
    intro k hk
    rw [polls_received standardEncoder_encode hs 16384 0 k (by rwa [hmsgs]),
      MessageStore.readAfter, hmsgs, List.filter_cons_of_pos (by decide),
      List.takeWhile_cons_of_neg (by simpa only [decide_eq_true_eq] using hlong)]
  refine ⟨hretained, hshort, hnothing, ?_⟩
  intro hcaught
  have hreceived := hcaught.complete _ hretained (by decide) hshort
  rw [hnothing 2 (Nat.le_refl 2)] at hreceived
  exact List.not_mem_nil hreceived

end Weverywhere.MessagesRead
