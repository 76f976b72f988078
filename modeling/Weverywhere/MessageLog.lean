import Weverywhere.ByteStrings
import Weverywhere.DedupLog

/-!
The bounded in-memory message log of a node (`src/src/executor/mod.rs`). Three
containers move together: the retained messages, the set of recently seen
deduplication keys, and the order in which those keys arrived. They refine an
append-only log that refuses repeats of its last 4096 keyed entries.
-/
namespace Weverywhere.MessageLog

open ByteStrings BoundedQueue DedupLog

structure StoredMessage where
  seq : ℕ
  fromName : String
  fromPubkey : Bytes
  text : Bytes
  epochS : UInt64
  deriving DecidableEq

/-- `next_seq` is a `u64` in the source: it counts accepted pushes, one at a
time, so it is kept as a natural number here (see `nextSeq_le`). -/
structure MessageStore where
  nextSeq : ℕ
  msgs : List StoredMessage
  cap : ℕ
  seen : Finset Bytes
  seenOrder : List Bytes
  seenCap : ℕ
  deriving DecidableEq

namespace MessageStore

def new (cap : ℕ) : MessageStore where
  nextSeq := 1
  msgs := []
  cap := cap
  seen := ∅
  seenOrder := []
  seenCap := 4096

/-- The second half of `push`: number the message, append it, trim the log. -/
def append (s : MessageStore) (fromName : String) (fromPubkey text : Bytes) (epochS : UInt64) :
    MessageStore × ℕ :=
  ({ s with
      nextSeq := s.nextSeq + 1
      msgs := trimFront s.cap (s.msgs ++ [⟨s.nextSeq, fromName, fromPubkey, text, epochS⟩]) },
    s.nextSeq)

def push (s : MessageStore) (fromName : String) (fromPubkey id text : Bytes) (epochS : UInt64) :
    MessageStore × ℕ :=
  if id.isEmpty then s.append fromName fromPubkey text epochS
  else
    let key := fromPubkey ++ id
    if key ∈ s.seen then (s, 0)
    else
      let (seen, seenOrder) := trimKeys s.seenCap (insert key s.seen) (s.seenOrder ++ [key])
      { s with seen := seen, seenOrder := seenOrder }.append fromName fromPubkey text epochS

def readAfter (s : MessageStore) (afterSeq : ℕ) : List StoredMessage :=
  s.msgs.filter fun m => afterSeq < m.seq

end MessageStore

/-! The log the store stands for. -/

/-- The arguments of one `push`. -/
structure Push where
  fromName : String
  fromPubkey : Bytes
  id : Bytes
  text : Bytes
  epochS : UInt64
  deriving DecidableEq

namespace Push

/-- A push with an empty id is never deduplicated. -/
def key (p : Push) : Option (Bytes × Bytes) :=
  if p.id.isEmpty then none else some (p.fromPubkey, p.id)

/-- The record kept for an accepted push and its sequence number. -/
def stored (p : Push × ℕ) : StoredMessage :=
  ⟨p.2, p.1.fromName, p.1.fromPubkey, p.1.text, p.1.epochS⟩

theorem key_eq_none_iff (p : Push) : p.key = none ↔ p.id = [] := by
  by_cases hid : p.id = [] <;> simp [key, hid]

theorem key_eq_some_iff (p : Push) (k : Bytes × Bytes) :
    p.key = some k ↔ p.id ≠ [] ∧ k = (p.fromPubkey, p.id) := by
  by_cases hid : p.id = []
  · simp [key, hid]
  · simp only [key, List.isEmpty_iff, hid, if_false, Option.some.injEq, ne_eq, not_false_eq_true,
      true_and]
    exact eq_comm

end Push

/-- How many keyed pushes are remembered. -/
def seenWindow : ℕ := 4096

/-- The pair `(from_pubkey, id)` of a push with a non-empty id is among the
4096 most recently accepted ones. -/
abbrev Repeats (log : List Push) (p : Push) : Prop := IsRepeat Push.key seenWindow log p

/-- Accepted pushes still retained, with their sequence numbers. -/
def retained (cap : ℕ) (log : List Push) : List (Push × ℕ) := (log.zipIdx 1).rtake cap

/-- The bare concatenation under which the store remembers a pair. -/
def storeKey (k : Bytes × Bytes) : Bytes := k.1 ++ k.2

def KeysAre32 (log : List Push) : Prop := ∀ p ∈ log, p.fromPubkey.length = 32

/-- With 32-byte public keys the concatenation determines the pair. -/
theorem storeKey_inj {a b : Bytes × Bytes} (ha : a.1.length = 32) (hb : b.1.length = 32)
    (h : storeKey a = storeKey b) : a = b := by
  obtain ⟨hfst, hsnd⟩ := List.append_inj h (ha.trans hb.symm)
  exact Prod.ext hfst hsnd

theorem length_of_mem_recentKeys {log : List Push} (hlog : KeysAre32 log) {k : Bytes × Bytes}
    (hk : k ∈ recentKeys Push.key seenWindow log) : k.1.length = 32 := by
  have hmem := (rtake_sublist _ _).subset hk
  obtain ⟨p, hp, hpk⟩ := List.mem_filterMap.mp hmem
  rw [((Push.key_eq_some_iff p k).mp hpk).2]
  exact hlog p hp

/-- Representation invariant: every container of the store is read off the log. -/
structure Represents (cap : ℕ) (s : MessageStore) (log : List Push) : Prop where
  cap_eq : s.cap = cap
  seenCap_eq : s.seenCap = seenWindow
  nextSeq_eq : s.nextSeq = 1 + log.length
  msgs_eq : s.msgs = (retained cap log).map Push.stored
  seenOrder_eq : s.seenOrder = (recentKeys Push.key seenWindow log).map storeKey
  seen_eq : s.seen = s.seenOrder.toFinset
  seenOrder_nodup : s.seenOrder.Nodup

theorem represents_new (cap : ℕ) : Represents cap (MessageStore.new cap) [] where
  cap_eq := rfl
  seenCap_eq := rfl
  nextSeq_eq := rfl
  msgs_eq := by simp [MessageStore.new, retained, List.rtake]
  seenOrder_eq := by simp [MessageStore.new, recentKeys, List.rtake]
  seen_eq := rfl
  seenOrder_nodup := List.nodup_nil

theorem retained_append (cap : ℕ) (log : List Push) (p : Push) :
    retained cap (log ++ [p]) = (retained cap log ++ [(p, 1 + log.length)]).rtake cap := by
  unfold retained
  rw [rtake_append_singleton]
  simp [List.zipIdx_append]

/-- Numbering and trimming keep the retained part of the log. -/
theorem append_msgs {cap : ℕ} {s : MessageStore} {log : List Push}
    (hcap : s.cap = cap) (hseq : s.nextSeq = 1 + log.length)
    (hmsgs : s.msgs = (retained cap log).map Push.stored) (p : Push) :
    (s.append p.fromName p.fromPubkey p.text p.epochS).1.msgs =
      (retained cap (log ++ [p])).map Push.stored := by
  have hnew : (⟨s.nextSeq, p.fromName, p.fromPubkey, p.text, p.epochS⟩ : StoredMessage) =
      Push.stored (p, 1 + log.length) := by
    rw [hseq]
    rfl
  simp only [MessageStore.append, hcap, hmsgs, hnew, trimFront_eq_rtake, retained_append,
    map_rtake, List.map_append, List.map_cons, List.map_nil]

namespace MessageStore

/-- `push` with its arguments bundled. -/
def pushOf (s : MessageStore) (p : Push) : MessageStore × ℕ :=
  s.push p.fromName p.fromPubkey p.id p.text p.epochS

end MessageStore

/-- The set holds a push's key exactly when the log calls the push a repeat. -/
theorem mem_seen_iff {cap : ℕ} {s : MessageStore} {log : List Push}
    (h : Represents cap s log) (hlog : KeysAre32 log) (p : Push)
    (hp : p.fromPubkey.length = 32) (hid : p.id ≠ []) :
    p.fromPubkey ++ p.id ∈ s.seen ↔ Repeats log p := by
  rw [h.seen_eq, List.mem_toFinset, h.seenOrder_eq, List.mem_map]
  constructor
  · rintro ⟨k, hk, heq⟩
    have hpair : k = (p.fromPubkey, p.id) :=
      storeKey_inj (length_of_mem_recentKeys hlog hk) hp heq
    exact ⟨k, (Push.key_eq_some_iff p k).mpr ⟨hid, hpair⟩, hk⟩
  · rintro ⟨k, hk, hmem⟩
    rw [((Push.key_eq_some_iff p k).mp hk).2] at hmem
    exact ⟨_, hmem, rfl⟩

/-- A repeat is dropped without touching the store. -/
theorem pushOf_repeat {cap : ℕ} {s : MessageStore} {log : List Push}
    (h : Represents cap s log) (hlog : KeysAre32 log) (p : Push)
    (hp : p.fromPubkey.length = 32) (hrepeat : Repeats log p) : s.pushOf p = (s, 0) := by
  have hid : p.id ≠ [] := by
    obtain ⟨k, hk, -⟩ := hrepeat
    exact ((Push.key_eq_some_iff p k).mp hk).1
  have hseen := (mem_seen_iff h hlog p hp hid).mpr hrepeat
  simp [MessageStore.pushOf, MessageStore.push, List.isEmpty_iff, hid, hseen]

/-- A push without a key leaves the remembered keys alone. -/
theorem represents_push_unkeyed {cap : ℕ} {s : MessageStore} {log : List Push}
    (h : Represents cap s log) (p : Push) (hid : p.id = []) :
    Represents cap (s.pushOf p).1 (log ++ [p]) := by
  have hpush : s.pushOf p = s.append p.fromName p.fromPubkey p.text p.epochS := by
    simp [MessageStore.pushOf, MessageStore.push, hid]
  have hkeys := recentKeys_append_unkeyed Push.key seenWindow log p
    ((Push.key_eq_none_iff p).mpr hid)
  rw [hpush]
  exact {
    cap_eq := h.cap_eq
    seenCap_eq := h.seenCap_eq
    nextSeq_eq := by simp [MessageStore.append, h.nextSeq_eq, Nat.add_assoc]
    msgs_eq := append_msgs h.cap_eq h.nextSeq_eq h.msgs_eq p
    seenOrder_eq := by rw [hkeys]; exact h.seenOrder_eq
    seen_eq := h.seen_eq
    seenOrder_nodup := h.seenOrder_nodup }

/-- A fresh key joins the back of the order, and whatever leaves the order
leaves the set with it. -/
theorem pushOf_keyed {cap : ℕ} {s : MessageStore} {log : List Push}
    (h : Represents cap s log) (hlog : KeysAre32 log) (p : Push)
    (hp : p.fromPubkey.length = 32) (hid : p.id ≠ []) (hfresh : ¬ Repeats log p) :
    (s.seenOrder ++ [p.fromPubkey ++ p.id]).Nodup ∧
      s.pushOf p = MessageStore.append
        { s with
          seen := ((s.seenOrder ++ [p.fromPubkey ++ p.id]).rtake seenWindow).toFinset
          seenOrder := (s.seenOrder ++ [p.fromPubkey ++ p.id]).rtake seenWindow }
        p.fromName p.fromPubkey p.text p.epochS := by
  have hnew : p.fromPubkey ++ p.id ∉ s.seen :=
    fun hmem => hfresh ((mem_seen_iff h hlog p hp hid).mp hmem)
  have horder : p.fromPubkey ++ p.id ∉ s.seenOrder := by
    simpa only [h.seen_eq, List.mem_toFinset] using hnew
  have hinsert : insert (p.fromPubkey ++ p.id) s.seen =
      (s.seenOrder ++ [p.fromPubkey ++ p.id]).toFinset := by
    rw [h.seen_eq]
    ext k
    simp only [Finset.mem_insert, List.mem_toFinset, List.mem_append, List.mem_singleton, or_comm]
  have hnodup : (s.seenOrder ++ [p.fromPubkey ++ p.id]).Nodup := by
    simpa [List.nodup_append] using ⟨h.seenOrder_nodup, fun a ha heq => horder (heq ▸ ha)⟩
  refine ⟨hnodup, ?_⟩
  simp only [MessageStore.pushOf, MessageStore.push, List.isEmpty_iff, hid, hnew, if_false,
    hinsert, trimKeys_eq _ _ hnodup, trimFront_eq_rtake, h.seenCap_eq]

theorem represents_push_keyed {cap : ℕ} {s : MessageStore} {log : List Push}
    (h : Represents cap s log) (hlog : KeysAre32 log) (p : Push)
    (hp : p.fromPubkey.length = 32) (hid : p.id ≠ []) (hfresh : ¬ Repeats log p) :
    Represents cap (s.pushOf p).1 (log ++ [p]) := by
  obtain ⟨hnodup, hpush⟩ := pushOf_keyed h hlog p hp hid hfresh
  have hkey : p.key = some (p.fromPubkey, p.id) := (Push.key_eq_some_iff p _).mpr ⟨hid, rfl⟩
  rw [hpush]
  exact {
    cap_eq := h.cap_eq
    seenCap_eq := h.seenCap_eq
    nextSeq_eq := by simp [MessageStore.append, h.nextSeq_eq, Nat.add_assoc]
    msgs_eq := append_msgs h.cap_eq h.nextSeq_eq h.msgs_eq p
    seenOrder_eq := by
      rw [recentKeys_append_keyed Push.key seenWindow log p _ hkey, map_rtake, List.map_append,
        ← h.seenOrder_eq]
      simp only [MessageStore.append, storeKey, List.map_cons, List.map_nil]
    seen_eq := by simp only [MessageStore.append]
    seenOrder_nodup := by
      simp only [MessageStore.append]
      exact hnodup.sublist (rtake_sublist _ _) }

/-- One push moves the log by one `accept`. -/
theorem represents_pushOf {cap : ℕ} {s : MessageStore} {log : List Push}
    (h : Represents cap s log) (hlog : KeysAre32 log) (p : Push)
    (hp : p.fromPubkey.length = 32) :
    Represents cap (s.pushOf p).1 (accept Push.key seenWindow log p) := by
  unfold accept
  split_ifs with hrepeat
  · rwa [pushOf_repeat h hlog p hp hrepeat]
  · by_cases hid : p.id = []
    · exact represents_push_unkeyed h p hid
    · exact represents_push_keyed h hlog p hp hid hrepeat

/-- An accepted push is numbered by what was accepted before it. -/
theorem pushOf_fresh {cap : ℕ} {s : MessageStore} {log : List Push}
    (h : Represents cap s log) (hlog : KeysAre32 log) (p : Push)
    (hp : p.fromPubkey.length = 32) (hfresh : ¬ Repeats log p) :
    (s.pushOf p).2 = 1 + log.length := by
  by_cases hid : p.id = []
  · simp [MessageStore.pushOf, MessageStore.push, hid, MessageStore.append, h.nextSeq_eq]
  · rw [(pushOf_keyed h hlog p hp hid hfresh).2]
    exact h.nextSeq_eq

/-- One call on the store; a read leaves it as it is. -/
inductive Call
  | push (p : Push)
  | readAfter (afterSeq : ℕ)
  deriving DecidableEq

namespace Call

def pushed : Call → Option Push
  | .push p => some p
  | .readAfter _ => none

end Call

def MessageStore.call (s : MessageStore) : Call → MessageStore
  | .push p => (s.pushOf p).1
  | .readAfter _ => s

def MessageStore.run (s : MessageStore) (calls : List Call) : MessageStore :=
  calls.foldl MessageStore.call s

/-- The accepted pushes of a sequence of calls, oldest first. -/
def acceptedLog (calls : List Call) : List Push :=
  acceptAll Push.key seenWindow (calls.filterMap Call.pushed)

/-- Every public key pushed is 32 bytes long, as `check_self_signature` ensures
for both callers of `push`. -/
def KeysChecked (calls : List Call) : Prop := ∀ p, Call.push p ∈ calls → p.fromPubkey.length = 32

theorem acceptedLog_append_push (calls : List Call) (p : Push) :
    acceptedLog (calls ++ [.push p]) = accept Push.key seenWindow (acceptedLog calls) p := by
  simp only [acceptedLog, List.filterMap_append, List.filterMap_cons, Call.pushed,
    List.filterMap_nil]
  exact acceptAll_append_singleton _ _ _ _

theorem acceptedLog_append_read (calls : List Call) (afterSeq : ℕ) :
    acceptedLog (calls ++ [.readAfter afterSeq]) = acceptedLog calls := by
  simp only [acceptedLog, List.filterMap_append, List.filterMap_cons, Call.pushed,
    List.filterMap_nil, List.append_nil]

theorem keysAre32_accept {log : List Push} (hlog : KeysAre32 log) (p : Push)
    (hp : p.fromPubkey.length = 32) : KeysAre32 (accept Push.key seenWindow log p) := by
  unfold accept
  split_ifs
  · exact hlog
  · intro q hq
    rcases List.mem_append.mp hq with hq | hq
    · exact hlog q hq
    · rwa [List.mem_singleton.mp hq]

/-- Run lemma: after any calls the store represents the accepted log. -/
theorem represents_run (cap : ℕ) (calls : List Call) (hkeys : KeysChecked calls) :
    KeysAre32 (acceptedLog calls) ∧
      Represents cap ((MessageStore.new cap).run calls) (acceptedLog calls) := by
  induction calls using List.reverseRecOn with
  | nil => exact ⟨by simp [KeysAre32, acceptedLog], represents_new cap⟩
  | append_singleton calls call ih =>
    obtain ⟨hlog, hrep⟩ := ih (fun p hp => hkeys p (List.mem_append_left _ hp))
    have hrun : (MessageStore.new cap).run (calls ++ [call]) =
        ((MessageStore.new cap).run calls).call call := by
      simp [MessageStore.run]
    rw [hrun]
    cases call with
    | push p =>
      have hp : p.fromPubkey.length = 32 := hkeys p (by simp)
      rw [acceptedLog_append_push]
      exact ⟨keysAre32_accept hlog p hp, represents_pushOf hrep hlog p hp⟩
    | readAfter afterSeq =>
      rw [acceptedLog_append_read]
      exact ⟨hlog, hrep⟩

/-- Sequence numbers start at one and grow by one, so a run of fewer than
2^64 - 1 calls never exhausts the source's `u64`. -/
theorem nextSeq_le (cap : ℕ) (calls : List Call) (hkeys : KeysChecked calls) :
    ((MessageStore.new cap).run calls).nextSeq ≤ 1 + calls.length := by
  obtain ⟨-, hrep⟩ := represents_run cap calls hkeys
  rw [hrep.nextSeq_eq]
  have haccepted : ∀ entries : List Push,
      (acceptAll Push.key seenWindow entries).length ≤ entries.length := by
    intro entries
    induction entries using List.reverseRecOn with
    | nil => simp
    | append_singleton entries entry ih =>
      rw [acceptAll_append_singleton]
      unfold accept
      split_ifs <;> simp <;> omega
  have hlen := haccepted (calls.filterMap Call.pushed)
  have hcalls := List.length_filterMap_le Call.pushed calls
  unfold acceptedLog
  omega

theorem retained_pairwise (cap : ℕ) (log : List Push) :
    (retained cap log).Pairwise (fun a b => a.2 < b.2) := by
  have hall : ∀ (log : List Push) (n : ℕ), (log.zipIdx n).Pairwise (fun a b => a.2 < b.2) := by
    intro log
    induction log with
    | nil => intro n; simp
    | cons p log ih =>
      intro n
      simp only [List.zipIdx_cons, List.pairwise_cons]
      refine ⟨fun q hq => ?_, ih (n + 1)⟩
      have hle := (List.mem_zipIdx hq).1
      omega
  exact (hall log 1).sublist (rtake_sublist _ _)

theorem retained_map_fst (cap : ℕ) (log : List Push) :
    (retained cap log).map Prod.fst = log.rtake cap := by
  rw [retained, map_rtake, List.zipIdx_map_fst]

/-- What callers see of a store that represents a log, and how its key set and
queue agree. -/
structure RefinesLog (cap : ℕ) (s : MessageStore) (log : List Push) : Prop where
  push_repeat : ∀ p : Push, p.fromPubkey.length = 32 → Repeats log p → s.pushOf p = (s, 0)
  push_fresh : ∀ p : Push, p.fromPubkey.length = 32 → ¬ Repeats log p →
    (s.pushOf p).2 = 1 + log.length
  msgs_eq : s.msgs = (retained cap log).map Push.stored
  retained_eq : (retained cap log).map Prod.fst = log.drop (log.length - cap)
  mem_readAfter : ∀ a m, m ∈ s.readAfter a ↔ m ∈ s.msgs ∧ a < m.seq
  readAfter_sublist : ∀ a, (s.readAfter a).Sublist s.msgs
  readAfter_ascending : ∀ a, (s.readAfter a).Pairwise (fun m n => m.seq < n.seq)
  seen_eq : s.seen = s.seenOrder.toFinset
  seenOrder_nodup : s.seenOrder.Nodup
  retained_distinct : cap ≤ seenWindow → (retained cap log).Pairwise
    (fun a b => ¬ (a.1.fromPubkey = b.1.fromPubkey ∧ a.1.id = b.1.id ∧ a.1.id ≠ []))

/-- Two retained pushes with one non-empty id and one key would repeat a key
inside the window. -/
theorem retained_distinct_of_nodup (cap : ℕ) (log : List Push)
    (h : ((log.rtake cap).filterMap Push.key).Nodup) :
    (retained cap log).Pairwise
      (fun a b => ¬ (a.1.fromPubkey = b.1.fromPubkey ∧ a.1.id = b.1.id ∧ a.1.id ≠ [])) := by
  rw [← retained_map_fst, List.filterMap_map, List.Nodup, List.pairwise_filterMap] at h
  refine h.imp ?_
  rintro a b hab ⟨hkey, hid, hne⟩
  refine hab _ ((Push.key_eq_some_iff a.1 _).mpr ⟨hne, rfl⟩) _
    ((Push.key_eq_some_iff b.1 _).mpr ⟨hid ▸ hne, rfl⟩) ?_
  rw [hkey, hid]

/-- For every capacity and every sequence of calls with 32-byte keys, the store
behaves as the deduplicated log of its accepted pushes. -/
theorem messageStore_refines_log (cap : ℕ) (calls : List Call) (hkeys : KeysChecked calls) :
    RefinesLog cap ((MessageStore.new cap).run calls) (acceptedLog calls) := by
  obtain ⟨hlog, hrep⟩ := represents_run cap calls hkeys
  have hascending : ((MessageStore.new cap).run calls).msgs.Pairwise
      (fun m n => m.seq < n.seq) := by
    rw [hrep.msgs_eq, List.pairwise_map]
    exact retained_pairwise cap _
  exact {
    push_repeat := pushOf_repeat hrep hlog
    push_fresh := pushOf_fresh hrep hlog
    msgs_eq := hrep.msgs_eq
    retained_eq := retained_map_fst cap _
    mem_readAfter := fun a m => by simp [MessageStore.readAfter]
    readAfter_sublist := fun a => List.filter_sublist
    readAfter_ascending := fun a => hascending.sublist List.filter_sublist
    seen_eq := hrep.seen_eq
    seenOrder_nodup := hrep.seenOrder_nodup
    retained_distinct := fun hcap => retained_distinct_of_nodup cap _
      (retained_keys_nodup Push.key seenWindow _ cap hcap) }

/-- One message delivered twice and read once, through a store of sixteen. -/
theorem messageStore_refines_log_redelivered :
    RefinesLog 16
      ((MessageStore.new 16).run
        [.push ⟨"alice", List.replicate 32 0xAA, [1], [7], 1⟩, .readAfter 0,
          .push ⟨"alice", List.replicate 32 0xAA, [1], [7], 1⟩])
      (acceptedLog
        [.push ⟨"alice", List.replicate 32 0xAA, [1], [7], 1⟩, .readAfter 0,
          .push ⟨"alice", List.replicate 32 0xAA, [1], [7], 1⟩]) := by
  apply messageStore_refines_log
  intro p hp
  simp only [List.mem_cons, Call.push.injEq, reduceCtorEq, List.not_mem_nil, or_false,
    false_or, or_self] at hp
  rw [hp]
  rfl

end Weverywhere.MessageLog
