import Weverywhere.ChatIdentity
import Weverywhere.ChatSafety
import Weverywhere.FollowedLog
import Weverywhere.ReplayedDatagrams
import Weverywhere.Runs

/-!
The chat program beside the node it runs on: the events of the executor
(`src/src/executor/mod.rs`) in any order with the polls of `src/example-programs/chat.c`.
The store keeps the newest 4096 messages, and the program remembers the number of the
last one it has seen.
-/
namespace Weverywhere.ChatFollowing

open ByteStrings BoundedQueue Cbor Chat ChatIdentity ChatSafety ChatWalk FollowedLog Identity
  MessageLog MessagesRead Messages Node Paging ReplayedDatagrams Runs

/-! The node and the program. -/

/-- The node with the chat program on it, and with what they are compared with: the
log of accepted messages, the messages in the replies and the lines composed. -/
structure World where
  node : Executor
  log : List Push
  after : Int64
  transcript : Transcript
  received : List StoredMessage
  lines : List Bytes

inductive Action
  | event (event : Event)
  /-- One `poll_messages`; `mem` is the guest's memory once the host has written. -/
  | poll (mem : Memory)

def World.start : World := ⟨Executor.new, [], 0, ⟨fun _ => [], 0⟩, [], []⟩

section Steps

variable (c : Crypto) (compiles : Bytes → Bool) (toVec : Value → Option Bytes)

/-- What `host::messages_read` answers. -/
def World.reply (w : World) : Bytes := messagesRead toVec w.node.messages w.after 16384

def World.poll (w : World) (mem : Memory) : Poll :=
  pollMessages mem (w.reply toVec).length w.after w.transcript

def World.step (w : World) : Action → World
  | .event event =>
    { w with node := w.node.step c compiles event, log := logStep c w.node w.log event }
  | .poll mem =>
    { w with
      after := (w.poll toVec mem).after
      transcript := (w.poll toVec mem).transcript
      received := w.received ++ (recordsOf (w.reply toVec)).getD []
      lines := w.lines ++ (w.poll toVec mem).turns.map fun t => t.line.comp.take LINEW }

/-- The host has written its answer; what an event brings has lengths of 64 bits, and
the numbers do not reach the end of a signed one. -/
def Possible (w : World) : Action → Prop
  | .event event => w.log.length + 1 < 2 ^ 63 ∧
      ∀ p, pushedBy c w.node event = some p → ∀ seq, Sized (Push.stored (p, seq))
  | .poll mem => Holds mem 0 (w.reply toVec)

/-- Nothing that lies ahead has been dropped when the program takes something. -/
def InTime (w : World) : Action → Prop
  | .event _ => True
  | .poll _ => recordsOf (w.reply toVec) ≠ some [] → w.log.length ≤ w.after.toInt + 4096

end Steps

/-- The accepted messages as the store numbers them. -/
def numbered (log : List Push) : List StoredMessage := (log.zipIdx 1).map Push.stored

/-- The line a poll has composed for the message, whatever else was in the reply. -/
def LineFor (m : StoredMessage) (line : Bytes) : Prop :=
  ∃ (reply : Reply) (i : ℕ), (encode (.array (reply.msgs.map toValue))).length ≤ 16384 ∧
    Heard reply i m line

/-- No message twice, none out of order, none that was not accepted, and a line for
each. -/
structure ShowsAccepted (w : World) : Prop where
  accepted : w.received.Sublist (numbered w.log)
  ascending : w.received.Pairwise fun m n => m.seq < n.seq
  lines : List.Forall₂ LineFor w.received w.lines

/-- Every message up to the last one shown was shown. -/
def NoneMissed (w : World) : Prop := w.received = (numbered w.log).take w.after.toInt.toNat

/-! The log, as the store numbers it. -/

theorem isNumbered_numbered (log : List Push) :
    IsNumbered StoredMessage.seq (numbered log) := by
  have hseq : StoredMessage.seq ∘ Push.stored = Prod.snd := rfl
  rw [IsNumbered, numbered, List.map_map, hseq, List.length_map, List.length_zipIdx]
  exact List.zipIdx_map_snd 1 log

theorem length_numbered (log : List Push) : (numbered log).length = log.length := by
  simp [numbered]

theorem numbered_append (log : List Push) (p : Push) :
    numbered (log ++ [p]) = numbered log ++ [Push.stored (p, log.length + 1)] := by
  simp [numbered, List.zipIdx_append, Nat.add_comm]

/-- What the store gives out is what is kept beyond the mark. -/
theorem readAfter_eq_pending {s : MessageStore} {log : List Push} (h : Represents 4096 s log)
    (mark : ℕ) : s.readAfter mark = pending StoredMessage.seq 4096 (numbered log) mark := by
  rw [MessageStore.readAfter, h.msgs_eq, retained, map_rtake]
  rfl

theorem mem_numbered {log : List Push} {m : StoredMessage} (hm : m ∈ numbered log) :
    ∃ p ∈ log, ∃ seq, 0 < seq ∧ seq ≤ log.length ∧ m = Push.stored (p, seq) := by
  obtain ⟨⟨p, seq⟩, hp, rfl⟩ := List.mem_map.mp hm
  obtain ⟨hlow, hhigh, hsame⟩ := List.mem_zipIdx hp
  refine ⟨p, ?_, seq, by omega, by omega, rfl⟩
  rw [hsame]
  exact List.getElem_mem _

theorem readable_of_represents {s : MessageStore} {log : List Push} (h : Represents 4096 s log)
    (hlength : log.length < 2 ^ 63) (hsized : ∀ p ∈ log, ∀ seq, Sized (Push.stored (p, seq))) :
    Readable s := by
  have hmsgs : s.msgs = (numbered log).rtake 4096 := by
    rw [h.msgs_eq, retained, map_rtake]
    rfl
  have hmem : ∀ m ∈ s.msgs, ∃ p ∈ log, ∃ seq, 0 < seq ∧ seq ≤ log.length ∧
      m = Push.stored (p, seq) := by
    intro m hm
    rw [hmsgs] at hm
    exact mem_numbered ((rtake_sublist _ _).subset hm)
  refine ⟨?_, ?_, ?_, ?_⟩
  · rw [hmsgs]
    exact (isNumbered_numbered log).ascending.sublist (rtake_sublist _ _)
  · intro m hm
    obtain ⟨p, -, seq, hpos, -, rfl⟩ := hmem m hm
    exact hpos
  · intro m hm
    obtain ⟨p, -, seq, -, hle, rfl⟩ := hmem m hm
    exact hle.trans_lt hlength
  · intro m hm
    obtain ⟨p, hp, seq, -, -, rfl⟩ := hmem m hm
    exact hsized p hp seq

/-! One poll. -/

/-- The records of a reply are a page of what is pending, and all of the reply. -/
theorem reply_eq {toVec : Value → Option Bytes} (htoVec : StandardEncoder toVec)
    {s : MessageStore} (hs : Readable s) (after : Int64) :
    ∃ msgs : List StoredMessage, recordsOf (messagesRead toVec s after 16384) = some msgs ∧
      messagesRead toVec s after 16384 = encode (.array (msgs.map toValue)) ∧
      (encode (.array (msgs.map toValue))).length ≤ 16384 ∧
      msgs <+: s.readAfter after.toNatClampNeg := by
  obtain ⟨msgs, hreply, hfits, hrecords, -⟩ := messagesRead_eq htoVec hs after
  obtain ⟨page, hpage, hpoll⟩ := Reader.poll_page htoVec hs 16384 ⟨after, []⟩
  have hreceived : ∀ (taken : List StoredMessage) (r : Reader),
      (taken.foldl Reader.take r).received = r.received ++ taken := by
    intro taken
    induction taken with
    | nil => exact fun r => (List.append_nil _).symm
    | cons m taken ih =>
      intro r
      rw [List.foldl_cons, ih, Reader.take, List.append_assoc, List.singleton_append]
  have hsame : msgs = page := by
    have hboth := congrArg Reader.received hpoll
    simp only [Reader.poll, hrecords, hreceived, List.nil_append] at hboth
    exact hboth
  exact ⟨msgs, hrecords, hreply, hfits, hsame ▸ hpage.isPrefix⟩

/-- Ascending numbers beyond the mark move it to the last of them. -/
theorem after_of_page {mem : Memory} {n : ℕ} {s s' : Poll} {msgs : List StoredMessage}
    {turns : List Turn} (h : Polled mem n s msgs turns s') (hseq : ∀ m ∈ msgs, m.seq < 2 ^ 63)
    (hascending : msgs.Pairwise fun m n => m.seq < n.seq)
    (hnew : ∀ m ∈ msgs, s.after.toInt < m.seq) (hsome : msgs ≠ []) :
    s'.after.toInt = (msgs.getLast hsome).seq := by
  obtain ⟨-, hlargest, hlast⟩ := polled_after_eq h hseq
  have hend := hlargest _ (List.getLast_mem hsome)
  have hfound : ∃ m ∈ msgs, s'.after.toInt = m.seq := by
    rcases hlast with hlast | hlast
    · have hgrown := hnew _ (List.getLast_mem hsome)
      rw [hlast] at hend
      omega
    · exact hlast
  obtain ⟨m, hm, hafter⟩ := hfound
  have hle : m.seq ≤ (msgs.getLast hsome).seq := by
    rw [← List.dropLast_append_getLast hsome, List.mem_append] at hm
    rcases hm with hm | hm
    · rw [← List.dropLast_append_getLast hsome] at hascending
      exact ((List.pairwise_append.mp hascending).2.2 m hm _ (List.mem_singleton_self _)).le
    · exact (congrArg StoredMessage.seq (List.mem_singleton.mp hm)).le
  omega

theorem polled_nil {mem : Memory} {n : ℕ} {s s' : Poll} {turns : List Turn}
    (h : Polled mem n s [] turns s') : s' = s ∧ turns = [] := by
  cases h
  exact ⟨rfl, rfl⟩

/-! The world. -/

/-- What holds in every state of every run. -/
structure Invariant (w : World) : Prop where
  tracks : Tracks w.node w.log
  sized : ∀ p ∈ w.log, ∀ seq, Sized (Push.stored (p, seq))
  length_lt : w.log.length < 2 ^ 63
  after_nonneg : 0 ≤ w.after.toInt
  follows : Follows (numbered w.log) w.after.toInt.toNat w.received
  lines : List.Forall₂ LineFor w.received w.lines

theorem invariant_start : Invariant World.start where
  tracks := tracks_new
  sized := by simp [World.start]
  length_lt := by simp [World.start]
  after_nonneg := by decide
  follows := ⟨Nat.zero_le _, List.nil_sublist _⟩
  lines := .nil

theorem Invariant.readable {w : World} (h : Invariant w) : Readable w.node.messages :=
  readable_of_represents h.tracks.represents h.length_lt h.sized

theorem Invariant.showsAccepted {w : World} (h : Invariant w) : ShowsAccepted w where
  accepted := h.follows.sublist.trans (List.take_sublist _ _)
  ascending := (isNumbered_numbered w.log).ascending.sublist
    (h.follows.sublist.trans (List.take_sublist _ _))
  lines := h.lines

/-- What a poll finds and leaves. -/
structure PollOf (toVec : Value → Option Bytes) (w : World) (mem : Memory)
    (msgs : List StoredMessage) : Prop where
  records : recordsOf (w.reply toVec) = some msgs
  page : msgs <+: pending StoredMessage.seq 4096 (numbered w.log) w.after.toInt.toNat
  empty : msgs = [] → (w.poll toVec mem).after = w.after ∧ (w.poll toVec mem).turns = []
  last : ∀ hsome : msgs ≠ [], (w.poll toVec mem).after.toInt = (msgs.getLast hsome).seq
  lines : List.Forall₂ LineFor msgs
    ((w.poll toVec mem).turns.map fun t => t.line.comp.take LINEW)

section Runs

variable (c : Crypto) (compiles : Bytes → Bool) {toVec : Value → Option Bytes}
  (htoVec : StandardEncoder toVec) {w : World}

include htoVec in
theorem poll_of (h : Invariant w) {mem : Memory} (hheld : Holds mem 0 (w.reply toVec)) :
    ∃ msgs, PollOf toVec w mem msgs := by
  have hs := h.readable
  obtain ⟨msgs, hrecords, hreply, hfits, hpage⟩ := reply_eq htoVec hs w.after
  have hmem : ∀ m ∈ msgs, m ∈ w.node.messages.msgs ∧ w.after.toInt < m.seq := fun m hm =>
    (mem_readAfter_iff hs w.after m).mp (hpage.subset hm)
  have hseq : ∀ m ∈ msgs, m.seq < 2 ^ 63 := fun m hm => hs.seq_lt m (hmem m hm).1
  have hlength : (encode (.array (msgs.map toValue))).length = (w.reply toVec).length := by
    rw [World.reply, hreply]
  have hthere : Holds mem 0 (encode (.array (msgs.map toValue))) := by
    rw [World.reply, hreply] at hheld
    exact hheld
  have hsmall : (w.reply toVec).length < 2 ^ 31 := by omega
  obtain ⟨walk, turns, -, hpolled⟩ := pollMessages_encode hsmall w.after w.transcript msgs
    (fun m hm => (hseq m hm).trans (by omega)) hthere hlength
  have hturns : (w.poll toVec mem).turns = turns := hpolled.turns_eq
  refine ⟨msgs, hrecords, ?_, ?_, ?_, ?_⟩
  · rw [readAfter_eq_pending h.tracks.represents] at hpage
    exact hpage
  · rintro rfl
    obtain ⟨hpoll, hnone⟩ := polled_nil hpolled
    exact ⟨congrArg Poll.after hpoll, hturns.trans hnone⟩
  · intro hsome
    refine after_of_page hpolled hseq ?_ (fun m hm => (hmem m hm).2) hsome
    exact (hs.readAfter_ascending _).sublist hpage.sublist
  · let reply : Reply :=
      ⟨mem, msgs, fun m hm => (hseq m hm).trans (by omega), hlength ▸ hsmall, hthere⟩
    have hpoll : reply.poll w.after w.transcript = w.poll toVec mem := by
      rw [Reply.poll, World.poll, ← hlength]
    obtain ⟨hcount, -⟩ := reply.poll_turns w.after w.transcript
    rw [hpoll] at hcount
    rw [List.forall₂_iff_get]
    refine ⟨by rw [List.length_map, hcount], ?_⟩
    intro i hi hi'
    rw [List.length_map] at hi'
    have hkey : (msgs.get ⟨i, hi⟩).fromPubkey.length = 32 := by
      have hstored := (hmem _ (List.get_mem msgs ⟨i, hi⟩)).1
      rw [h.tracks.represents.msgs_eq, retained, map_rtake] at hstored
      obtain ⟨p, hp, seq, -, -, heq⟩ := mem_numbered ((rtake_sublist _ _).subset hstored)
      rw [heq]
      exact h.tracks.keys p hp
    refine ⟨reply, i, hfits, hkey, List.getElem?_eq_getElem hi, w.after, w.transcript,
      (w.poll toVec mem).turns[i], ?_, ?_⟩
    · rw [hpoll]
      exact List.getElem?_eq_getElem hi'
    · simp

/-- What a poll takes in, with its effect on the world. -/
theorem step_poll {mem : Memory} {msgs : List StoredMessage} (h : PollOf toVec w mem msgs) :
    (w.step c compiles toVec (.poll mem)).received = w.received ++ msgs ∧
      (w.step c compiles toVec (.poll mem)).after = (w.poll toVec mem).after ∧
      (w.step c compiles toVec (.poll mem)).log = w.log := by
  have hrecords := h.records
  simp [World.step, hrecords]

/-- The log stays or grows by the message pushed. -/
theorem logStep_cases (e : Executor) (log : List Push) (event : Event) :
    logStep c e log event = log ∨
      ∃ p, pushedBy c e event = some p ∧ logStep c e log event = log ++ [p] := by
  unfold logStep
  cases hpushed : pushedBy c e event with
  | none => exact .inl rfl
  | some p =>
    dsimp only [DedupLog.accept]
    split_ifs
    · exact .inl rfl
    · exact .inr ⟨p, rfl, rfl⟩

include htoVec in
/-- Step lemma. -/
theorem invariant_step {action : Action} (hpossible : Possible c toVec w action)
    (h : Invariant w) : Invariant (w.step c compiles toVec action) := by
  cases action with
  | event event =>
    obtain ⟨hroom, hsized⟩ := hpossible
    have htracks := tracks_step c compiles h.tracks event
    rcases logStep_cases c w.node w.log event with hsame | ⟨p, hpushed, hgrown⟩
    · refine ⟨htracks, ?_, ?_, h.after_nonneg, ?_, h.lines⟩ <;> simp only [World.step, hsame]
      · exact h.sized
      · exact h.length_lt
      · exact h.follows
    · refine ⟨htracks, ?_, ?_, h.after_nonneg, ?_, h.lines⟩ <;> simp only [World.step, hgrown]
      · intro q hq
        rcases List.mem_append.mp hq with hq | hq
        · exact h.sized q hq
        · exact List.mem_singleton.mp hq ▸ hsized p hpushed
      · rw [List.length_append, List.length_singleton]
        exact hroom
      · rw [numbered_append]
        exact h.follows.append _
  | poll mem =>
    obtain ⟨msgs, hpoll⟩ := poll_of htoVec h hpossible
    obtain ⟨hreceived, hafter, hlog⟩ := step_poll c compiles hpoll
    have hlines : List.Forall₂ LineFor (w.step c compiles toVec (.poll mem)).received
        (w.step c compiles toVec (.poll mem)).lines := by
      rw [hreceived]
      exact List.rel_append h.lines hpoll.lines
    by_cases hsome : msgs = []
    · rw [hsome, List.append_nil] at hreceived
      rw [(hpoll.empty hsome).1] at hafter
      refine ⟨h.tracks, h.sized, h.length_lt, ?_, ?_, hlines⟩
      · rw [hafter]
        exact h.after_nonneg
      · rw [hreceived, hafter]
        exact h.follows
    · have hlast := hpoll.last hsome
      have hnumbered := isNumbered_numbered w.log
      refine ⟨h.tracks, h.sized, h.length_lt, ?_, ?_, hlines⟩
      · rw [hafter, hlast]
        omega
      · rw [hreceived, hafter, hlast, Int.toNat_natCast]
        exact h.follows.take hnumbered hpoll.page hsome

include htoVec in
/-- A step keeps nothing missed exactly when it is in time. -/
theorem noneMissed_step_iff {action : Action} (hpossible : Possible c toVec w action)
    (h : Invariant w) (hnone : NoneMissed w) :
    NoneMissed (w.step c compiles toVec action) ↔ InTime toVec w action := by
  cases action with
  | event event =>
    refine iff_of_true ?_ trivial
    have hprefix : numbered w.log <+: numbered (logStep c w.node w.log event) := by
      obtain ⟨more, hmore⟩ := logAfter_prefix c compiles w.node w.log [event]
      have hlog : w.log ++ more = logStep c w.node w.log event := hmore
      rw [← hlog, numbered, numbered, List.zipIdx_append, List.map_append]
      exact List.prefix_append _ _
    obtain ⟨more, hmore⟩ := hprefix
    simp only [NoneMissed, World.step, ← hmore, List.take_append_of_le_length h.follows.mark_le]
    exact hnone
  | poll mem =>
    obtain ⟨msgs, hpoll⟩ := poll_of htoVec h hpossible
    obtain ⟨hreceived, hafter, hlog⟩ := step_poll c compiles hpoll
    rw [NoneMissed, InTime, hreceived, hafter, hlog, hpoll.records]
    by_cases hsome : msgs = []
    · rw [(hpoll.empty hsome).1, hsome, List.append_nil]
      exact iff_of_true hnone (fun h => absurd rfl h)
    · have hiff := h.follows.complete_take_iff (isNumbered_numbered w.log) hpoll.page hsome hnone
      have hmark := h.after_nonneg
      rw [length_numbered] at hiff
      rw [hpoll.last hsome, Int.toNat_natCast]
      refine hiff.trans ⟨fun hkept _ => by omega, fun hkept => ?_⟩
      have hle := hkept (by simpa using hsome)
      omega

/-- However the events of the node and the polls follow one another, the program shows
accepted messages only, each once and in the order of their numbers, with a line for
each. It has shown all of them up to the last at every moment exactly when whatever it
took was taken before more than 4096 messages lay ahead. -/
theorem chat_follows_iff (htoVec : StandardEncoder toVec) (actions : List Action)
    (hpossible : EachStep (World.step c compiles toVec) (Possible c toVec) World.start actions) :
    EveryState (World.step c compiles toVec) ShowsAccepted World.start actions ∧
      (EveryState (World.step c compiles toVec) NoneMissed World.start actions ↔
        EachStep (World.step c compiles toVec) (InTime toVec) World.start actions) := by
  constructor
  · exact everyState_of_eachStep _ (fun _ _ hok => invariant_step c compiles htoVec hok)
      (fun _ => Invariant.showsAccepted) hpossible invariant_start
  · exact everyState_iff_eachStep _ (fun _ _ hok => invariant_step c compiles htoVec hok)
      (fun _ _ hok => noneMissed_step_iff c compiles htoVec hok) hpossible invariant_start rfl

end Runs

/-- The chat line `hi` is delivered. -/
def hiDelivered : Event := .datagram (.v4 1 2240) 1 (some (aliceLine [1]))

/-- What the host then answers. -/
def hiReply : Bytes :=
  (World.start.step (idealCrypto (aliceIssued [1])) (fun _ => false) (fun v => some (encode v))
    (.event hiDelivered)).reply fun v => some (encode v)

theorem chat_follows_iff_line :
    EveryState (World.step (idealCrypto (aliceIssued [1])) (fun _ => false)
        (fun v => some (encode v))) ShowsAccepted World.start
      [.event hiDelivered, .poll (ofBytes hiReply)] ∧
    EveryState (World.step (idealCrypto (aliceIssued [1])) (fun _ => false)
        (fun v => some (encode v))) NoneMissed World.start
      [.event hiDelivered, .poll (ofBytes hiReply)] := by
  have hpushed : pushedBy (idealCrypto (aliceIssued [1])) Executor.new hiDelivered =
      some ⟨"alice", aliceKey, [1], hiPayload, 1⟩ := by decide +kernel
  have hsized : ∀ seq, Sized (Push.stored (⟨"alice", aliceKey, [1], hiPayload, 1⟩, seq)) := by
    intro seq
    have hname : (utf8 "alice").length = 5 := by decide
    have htext : hiPayload.length < 2 ^ 64 := by simp [hiPayload]
    exact ⟨hname.trans_lt (by omega), List.length_replicate.trans_lt (by omega), htext⟩
  obtain ⟨hshows, hiff⟩ := chat_follows_iff (idealCrypto (aliceIssued [1])) (fun _ => false)
    standardEncoder_encode [.event hiDelivered, .poll (ofBytes hiReply)] (by
      refine ⟨⟨by simp [World.start], ?_⟩, holds_ofBytes hiReply, trivial⟩
      intro p hp
      rw [World.start, hpushed, Option.some.injEq] at hp
      exact hp ▸ hsized)
  refine ⟨hshows, hiff.mpr ⟨trivial, fun _ => ?_, trivial⟩⟩
  have hone : (World.start.step (idealCrypto (aliceIssued [1])) (fun _ => false)
      (fun v => some (encode v)) (.event hiDelivered)).log.length = 1 := by decide +kernel
  have hzero : (World.start.step (idealCrypto (aliceIssued [1])) (fun _ => false)
      (fun v => some (encode v)) (.event hiDelivered)).after.toInt = 0 := rfl
  omega

end Weverywhere.ChatFollowing
