import Weverywhere.ChatFollowing
import Weverywhere.ChatLines
import Weverywhere.WireFormat

/-!
Lines of chat between the nodes of a fabric. What is typed on one node is packed by
`send_msg` of `src/example-programs/chat.c`, signed by `host::messages_send` and
broadcast. Copies of the datagram reach the nodes any number of times, in any order or
not at all, beside whatever else happens there.
-/
namespace Weverywhere.ChatDelivery

open ByteStrings Cbor Chat ChatFollowing ChatIdentity ChatLines ChatSafety ChatWalk DedupLog
  Identity MessageLog MessagesRead Messages Node ReplayedDatagrams Runs WireFormat

/-- Who types on a node: the identity the process runs under, and its key. -/
structure Party where
  source : IdentityData
  signingKey : Bytes

/-- The identity checks out, and its key signs what then verifies. -/
structure Signs (c : Crypto) (p : Party) : Prop where
  self_signed : p.source.checkSelfSignature c = .ok ()
  signature_length : ∀ m, (c.sign p.signingKey m).length = 64
  verifies : ∀ m, c.verify p.source.encodedPublicKey m (c.sign p.signingKey m) = true
  fits : identityData.Fits p.source

/-- A line sent from a node; `nonce` is what the host drew for it. -/
structure Line (ι : Type) where
  sender : ι
  kind : Kind
  text : Bytes
  nonce : Vector UInt8 16

variable {ι : Type} (party : ι → Party) (c : Crypto)

namespace Line

variable (line : Line ι)

/-- What `send_msg` hands to the host. -/
def payload : Bytes := (sendMsg line.text line.kind).items

/-- What `host::messages_send` hands to the launcher. -/
def datagram : Option Bytes :=
  (Executor.messagesSend c (some (party line.sender).source)
    (some (party line.sender).signingKey) (some true) line.nonce line.payload).2.map toVec

/-- The key and the id the line is known by. -/
def key : Option (Bytes × Bytes) :=
  some ((party line.sender).source.encodedPublicKey, line.nonce.toList)

/-- How a node stores the line at `now`. -/
def push (now : UInt64) : Push where
  fromName := (party line.sender).source.humanName
  fromPubkey := (party line.sender).source.encodedPublicKey
  id := line.nonce.toList
  text := line.payload
  epochS := now

def say : Say :=
  match line.kind with
  | .chat => .text line.text
  | .join => .joined
  | .leave => .left

/-- What is to be seen of the line. -/
def spoken : Spoken where
  name := utf8 (party line.sender).source.humanName
  pubkey := (party line.sender).source.encodedPublicKey
  say := line.say

end Line

/-! The fabric. -/

/-- The nodes with the chat program on each, the lines sent so far, and which of them
have reached which node. -/
structure World (ι : Type) where
  chat : ι → ChatFollowing.World
  sent : List (Line ι)
  arrived : List (ι × ℕ)

inductive Action (ι : Type)
  | send (line : Line ι)
  /-- A copy of the datagram with the number `k` reaches the node `j`. -/
  | arrive (j : ι) (addr : SocketAddr) (now : UInt64) (k : ℕ)
  /-- Other datagrams, other programs and the polls. -/
  | other (j : ι) (action : ChatFollowing.Action)

def World.start : World ι := ⟨fun _ => ChatFollowing.World.start, [], []⟩

/-- The copy of a line as the socket of a node hands it over. -/
def Line.event (line : Line ι) (addr : SocketAddr) (now : UInt64) : Event :=
  .datagram addr now ((line.datagram party c).bind fromSlice)

section Steps

variable [DecidableEq ι] (compiles : Bytes → Bool) (toVec : Value → Option Bytes)

def World.atNode (w : World ι) (j : ι) (action : ChatFollowing.Action) : World ι :=
  { w with chat := Function.update w.chat j ((w.chat j).step c compiles toVec action) }

def World.step (w : World ι) : Action ι → World ι
  | .send line => { w with sent := w.sent ++ [line] }
  | .arrive j addr now k =>
    match w.sent[k]? with
    | none => w
    | some line =>
      { w.atNode c compiles toVec j (.event (line.event party c addr now)) with
        arrived := w.arrived ++ [(j, k)] }
  | .other j action => w.atNode c compiles toVec j action

/-- A line is short enough for its buffer, its id is new, and nobody else uses it. -/
def Possible (w : World ι) : Action ι → Prop
  | .send line => 1 ≤ line.text.length ∧ line.text.length ≤ longest line.kind ∧
      (∀ earlier ∈ w.sent, earlier.key party ≠ line.key party) ∧
      ∀ j, ∀ p ∈ (w.chat j).log, p.key ≠ line.key party
  | .arrive j _ _ _ => (w.chat j).log.length + 1 < 2 ^ 63
  | .other j action => ChatFollowing.Possible c toVec (w.chat j) action ∧
      ∀ event, action = .event event → ∀ p, pushedBy c (w.chat j).node event = some p →
        ∀ line ∈ w.sent, p.key ≠ line.key party

/-- Nobody polls too late. -/
def InTime (w : World ι) : Action ι → Prop
  | .other j action => ChatFollowing.InTime toVec (w.chat j) action
  | _ => True

/-- A further copy comes while the id of the line is remembered. -/
def Remembered (w : World ι) : Action ι → Prop
  | .arrive j _ now k => (j, k) ∈ w.arrived → ∀ line, w.sent[k]? = some line →
      Repeats (w.chat j).log (line.push party now)
  | _ => True

end Steps

/-- The line is in the log of the node at one place, and if the program got that far,
it is shown there under its sender's name and id with what was typed, as far as a line has
room for them. -/
def ShownOnce (line : Line ι) (w : ChatFollowing.World) : Prop :=
  ∃ (n : ℕ) (now : UInt64), w.log[n]? = some (line.push party now) ∧
    (∀ (n' : ℕ) (p : Push), w.log[n']? = some p → p.key = line.key party → n' = n) ∧
    ((n : ℤ) < w.after.toInt → ∃ shown, w.lines[n]? = some shown ∧
      ShownAs (line.spoken party) shown)

/-- Every node has shown what it accepted, one line each, and of every line that was
sent one if a copy came and none if not. -/
structure Delivered (w : World ι) : Prop where
  shows : ∀ j, ShowsAccepted (w.chat j) ∧ NoneMissed (w.chat j)
  once : ∀ j k line, w.sent[k]? = some line → (j, k) ∈ w.arrived →
    ShownOnce party line (w.chat j)
  never : ∀ j k line, w.sent[k]? = some line → (j, k) ∉ w.arrived →
    ∀ p ∈ (w.chat j).log, p.key ≠ line.key party

/-! One line on its way. -/

section Lines

variable {c} {line : Line ι}

theorem push_key (now : UInt64) : (line.push party now).key = line.key party := by
  have hid : line.nonce.toList ≠ [] := by
    intro hnil
    have hlength : line.nonce.toList.length = 16 := line.nonce.length_toList
    rw [hnil, List.length_nil] at hlength
    omega
  exact (Push.key_eq_some_iff _ _).mpr ⟨hid, rfl⟩

variable (hsome : 1 ≤ line.text.length) (hshort : line.text.length ≤ longest line.kind)

include hsome hshort

theorem payload_eq : line.payload = linePayload line.text line.kind := by
  have hfits : line.text.length ≤ 1024 := hshort.trans (by cases line.kind <;> simp [longest])
  have hpayload := items_sendMsg ⟨line.text, hsome, hfits⟩ line.kind
  rw [List.take_of_length_le ((linePayload_fits_iff ⟨line.text, hsome, hfits⟩ line.kind).mpr
    hshort)] at hpayload
  exact hpayload

theorem payload_length_le : line.payload.length ≤ 1024 := by
  have hfits : line.text.length ≤ 1024 := hshort.trans (by cases line.kind <;> simp [longest])
  rw [payload_eq hsome hshort]
  exact (linePayload_fits_iff ⟨line.text, hsome, hfits⟩ line.kind).mpr hshort

theorem datagram_eq : line.datagram party c = some (toVec (.signedFabricMessage
    (party line.sender).source line.nonce.toList line.payload
    (IdentityData.signPayload c (party line.sender).signingKey line.nonce.toList
      line.payload))) := by
  have hmajor : Executor.payloadMajor line.payload = some 4 := by
    rw [payload_eq hsome hshort]
    cases line.kind <;> rfl
  rw [Line.datagram, Option.map_eq_some_iff]
  exact ⟨_, (Executor.messagesSend_eq_some_iff c _ _ _ _ _ _).mpr
    ⟨Or.inl hmajor, rfl, _, _, rfl, rfl, rfl⟩, rfl⟩

/-- The copy arrives as it was sent, is verified and is stored. -/
theorem pushedBy_event (hsigns : Signs c (party line.sender)) (e : Executor)
    (addr : SocketAddr) (now : UInt64) :
    pushedBy c e (line.event party c addr now) = some (line.push party now) := by
  have hlong := payload_length_le hsome hshort
  obtain ⟨hkey, hverifying, -, -⟩ := (verifyDigest_ok_iff c _ _ _).mp hsigns.self_signed
  have hsignature := hsigns.signature_length (c.sha256 (line.nonce.toList ++ line.payload))
  have hfits : WireFormat.Fits (.signedFabricMessage (party line.sender).source
      line.nonce.toList line.payload (IdentityData.signPayload c (party line.sender).signingKey
        line.nonce.toList line.payload)) := by
    refine ⟨hsigns.fits, ?_, ?_, ?_⟩
    · show line.nonce.toList.length < 2 ^ 64
      simp
    · show line.payload.length < 2 ^ 64
      omega
    · show (c.sign _ _).length < 2 ^ 64
      omega
  have hverified : FabricVerified c (party line.sender).source line.nonce.toList line.payload
      (IdentityData.signPayload c (party line.sender).signingKey line.nonce.toList
        line.payload) := by
    refine ⟨hsigns.self_signed, ?_⟩
    apply (verifyDigest_ok_iff c _ _ _).mpr
    exact ⟨hkey, hverifying, hsignature, hsigns.verifies _⟩
  rw [Line.event, datagram_eq party hsome hshort, Option.bind_some, fromSlice_toVec _ hfits]
  simp only [pushedBy, if_pos hverified]
  rfl

/-- What a poll shows of a message that carries the line. -/
theorem shownAs_of_lineFor {now : UInt64} {seq : ℕ} {shown : Bytes}
    (h : LineFor (Push.stored (line.push party now, seq)) shown) :
    ShownAs (line.spoken party) shown := by
  obtain ⟨reply, i, hfits, hheard⟩ := h
  obtain ⟨after, transcript, t, ht, -⟩ := hheard.turn
  obtain ⟨t', ht', hdispL, hdisp, hkind⟩ := recovered_linePayload hsome line.kind reply.mem _
    after transcript reply.msgs hfits reply.seq_lt reply.held rfl i _ hheard.message
    (payload_eq hsome hshort)
  obtain ⟨slot, -, -, hturn⟩ := (reply.poll_turns after transcript).2 i t _ ht hheard.message
  have hsame : t' = t := Option.some.inj (ht'.symm.trans ht)
  have hshown : decodePayload reply.mem (reply.place i + textOff
      (Push.stored (line.push party now, seq))) line.payload.length = t'.shown := by
    rw [hsame, hturn]
    rfl
  have hspoken : reply.spoken i (Push.stored (line.push party now, seq)) =
      line.spoken party := by
    have hsay : Reply.sayOf reply.mem t'.shown = line.say := by
      rw [Reply.sayOf, hkind, hdispL, Int.toNat_natCast, hdisp, Line.say]
      cases line.kind <;> rfl
    rw [Line.spoken, ← hsay, ← hshown]
    rfl
  have hline := hheard.line_eq
  rw [hspoken] at hline
  have hkey : (line.spoken party).pubkey.length = 32 := hheard.pubkey
  rw [hline]
  exact shownAs_line hkey

end Lines

/-! The logs of all nodes. -/

/-- No key twice in the log. -/
def OnceIn (log : List Push) (key : Option (Bytes × Bytes)) : Prop :=
  log.Pairwise fun p q => ¬ (p.key = key ∧ q.key = key)

theorem onceIn_append_iff {log : List Push} {key : Option (Bytes × Bytes)} (p : Push)
    (h : OnceIn log key) :
    OnceIn (log ++ [p]) key ↔ (p.key = key → ∀ q ∈ log, q.key ≠ key) := by
  rw [OnceIn, List.pairwise_append]
  constructor
  · rintro ⟨-, -, hboth⟩ hp q hq hkey
    exact hboth q hq p (List.mem_singleton_self p) ⟨hkey, hp⟩
  · intro hnew
    refine ⟨h, List.pairwise_singleton _ _, ?_⟩
    intro q hq p' hp' hboth
    rw [List.mem_singleton.mp hp'] at hboth
    exact hnew hboth.2 q hq hboth.1

/-- An entry that is the only one of its key, by its place. -/
theorem OnceIn.index_eq {log : List Push} {key : Option (Bytes × Bytes)} (h : OnceIn log key)
    {n n' : ℕ} {p p' : Push} (hn : log[n]? = some p) (hn' : log[n']? = some p')
    (hp : p.key = key) (hp' : p'.key = key) : n' = n := by
  obtain ⟨hlt, rfl⟩ := List.getElem?_eq_some_iff.mp hn
  obtain ⟨hlt', rfl⟩ := List.getElem?_eq_some_iff.mp hn'
  rw [OnceIn, List.pairwise_iff_getElem] at h
  rcases Nat.lt_trichotomy n n' with hbefore | hsame | hafter
  · exact absurd ⟨hp, hp'⟩ (h n n' hlt hlt' hbefore)
  · exact hsame.symm
  · exact absurd ⟨hp', hp⟩ (h n' n hlt' hlt hafter)

/-- What the logs have to do with the lines that were sent. -/
structure Accounts (sent : List (Line ι)) (arrived : List (ι × ℕ)) (logs : ι → List Push) :
    Prop where
  distinct : ∀ (k k' : ℕ) line line', sent[k]? = some line → sent[k']? = some line' →
    line.key party = line'.key party → k = k'
  arrived_lt : ∀ j k, (j, k) ∈ arrived → k < sent.length
  entries : ∀ j, ∀ line ∈ sent, ∀ p ∈ logs j, p.key = line.key party →
    ∃ now, p = line.push party now
  arrived_iff : ∀ j (k : ℕ) line, sent[k]? = some line →
    ((j, k) ∈ arrived ↔ ∃ p ∈ logs j, p.key = line.key party)

theorem accounts_start : Accounts party ([] : List (Line ι)) [] fun _ => [] where
  distinct := by simp
  arrived_lt := by simp
  entries := by simp
  arrived_iff := by simp

section Accounts

variable {party} {sent : List (Line ι)} {arrived : List (ι × ℕ)} {logs : ι → List Push}
  (h : Accounts party sent arrived logs)

include h

theorem Accounts.send {line : Line ι} (hnew : ∀ earlier ∈ sent, earlier.key party ≠ line.key party)
    (hunused : ∀ j, ∀ p ∈ logs j, p.key ≠ line.key party) :
    Accounts party (sent ++ [line]) arrived logs := by
  have hcases : ∀ (k : ℕ) line', (sent ++ [line])[k]? = some line' →
      sent[k]? = some line' ∨ k = sent.length ∧ line' = line := by
    intro k line' hk
    rcases Nat.lt_trichotomy k sent.length with hlt | heq | hgt
    · rw [List.getElem?_append_left hlt] at hk
      exact .inl hk
    · subst heq
      simp only [List.getElem?_concat_length, Option.some.injEq] at hk
      exact .inr ⟨rfl, hk.symm⟩
    · rw [List.getElem?_eq_none (by simp; omega)] at hk
      cases hk
  refine ⟨?_, ?_, ?_, ?_⟩
  · intro k k' a b hk hk' hkey
    rcases hcases k a hk with hk | ⟨hk, ha⟩ <;> rcases hcases k' b hk' with hk' | ⟨hk', hb⟩
    · exact h.distinct k k' a b hk hk' hkey
    · exact absurd (hb ▸ hkey) (hnew a (List.mem_of_getElem? hk))
    · exact absurd (ha ▸ hkey).symm (hnew b (List.mem_of_getElem? hk'))
    · rw [hk, hk']
  · intro j k hmem
    rw [List.length_append]
    exact Nat.lt_add_right _ (h.arrived_lt j k hmem)
  · intro j line' hline' p hp hkey
    rcases List.mem_append.mp hline' with hline' | hline'
    · exact h.entries j line' hline' p hp hkey
    · rw [List.mem_singleton.mp hline'] at hkey
      exact absurd hkey (hunused j p hp)
  · intro j k line' hk
    rcases hcases k line' hk with hk | ⟨rfl, rfl⟩
    · exact h.arrived_iff j k line' hk
    · refine iff_of_false ?_ ?_
      · intro hmem
        exact absurd (h.arrived_lt j _ hmem) (lt_irrefl _)
      · rintro ⟨p, hp, hkey⟩
        exact hunused j p hp hkey

variable [DecidableEq ι]

/-- A message that is none of the lines. -/
theorem Accounts.other {p : Push} (hother : ∀ line ∈ sent, p.key ≠ line.key party) (j : ι) :
    Accounts party sent arrived (Function.update logs j (logs j ++ [p])) := by
  have hmem : ∀ j', ∀ line ∈ sent, ∀ q, q.key = line.key party →
      (q ∈ Function.update logs j (logs j ++ [p]) j' ↔ q ∈ logs j') := by
    intro j' line hline q hkey
    rcases eq_or_ne j' j with rfl | hne
    · rw [Function.update_self, List.mem_append, List.mem_singleton]
      exact or_iff_left fun hq => hother line hline (hq ▸ hkey)
    · rw [Function.update_of_ne hne]
  refine ⟨h.distinct, h.arrived_lt, ?_, ?_⟩
  · intro j' line hline q hq hkey
    exact h.entries j' line hline q ((hmem j' line hline q hkey).mp hq) hkey
  · intro j' k line hk
    rw [h.arrived_iff j' k line hk]
    have hline := List.mem_of_getElem? hk
    constructor
    · rintro ⟨q, hq, hkey⟩
      exact ⟨q, (hmem j' line hline q hkey).mpr hq, hkey⟩
    · rintro ⟨q, hq, hkey⟩
      exact ⟨q, (hmem j' line hline q hkey).mp hq, hkey⟩

/-- A copy of a line, taken or refused. -/
theorem Accounts.arrive {k : ℕ} {line : Line ι} (hk : sent[k]? = some line) (j : ι)
    (now : UInt64) : Accounts party sent (arrived ++ [(j, k)])
      (Function.update logs j (accept Push.key seenWindow (logs j) (line.push party now))) := by
  have hhas : ∃ p ∈ accept Push.key seenWindow (logs j) (line.push party now),
      p.key = line.key party := by
    unfold accept
    split_ifs with hrepeat
    · obtain ⟨key, hkey, hmem⟩ := hrepeat
      obtain ⟨p, hp, hpkey⟩ := List.mem_filterMap.mp ((BoundedQueue.rtake_sublist _ _).subset hmem)
      exact ⟨p, hp, by rw [hpkey, ← hkey, push_key]⟩
    · exact ⟨_, List.mem_append_right _ (List.mem_singleton_self _), push_key party now⟩
  have hcases : ∀ q ∈ accept Push.key seenWindow (logs j) (line.push party now),
      q ∈ logs j ∨ q = line.push party now := by
    intro q hq
    unfold accept at hq
    split_ifs at hq
    · exact .inl hq
    · simpa using hq
  have hkept : ∀ q ∈ logs j, q ∈ accept Push.key seenWindow (logs j) (line.push party now) :=
    fun q hq => (prefix_foldl_accept Push.key seenWindow (logs j) [_]).subset hq
  refine ⟨h.distinct, ?_, ?_, ?_⟩
  · intro j' k' hmem
    rcases List.mem_append.mp hmem with hmem | hmem
    · exact h.arrived_lt j' k' hmem
    · rw [List.mem_singleton, Prod.mk.injEq] at hmem
      rw [hmem.2]
      exact (List.getElem?_eq_some_iff.mp hk).1
  · intro j' line' hline' q hq hkey
    rcases eq_or_ne j' j with rfl | hne
    · rw [Function.update_self] at hq
      rcases hcases q hq with hq | rfl
      · exact h.entries j' line' hline' q hq hkey
      · -- two lines of one key are the same line
        obtain ⟨k', hk'⟩ := List.mem_iff_getElem?.mp hline'
        rw [push_key] at hkey
        obtain rfl := h.distinct k k' line line' hk hk' hkey
        rw [Option.some.inj (hk.symm.trans hk')]
        exact ⟨now, rfl⟩
    · rw [Function.update_of_ne hne] at hq
      exact h.entries j' line' hline' q hq hkey
  · intro j' k' line' hk'
    have hsame : (j', k') = (j, k) ∨ ¬ (j' = j ∧ line'.key party = line.key party) := by
      by_cases hboth : j' = j ∧ line'.key party = line.key party
      · exact .inl (by rw [hboth.1, h.distinct k' k line' line hk' hk hboth.2])
      · exact .inr hboth
    rcases hsame with hsame | hother
    · obtain ⟨rfl, rfl⟩ := Prod.mk.inj hsame
      rw [Function.update_self, ← Option.some.inj (hk.symm.trans hk')]
      exact iff_of_true (List.mem_append_right _ (List.mem_singleton_self _)) hhas
    · have hne : (j', k') ≠ (j, k) := by
        intro heq
        obtain ⟨rfl, rfl⟩ := Prod.mk.inj heq
        exact hother ⟨rfl, by rw [Option.some.inj (hk.symm.trans hk')]⟩
      rw [List.mem_append, List.mem_singleton, or_iff_left hne, h.arrived_iff j' k' line' hk']
      rcases eq_or_ne j' j with rfl | hj
      · rw [Function.update_self]
        constructor
        · rintro ⟨q, hq, hkey⟩
          exact ⟨q, hkept q hq, hkey⟩
        · rintro ⟨q, hq, hkey⟩
          rcases hcases q hq with hq | rfl
          · exact ⟨q, hq, hkey⟩
          · exact absurd ⟨rfl, hkey.symm.trans (push_key party now)⟩ hother
      · rw [Function.update_of_ne hj]

end Accounts

/-! Runs of the fabric. -/

/-- What every run keeps. -/
structure Kept (w : World ι) : Prop where
  chat : ∀ j, Invariant (w.chat j)
  lines : ∀ line ∈ w.sent, 1 ≤ line.text.length ∧ line.text.length ≤ longest line.kind
  accounts : Accounts party w.sent w.arrived fun j => (w.chat j).log

/-- And what they keep while nobody polls too late. -/
structure UpToDate (w : World ι) : Prop where
  kept : Kept party w
  noneMissed : ∀ j, NoneMissed (w.chat j)

/-- No line is recorded twice anywhere. -/
def AtMostOnce (w : World ι) : Prop :=
  ∀ j, ∀ line ∈ w.sent, OnceIn (w.chat j).log (line.key party)

theorem kept_start : Kept party (World.start : World ι) :=
  ⟨fun _ => invariant_start, nofun, accounts_start party⟩

theorem onceIn_of_absent {log : List Push} {key : Option (Bytes × Bytes)}
    (h : ∀ p ∈ log, p.key ≠ key) : OnceIn log key := by
  rw [OnceIn, List.pairwise_iff_getElem]
  intro i j hi hj _ hboth
  exact h _ (List.getElem_mem hi) hboth.1

/-- What the log has of a line that came and was not recorded twice is shown once. -/
theorem shownOnce_of_onceIn {w : ChatFollowing.World} {line : Line ι} (hw : Invariant w)
    (hnone : NoneMissed w) (hline : 1 ≤ line.text.length ∧ line.text.length ≤ longest line.kind)
    (honce : OnceIn w.log (line.key party)) {now : UInt64} (hmem : line.push party now ∈ w.log) :
    ShownOnce party line w := by
  obtain ⟨n, hn⟩ := List.mem_iff_getElem?.mp hmem
  refine ⟨n, now, hn, fun n' p hn' hp => honce.index_eq hn hn' (push_key party now) hp, ?_⟩
  intro hseen
  have hnumbered : (numbered w.log)[n]? = some (Push.stored (line.push party now, n + 1)) := by
    simp [numbered, hn, Nat.add_comm]
  have hreceived : w.received[n]? = some (Push.stored (line.push party now, n + 1)) := by
    rw [hnone, List.getElem?_take_of_lt (by omega), hnumbered]
  obtain ⟨hi, hget⟩ := List.getElem?_eq_some_iff.mp hreceived
  obtain ⟨hlength, hall⟩ := List.forall₂_iff_get.mp hw.lines
  have hfor := hall n hi (hlength ▸ hi)
  simp only [List.get_eq_getElem, hget] at hfor
  exact ⟨_, List.getElem?_eq_getElem _, shownAs_of_lineFor party hline.1 hline.2 hfor⟩

/-- While nobody misses anything, all is delivered exactly when nothing is recorded
twice. -/
theorem delivered_iff_atMostOnce {w : World ι} (hupToDate : UpToDate party w) :
    Delivered party w ↔ AtMostOnce party w := by
  obtain ⟨h, hnone⟩ := hupToDate
  constructor
  · intro hdelivered j line hline
    obtain ⟨k, hk⟩ := List.mem_iff_getElem?.mp hline
    by_cases harrived : (j, k) ∈ w.arrived
    · obtain ⟨n, now, -, honly, -⟩ := hdelivered.once j k line hk harrived
      rw [OnceIn, List.pairwise_iff_getElem]
      intro i i' hi hi' hlt hboth
      have hfirst := honly i _ (List.getElem?_eq_getElem hi) hboth.1
      have hsecond := honly i' _ (List.getElem?_eq_getElem hi') hboth.2
      omega
    · exact onceIn_of_absent (hdelivered.never j k line hk harrived)
  · intro honce
    refine ⟨fun j => ⟨(h.chat j).showsAccepted, hnone j⟩, ?_, ?_⟩
    · intro j k line hk harrived
      have hline := List.mem_of_getElem? hk
      obtain ⟨p, hp, hkey⟩ := (h.accounts.arrived_iff j k line hk).mp harrived
      obtain ⟨now, rfl⟩ := h.accounts.entries j line hline p hp hkey
      exact shownOnce_of_onceIn party (h.chat j) (hnone j) (h.lines line hline)
        (honce j line hline) hp
    · intro j k line hk harrived p hp hkey
      exact harrived ((h.accounts.arrived_iff j k line hk).mpr ⟨p, hp, hkey⟩)

section Runs

variable {party} {c} (compiles : Bytes → Bool) {toVec : Value → Option Bytes} {w : World ι}

/-- The log of a node a copy has come to. -/
theorem log_event (hsigns : ∀ i, Signs c (party i)) {line : Line ι}
    (hline : 1 ≤ line.text.length ∧ line.text.length ≤ longest line.kind) (j : ι)
    (addr : SocketAddr) (now : UInt64) :
    ((w.chat j).step c compiles toVec (.event (line.event party c addr now))).log =
      accept Push.key seenWindow (w.chat j).log (line.push party now) := by
  have hpushed := pushedBy_event party hline.1 hline.2 (hsigns _) (w.chat j).node addr now
  simp only [ChatFollowing.World.step, logStep, hpushed]

theorem possible_event (hsigns : ∀ i, Signs c (party i)) {line : Line ι}
    (hline : 1 ≤ line.text.length ∧ line.text.length ≤ longest line.kind) {j : ι}
    {addr : SocketAddr} {now : UInt64} (hroom : (w.chat j).log.length + 1 < 2 ^ 63) :
    ChatFollowing.Possible c toVec (w.chat j) (.event (line.event party c addr now)) := by
  refine ⟨hroom, ?_⟩
  intro p hp seq
  rw [pushedBy_event party hline.1 hline.2 (hsigns _)] at hp
  obtain rfl := Option.some.inj hp
  have hlong := payload_length_le hline.1 hline.2
  have hkey := IdentityData.checkSelfSignature_key_length (hsigns line.sender).self_signed
  refine ⟨(hsigns line.sender).fits.1, ?_, ?_⟩
  · show (party line.sender).source.encodedPublicKey.length < 2 ^ 64
    omega
  · show line.payload.length < 2 ^ 64
    omega

variable [DecidableEq ι]

theorem log_atNode (j : ι) (action : ChatFollowing.Action) :
    (fun j' => ((w.atNode c compiles toVec j action).chat j').log) =
      Function.update (fun j' => (w.chat j').log) j
        ((w.chat j).step c compiles toVec action).log := by
  funext j'
  rcases eq_or_ne j' j with rfl | hne
  · simp [World.atNode]
  · simp [World.atNode, hne]

theorem log_atNode_apply (j j' : ι) (action : ChatFollowing.Action) :
    ((w.atNode c compiles toVec j action).chat j').log =
      Function.update (fun j' => (w.chat j').log) j
        ((w.chat j).step c compiles toVec action).log j' :=
  congrFun (log_atNode compiles j action) j'

/-- A property of every node, after one of them has moved. -/
theorem forall_atNode {P : ChatFollowing.World → Prop} (h : ∀ j, P (w.chat j)) {j : ι}
    {action : ChatFollowing.Action} (hj : P ((w.chat j).step c compiles toVec action)) (j' : ι) :
    P ((w.atNode c compiles toVec j action).chat j') := by
  rcases eq_or_ne j' j with rfl | hne
  · simpa [World.atNode] using hj
  · simpa [World.atNode, hne] using h j'

variable (hsigns : ∀ i, Signs c (party i)) (htoVec : StandardEncoder toVec)

include hsigns htoVec

/-- Step lemma. -/
theorem kept_step {action : Action ι} (hpossible : Possible party c toVec w action)
    (h : Kept party w) : Kept party (w.step party c compiles toVec action) := by
  cases action with
  | send line =>
    obtain ⟨hsome, hshort, hnew, hunused⟩ := hpossible
    refine ⟨h.chat, ?_, h.accounts.send hnew hunused⟩
    intro line' hline'
    rcases List.mem_append.mp hline' with hline' | hline'
    · exact h.lines line' hline'
    · exact List.mem_singleton.mp hline' ▸ ⟨hsome, hshort⟩
  | arrive j addr now k =>
    cases hk : w.sent[k]? with
    | none => simpa only [World.step, hk] using h
    | some line =>
      have hline := h.lines line (List.mem_of_getElem? hk)
      have hone : ChatFollowing.Possible c toVec (w.chat j)
          (.event (line.event party c addr now)) := possible_event hsigns hline hpossible
      simp only [World.step, hk]
      refine ⟨?_, h.lines, ?_⟩
      · exact forall_atNode compiles h.chat (invariant_step c compiles htoVec hone (h.chat j))
      · have haccounts := h.accounts.arrive hk j now
        rw [← log_event compiles hsigns hline j addr now, ← log_atNode] at haccounts
        exact haccounts
  | other j action =>
    obtain ⟨hone, hunused⟩ := hpossible
    refine ⟨?_, h.lines, ?_⟩
    · exact forall_atNode compiles h.chat (invariant_step c compiles htoVec hone (h.chat j))
    · simp only [World.step]
      rw [log_atNode]
      cases action with
      | poll mem =>
        have hsame : ((w.chat j).step c compiles toVec (.poll mem)).log = (w.chat j).log := rfl
        rw [hsame, Function.update_eq_self]
        exact h.accounts
      | event event =>
        rcases logStep_cases c (w.chat j).node (w.chat j).log event with hsame | ⟨p, hp, hgrown⟩
        · have hlog : ((w.chat j).step c compiles toVec (.event event)).log = (w.chat j).log :=
            hsame
          rw [hlog, Function.update_eq_self]
          exact h.accounts
        · have hlog : ((w.chat j).step c compiles toVec (.event event)).log =
              (w.chat j).log ++ [p] := hgrown
          rw [hlog]
          exact h.accounts.other (hunused event rfl p hp) j

omit htoVec in
/-- A step keeps the lines from being recorded twice exactly when a further copy comes
while the id is remembered. -/
theorem atMostOnce_step_iff {action : Action ι} (hpossible : Possible party c toVec w action)
    (h : Kept party w) (honce : AtMostOnce party w) :
    AtMostOnce party (w.step party c compiles toVec action) ↔ Remembered party w action := by
  cases action with
  | send line =>
    refine iff_of_true ?_ trivial
    intro j line' hline'
    rcases List.mem_append.mp hline' with hline' | hline'
    · exact honce j line' hline'
    · rw [List.mem_singleton.mp hline']
      exact onceIn_of_absent (hpossible.2.2.2 j)
  | arrive j addr now k =>
    cases hk : w.sent[k]? with
    | none =>
      simp only [World.step, Remembered, hk]
      exact iff_of_true honce nofun
    | some line =>
      have hline := List.mem_of_getElem? hk
      have hafter : AtMostOnce party (w.step party c compiles toVec (.arrive j addr now k)) ↔
          ∀ line' ∈ w.sent, OnceIn (accept Push.key seenWindow (w.chat j).log
            (line.push party now)) (line'.key party) := by
        simp only [World.step, hk]
        constructor
        · intro hall line' hline'
          have hj := hall j line' hline'
          rw [log_atNode_apply, Function.update_self,
            log_event compiles hsigns (h.lines line hline)] at hj
          exact hj
        · intro hj j' line' hline'
          rw [log_atNode_apply, log_event compiles hsigns (h.lines line hline)]
          rcases eq_or_ne j' j with rfl | hne
          · rw [Function.update_self]
            exact hj line' hline'
          · rw [Function.update_of_ne hne]
            exact honce j' line' hline'
      rw [hafter, Remembered]
      by_cases hrepeat : Repeats (w.chat j).log (line.push party now)
      · refine iff_of_true ?_ ?_
        · rw [accept, if_pos hrepeat]
          exact honce j
        · intro _ line' hk'
          rw [← Option.some.inj (hk.symm.trans hk')]
          exact hrepeat
      · rw [accept, if_neg hrepeat]
        have harrived := h.accounts.arrived_iff j k line hk
        constructor
        · intro hall hmem
          obtain ⟨p, hp, hkey⟩ := harrived.mp hmem
          have hnew := (onceIn_append_iff _ (honce j line hline)).mp (hall line hline)
          exact absurd hkey (hnew (push_key party now) p hp)
        · intro hremembered line' hline'
          refine (onceIn_append_iff _ (honce j line' hline')).mpr ?_
          intro hkey p hp hpkey
          rw [push_key] at hkey
          rw [← hkey] at hpkey
          exact hrepeat (hremembered (harrived.mpr ⟨p, hp, hpkey⟩) line hk)
  | other j action =>
    refine iff_of_true ?_ trivial
    intro j' line hline
    simp only [World.step]
    rw [log_atNode_apply]
    rcases eq_or_ne j' j with rfl | hne
    · rw [Function.update_self]
      cases action with
      | poll mem => exact honce j' line hline
      | event event =>
        rcases logStep_cases c (w.chat j').node (w.chat j').log event with hsame | ⟨p, hp, hgrown⟩
        · have hlog : ((w.chat j').step c compiles toVec (.event event)).log = (w.chat j').log :=
            hsame
          rw [hlog]
          exact honce j' line hline
        · have hlog : ((w.chat j').step c compiles toVec (.event event)).log =
              (w.chat j').log ++ [p] := hgrown
          rw [hlog]
          exact (onceIn_append_iff p (honce j' line hline)).mpr fun hkey =>
            absurd hkey (hpossible.2 event rfl p hp line hline)
    · rw [Function.update_of_ne hne]
      exact honce j' line hline

theorem upToDate_step {action : Action ι} (hpossible : Possible party c toVec w action)
    (hintime : InTime toVec w action) (h : UpToDate party w) :
    UpToDate party (w.step party c compiles toVec action) := by
  obtain ⟨hkept, hnone⟩ := h
  refine ⟨kept_step compiles hsigns htoVec hpossible hkept, ?_⟩
  cases action with
  | send line => exact hnone
  | arrive j addr now k =>
    cases hk : w.sent[k]? with
    | none => simpa only [World.step, hk] using hnone
    | some line =>
      have hone : ChatFollowing.Possible c toVec (w.chat j)
          (.event (line.event party c addr now)) :=
        possible_event hsigns (hkept.lines line (List.mem_of_getElem? hk)) hpossible
      simp only [World.step, hk]
      exact forall_atNode compiles hnone
        ((noneMissed_step_iff c compiles htoVec hone (hkept.chat j) (hnone j)).mpr trivial)
  | other j action =>
    exact forall_atNode compiles hnone
      ((noneMissed_step_iff c compiles htoVec hpossible.1 (hkept.chat j) (hnone j)).mpr hintime)

end Runs

/-- Primitives that accept what was signed with them. -/
def honestCrypto : Crypto where
  sha256 m := 0 :: m
  verifyingKey signingKey := signingKey
  sign _ m := (m ++ List.replicate 64 0).take 64
  isVerifyingKey _ := true
  verify _ m signature := signature == (m ++ List.replicate 64 0).take 64

def alice : Party := ⟨idealIdentity "alice" aliceKey 1760000000, aliceKey⟩

theorem signs_alice : Signs honestCrypto alice where
  self_signed := by decide +kernel
  signature_length := by simp [honestCrypto]
  verifies := by simp [honestCrypto]
  fits := by
    refine ⟨?_, trivial, trivial, ?_, ?_, ?_⟩
    all_goals
      change List.length _ < 2 ^ 64
      decide

/-- The same person sits at two screens. -/
def hiLine : Line Bool := ⟨true, .chat, [0x68, 0x69], Vector.replicate 16 7⟩

abbrev hiStep : World Bool → Action Bool → World Bool :=
  World.step (fun _ => alice) honestCrypto (fun _ => false) fun v => some (encode v)

/-- The line is sent and reaches the other screen twice. -/
def hiTwice : List (Action Bool) :=
  [.send hiLine, .arrive false (.v4 1 2240) 1 0, .arrive false (.v4 1 2240) 2 0]

/-- What the program there is then answered. -/
def hiAnswer : Bytes :=
  ((hiTwice.foldl hiStep World.start).chat false).reply fun v => some (encode v)

end Weverywhere.ChatDelivery
