import Weverywhere.Node
import Weverywhere.Runs

/-!
A serve node on a hostile fabric. Key holders sign through the calls the program
offers them and put datagrams on the wire; the node receives whatever anyone
delivers. Ideal ed25519 is a guard on deliveries: a signature that verifies under
an honest key was made by that key's holder, for the very bytes it verifies for.
-/
namespace Weverywhere.FabricWorld

open ByteStrings Identity MessageLog Messages Node Runs

/-- A `host::messages_send` that got as far as signing. -/
structure Send where
  source : IdentityData
  id : Bytes
  cborData : Bytes
  deriving DecidableEq

/-- The code that stored a record: the fabric branch of the receive loop, or
`host::messages_push` called by a running program. -/
inductive Origin
  | fabric
  | program (caller : RunningProgram)
  deriving DecidableEq

/-- `calls`, `sends` and `issued` list what each public key was used for, `seen`
what went over the wire, `log` the records the node stored. -/
structure World where
  calls : List (Bytes × SignCall)
  sends : List (Bytes × Send)
  issued : List (Bytes × ProgramData)
  seen : List NetworkMessage
  node : Executor
  log : List (Origin × Push)

inductive Action
  | signIdentityData (signingKey : Bytes) (humanName : String) (generatedAt : UInt64)
      (validity : UInt16) (fmt : String) (key : Bytes)
  | signedAttestation (signingKey : Bytes) (hostname : String) (pubkey : Bytes) (epochS : UInt64)
  | messagesSend (signingKey : Bytes) (source : IdentityData) (sinkOpen : Bool)
      (nonce : Vector UInt8 16) (payload : Bytes)
  | executeRequest (signingKey : Bytes) (programData : ProgramData)
  | node (event : Event)

def start : World where
  calls := []
  sends := []
  issued := []
  seen := []
  node := Executor.new
  log := []

def originOf (e : Executor) : Event → Option Origin
  | .startup _ _ => none
  | .datagram _ _ _ => some .fabric
  | .messagesPush pid _ _ _ => e.programs[pid]?.map Origin.program

/-- The record an event adds to the log: none when `push` reported a duplicate. -/
def recorded (c : Crypto) (e : Executor) (event : Event) : List (Origin × Push) :=
  match originOf e event, pushedBy c e event with
  | some origin, some p => if (e.messages.pushOf p).2 = 0 then [] else [(origin, p)]
  | _, _ => []

variable (c : Crypto) (compiles : Bytes → Bool)

/-- A send whose sink is closed has already signed; one with a payload that is
neither a list nor a map has not. -/
def step (w : World) : Action → World
  | .signIdentityData signingKey humanName generatedAt validity fmt key =>
      { w with calls := w.calls ++ [(c.verifyingKey signingKey,
          .signIdentityData humanName generatedAt validity fmt key)] }
  | .signedAttestation signingKey hostname pubkey epochS =>
      { w with calls := w.calls ++ [(c.verifyingKey signingKey,
          .signedAttestation hostname pubkey epochS)] }
  | .messagesSend signingKey source sinkOpen nonce payload =>
      let (code, sent) :=
        Executor.messagesSend c (some source) (some signingKey) (some sinkOpen) nonce payload
      if code = -2 then w
      else
        { w with
          calls := w.calls ++ [(c.verifyingKey signingKey, .signPayload nonce.toList payload)]
          sends := w.sends ++ [(c.verifyingKey signingKey, ⟨source, nonce.toList, payload⟩)]
          seen := w.seen ++ sent.toList }
  | .executeRequest signingKey programData =>
      { w with
        issued := w.issued ++ [(c.verifyingKey signingKey, programData)]
        seen := w.seen ++ [.executeRequest programData] }
  | .node event =>
      { w with
        node := w.node.step c compiles event
        log := w.log ++ recorded c w.node event }

/-- Ideal ed25519 for the honest keys; deliveries are otherwise unrestricted. -/
def Allowed (honest : Bytes → Prop) (w : World) : Action → Prop
  | .node (.datagram _ _ (some message)) =>
      ∀ key, honest key → ∀ signature ∈ message.signatures, ∀ m,
        c.verify key m signature = true → ∃ call, (key, call) ∈ w.calls ∧ call.message c = m
  | _ => True

/-- With the ideal primitives a delivery is allowed once the holders' calls cover
everything on record. -/
theorem allowed_ideal {issued : List (Bytes × Bytes)} {w : World}
    (hissued : ∀ entry ∈ issued,
      entry ∈ w.calls.map fun kc => (kc.1, kc.2.message (idealCrypto issued)))
    (honest : Bytes → Prop) (action : Action) : Allowed (idealCrypto issued) honest w action := by
  unfold Allowed
  split
  · intro key _ signature _ m hverify
    simp only [idealCrypto, Bool.and_eq_true, decide_eq_true_eq] at hverify
    obtain ⟨kc, hmem, heq⟩ := List.mem_map.mp (hissued _ hverify.1)
    obtain ⟨hkey, hmessage⟩ := Prod.mk.inj heq
    exact ⟨kc.2, by rw [← hkey]; exact hmem, hmessage⟩
  · trivial

/-- A push the store will not drop as a duplicate. -/
def Fresh (s : MessageStore) (p : Push) : Prop := p.id = [] ∨ p.fromPubkey ++ p.id ∉ s.seen

instance (s : MessageStore) (p : Push) : Decidable (Fresh s p) :=
  inferInstanceAs (Decidable (_ ∨ _))

theorem pushOf_ne_zero_iff {s : MessageStore} (hseq : s.nextSeq ≠ 0) (p : Push) :
    (s.pushOf p).2 ≠ 0 ↔ Fresh s p := by
  unfold MessageStore.pushOf MessageStore.push Fresh
  by_cases hid : p.id = []
  · simpa [hid, MessageStore.append] using hseq
  · by_cases hseen : p.fromPubkey ++ p.id ∈ s.seen
    · simp [hid, hseen, List.isEmpty_iff]
    · simpa [hid, hseen, List.isEmpty_iff, MessageStore.append] using hseq

theorem pushOf_nextSeq_le (s : MessageStore) (p : Push) :
    s.nextSeq ≤ (s.pushOf p).1.nextSeq := by
  unfold MessageStore.pushOf MessageStore.push
  by_cases hid : p.id = []
  · simp [hid, MessageStore.append]
  · by_cases hseen : p.fromPubkey ++ p.id ∈ s.seen
    · simp [hid, hseen, List.isEmpty_iff]
    · simp [hid, hseen, List.isEmpty_iff, MessageStore.append]

/-- What an event records is the push it performs, unless that is a duplicate. -/
theorem mem_recorded_iff {e : Executor} (hseq : e.messages.nextSeq ≠ 0) (event : Event)
    (origin : Origin) (p : Push) :
    (origin, p) ∈ recorded c e event ↔
      originOf e event = some origin ∧ pushedBy c e event = some p ∧ Fresh e.messages p := by
  unfold recorded
  cases horigin : originOf e event with
  | none => simp
  | some origin' =>
    cases hpushed : pushedBy c e event with
    | none => simp
    | some p' =>
      by_cases hzero : (e.messages.pushOf p').2 = 0
      · have hdup : ¬ Fresh e.messages p' := fun h => (pushOf_ne_zero_iff hseq p').mpr h hzero
        simp only [hzero, if_true, List.not_mem_nil, Option.some.injEq, false_iff]
        rintro ⟨-, rfl, hfresh⟩
        exact hdup hfresh
      · have hfresh := (pushOf_ne_zero_iff hseq p').mp hzero
        simp only [hzero, if_false, List.mem_singleton, Prod.mk.injEq, Option.some.injEq]
        constructor
        · rintro ⟨rfl, rfl⟩
          exact ⟨rfl, rfl, hfresh⟩
        · rintro ⟨rfl, rfl, -⟩
          exact ⟨rfl, rfl⟩

/-- Every payload signature was made by a send, under the 16 bytes the host
drew for it. -/
structure Accounted (w : World) : Prop where
  sent : ∀ key id payload, (key, SignCall.signPayload id payload) ∈ w.calls →
    ∃ s, (key, s) ∈ w.sends ∧ s.id = id ∧ s.cborData = payload
  id_length : ∀ key s, (key, s) ∈ w.sends → s.id.length = 16
  nextSeq_ne_zero : w.node.messages.nextSeq ≠ 0

theorem accounted_start : Accounted start where
  sent := by simp [start]
  id_length := by simp [start]
  nextSeq_ne_zero := by simp [start, Executor.new, MessageStore.new]

/-- Signing something that is not a payload keeps the account. -/
theorem Accounted.signed {w : World} (h : Accounted w) (key : Bytes) (call : SignCall)
    (hcall : ∀ id payload, call ≠ .signPayload id payload) :
    Accounted { w with calls := w.calls ++ [(key, call)] } where
  sent := by
    intro key' id payload hmem
    rcases List.mem_append.mp hmem with hmem | hmem
    · exact h.sent key' id payload hmem
    · rw [List.mem_singleton, Prod.mk.injEq] at hmem
      exact absurd hmem.2.symm (hcall id payload)
  id_length := h.id_length
  nextSeq_ne_zero := h.nextSeq_ne_zero

theorem accounted_step (w : World) (action : Action) (h : Accounted w) :
    Accounted (step c compiles w action) := by
  cases action with
  | signIdentityData signingKey humanName generatedAt validity fmt key =>
    exact h.signed _ _ (by simp)
  | signedAttestation signingKey hostname pubkey epochS =>
    exact h.signed _ _ (by simp)
  | messagesSend signingKey source sinkOpen nonce payload =>
    simp only [step]
    split_ifs
    · exact h
    · exact {
        sent := by
          intro key id payload' hmem
          rcases List.mem_append.mp hmem with hmem | hmem
          · obtain ⟨s, hs, hid, hdata⟩ := h.sent key id payload' hmem
            exact ⟨s, List.mem_append_left _ hs, hid, hdata⟩
          · rw [List.mem_singleton, Prod.mk.injEq, SignCall.signPayload.injEq] at hmem
            obtain ⟨rfl, rfl, rfl⟩ := hmem
            exact ⟨_, List.mem_append_right _ (List.mem_singleton_self _), rfl, rfl⟩
        id_length := by
          intro key s hmem
          rcases List.mem_append.mp hmem with hmem | hmem
          · exact h.id_length key s hmem
          · rw [List.mem_singleton, Prod.mk.injEq] at hmem
            rw [hmem.2]
            simp
        nextSeq_ne_zero := h.nextSeq_ne_zero }
  | executeRequest signingKey programData => exact ⟨h.sent, h.id_length, h.nextSeq_ne_zero⟩
  | node event =>
    refine ⟨h.sent, h.id_length, ?_⟩
    have hseq := h.nextSeq_ne_zero
    simp only [step]
    rw [step_messages]
    cases pushedBy c w.node event with
    | none => exact hseq
    | some p =>
      have hle := pushOf_nextSeq_le w.node.messages p
      simp only
      omega

/-- A verified fabric message of an honest key shows bytes its holder hashed. -/
theorem hashed_of_fabricVerified (hc : CollisionFree c) {honest : Bytes → Prop} {w : World}
    {addr : SocketAddr} {now : UInt64} {source : IdentityData} {id cborData signature : Bytes}
    (hallowed : Allowed c honest w
      (.node (.datagram addr now (some (.signedFabricMessage source id cborData signature)))))
    (hhonest : honest source.encodedPublicKey)
    (hver : FabricVerified c source id cborData signature) :
    ∃ call, (source.encodedPublicKey, call) ∈ w.calls ∧ call.hashed = some (id ++ cborData) := by
  have hsignature : signature ∈
      (NetworkMessage.signedFabricMessage source id cborData signature).signatures := by
    simp [NetworkMessage.signatures]
  obtain ⟨call, hmem, hmessage⟩ := hallowed _ hhonest signature hsignature _
    (IdentityData.verifyPayload_verifies hver.2)
  exact ⟨call, hmem, SignCall.hashed_of_message hc hmessage⟩

/-- The sender of the chat line makes an identity and broadcasts the line. -/
def aliceNonce : Vector UInt8 16 := Vector.replicate 16 7

def aliceBroadcast : List Action :=
  [.signIdentityData aliceKey "alice" 1760000000 0xFFFF "ed25519" aliceKey,
    .messagesSend aliceKey (idealIdentity "alice" aliceKey 1760000000) true aliceNonce
      [0x81, 0x62, 0x68, 0x69]]

end Weverywhere.FabricWorld
