import Weverywhere.FabricWorld
import Weverywhere.CborItems

/-!
What the payloads of fabric messages are. `host::messages_send` looks at the
first byte of a payload only, the receive loop at none of it; the wire type
promises a CBOR list or map. The promise holds along a run exactly when every
guest and every remote sender keeps it.
-/
namespace Weverywhere.FabricPayloads

open ByteStrings Identity MessageLog Messages Node Runs FabricWorld CborItems

/-- Exactly one well-formed item, an array or a map. -/
def ListOrMap (payload : Bytes) : Prop :=
  WellFormed payload ∧
    (Executor.payloadMajor payload = some 4 ∨ Executor.payloadMajor payload = some 5)

instance : DecidablePred ListOrMap := fun _ => inferInstanceAs (Decidable (_ ∧ _))

/-- Every payload sent, and every text the fabric branch stored, is a list or map. -/
structure AllListsOrMaps (w : World) : Prop where
  sent : ∀ source id cborData signature,
    NetworkMessage.signedFabricMessage source id cborData signature ∈ w.seen → ListOrMap cborData
  stored : ∀ push, (Origin.fabric, push) ∈ w.log → ListOrMap push.text

variable (c : Crypto) (compiles : Bytes → Bool)

/-- The condition on a step: a payload that gets sent is one well-formed item, and
a message that gets stored carries a list or map. -/
def PayloadChecked (w : World) : Action → Prop
  | .messagesSend _ _ sinkOpen _ payload => sinkOpen = true →
      Executor.payloadMajor payload = some 4 ∨ Executor.payloadMajor payload = some 5 →
        WellFormed payload
  | .node (.datagram _ now (some (.signedFabricMessage source id cborData signature))) =>
      FabricVerified c source id cborData signature →
        Fresh w.node.messages ⟨source.humanName, source.encodedPublicKey, id, cborData, now⟩ →
          ListOrMap cborData
  | _ => True

theorem allListsOrMaps_start : AllListsOrMaps start where
  sent := by simp [start]
  stored := by simp [start]

/-- A send puts on the wire what `host::messages_send` hands over. -/
theorem messagesSend_seen (w : World) (signingKey : Bytes) (source : IdentityData)
    (sinkOpen : Bool) (nonce : Vector UInt8 16) (payload : Bytes) :
    (step c compiles w (.messagesSend signingKey source sinkOpen nonce payload)).seen =
      w.seen ++ (Executor.messagesSend c (some source) (some signingKey) (some sinkOpen) nonce
        payload).2.toList := by
  simp only [step]
  split_ifs with hrefused
  · have hnothing : (Executor.messagesSend c (some source) (some signingKey) (some sinkOpen) nonce
        payload).2 = none := by
      unfold Executor.messagesSend at hrefused ⊢
      split_ifs at hrefused ⊢
      · rfl
      · cases sinkOpen <;> simp at hrefused
    rw [hnothing, Option.toList_none, List.append_nil]
  · rfl

theorem messagesSend_log (w : World) (signingKey : Bytes) (source : IdentityData)
    (sinkOpen : Bool) (nonce : Vector UInt8 16) (payload : Bytes) :
    (step c compiles w (.messagesSend signingKey source sinkOpen nonce payload)).log = w.log := by
  simp only [step]
  split_ifs <;> rfl

theorem messagesSend_iff (w : World) (h : AllListsOrMaps w) (signingKey : Bytes)
    (source : IdentityData) (sinkOpen : Bool) (nonce : Vector UInt8 16) (payload : Bytes) :
    AllListsOrMaps (step c compiles w (.messagesSend signingKey source sinkOpen nonce payload)) ↔
      PayloadChecked c w (.messagesSend signingKey source sinkOpen nonce payload) := by
  have hseen := messagesSend_seen c compiles w signingKey source sinkOpen nonce payload
  have hlog := messagesSend_log c compiles w signingKey source sinkOpen nonce payload
  constructor
  · intro hafter hopen hmajor
    have hsent := (Executor.messagesSend_eq_some_iff c (some source) (some signingKey)
      (some sinkOpen) nonce payload _).mpr
        ⟨hmajor, by rw [hopen], source, signingKey, rfl, rfl, rfl⟩
    refine (hafter.sent source nonce.toList payload
      (IdentityData.signPayload c signingKey nonce.toList payload) ?_).1
    rw [hseen, hsent]
    exact List.mem_append_right _ (List.mem_singleton_self _)
  · intro hchecked
    refine ⟨?_, by rw [hlog]; exact h.stored⟩
    intro source' id cborData signature hmem
    rw [hseen] at hmem
    rcases List.mem_append.mp hmem with hmem | hmem
    · exact h.sent source' id cborData signature hmem
    · obtain ⟨hmajor, hopen, _, _, -, -, hmessage⟩ :=
        (Executor.messagesSend_eq_some_iff c _ _ _ nonce payload _).mp (Option.mem_toList.mp hmem)
      obtain ⟨-, -, rfl, -⟩ := NetworkMessage.signedFabricMessage.inj hmessage
      exact ⟨hchecked (Option.some.inj hopen) hmajor, hmajor⟩

theorem node_iff (w : World) (hseq : w.node.messages.nextSeq ≠ 0) (h : AllListsOrMaps w)
    (event : Event) :
    AllListsOrMaps (step c compiles w (.node event)) ↔ PayloadChecked c w (.node event) := by
  have hnew : AllListsOrMaps (step c compiles w (.node event)) ↔
      ∀ push, (Origin.fabric, push) ∈ recorded c w.node event → ListOrMap push.text := by
    constructor
    · intro hafter push hmem
      exact hafter.stored push (List.mem_append_right _ hmem)
    · intro hrecorded
      refine ⟨h.sent, fun push hmem => ?_⟩
      rcases List.mem_append.mp hmem with hmem | hmem
      · exact h.stored push hmem
      · exact hrecorded push hmem
  rw [hnew]
  simp only [mem_recorded_iff c hseq]
  cases event with
  | startup name key => exact iff_of_true (by simp [originOf]) trivial
  | messagesPush pid id text now => exact iff_of_true (by simp [originOf]) trivial
  | datagram addr now received =>
    cases received with
    | none => exact iff_of_true (by simp [pushedBy]) trivial
    | some message =>
      cases message with
      | executeRequest program => exact iff_of_true (by simp [pushedBy]) trivial
      | basicInsecureProgramStdout _ _ => exact iff_of_true (by simp [pushedBy]) trivial
      | basicInsecureProgramExit _ _ => exact iff_of_true (by simp [pushedBy]) trivial
      | basicReturnMap _ _ _ => exact iff_of_true (by simp [pushedBy]) trivial
      | basicReturnList _ _ _ => exact iff_of_true (by simp [pushedBy]) trivial
      | signedFabricMessage source id cborData signature =>
        constructor
        · intro hrecorded hver hfresh
          exact hrecorded ⟨source.humanName, source.encodedPublicKey, id, cborData, now⟩
            ⟨rfl, by simp only [pushedBy, hver, if_true], hfresh⟩
        · rintro hchecked push ⟨-, hpushed, hfresh⟩
          simp only [pushedBy, Option.ite_none_right_eq_some, Option.some.injEq] at hpushed
          obtain ⟨hver, rfl⟩ := hpushed
          exact hchecked hver hfresh

theorem allListsOrMaps_step_iff (w : World) (action : Action) (haccounted : Accounted w)
    (h : AllListsOrMaps w) :
    AllListsOrMaps (step c compiles w action) ↔ PayloadChecked c w action := by
  cases action with
  | signIdentityData signingKey humanName generatedAt validity fmt key =>
    exact iff_of_true ⟨h.sent, h.stored⟩ trivial
  | signedAttestation signingKey hostname pubkey epochS =>
    exact iff_of_true ⟨h.sent, h.stored⟩ trivial
  | messagesSend signingKey source sinkOpen nonce payload =>
    exact messagesSend_iff c compiles w h signingKey source sinkOpen nonce payload
  | executeRequest signingKey programData =>
    refine iff_of_true ⟨?_, h.stored⟩ trivial
    intro source id cborData signature hmem
    rcases List.mem_append.mp hmem with hmem | hmem
    · exact h.sent source id cborData signature hmem
    · cases List.mem_singleton.mp hmem
  | node event => exact node_iff c compiles w haccounted.nextSeq_ne_zero h event

/-- Along every run, whatever guests pass and remote senders sign, all payloads
sent and stored are lists or maps exactly when no step sends or stores one that
is not. -/
theorem all_lists_or_maps_iff (actions : List Action) :
    EveryState (step c compiles) AllListsOrMaps start actions ↔
      EachStep (step c compiles) (PayloadChecked c) start actions :=
  everyState_iff_eachStep_of_inv (step c compiles) (accounted_step c compiles)
    (allListsOrMaps_step_iff c compiles) accounted_start allListsOrMaps_start actions

/-! A guest that sends the first byte of an array, and a sender that signs a text. -/

/-- An array of indefinite length that never ends. -/
def cutArray : Action :=
  .messagesSend aliceKey (idealIdentity "alice" aliceKey 1760000000) true aliceNonce [0x9F]

/-- The text "hi" outside any list. -/
def bareText : Bytes := [0x62, 0x68, 0x69]

def bareLine : NetworkMessage :=
  .signedFabricMessage (idealIdentity "alice" aliceKey 1760000000) aliceNonce.toList bareText
    (IdentityData.signPayload (idealCrypto []) aliceKey aliceNonce.toList bareText)

/-- The sender's signatures on its identity and on that text are on record. -/
def bareCrypto : Crypto := idealCrypto
  [(aliceKey, (idealCrypto []).sha256 (idealIdentity "alice" aliceKey 1760000000).signedBytes),
    (aliceKey, (idealCrypto []).sha256 (aliceNonce.toList ++ bareText))]

theorem cut_array_sent_bare_text_stored :
    ¬ EveryState (step bareCrypto fun _ => false) AllListsOrMaps start [cutArray] ∧
      ¬ EveryState (step bareCrypto fun _ => false) AllListsOrMaps start
        [.node (.datagram (.v4 1 2240) 1 (some bareLine))] := by
  constructor
  · intro h
    have hsent : NetworkMessage.signedFabricMessage (idealIdentity "alice" aliceKey 1760000000)
        aliceNonce.toList [0x9F]
        (IdentityData.signPayload bareCrypto aliceKey aliceNonce.toList [0x9F]) ∈
        ([cutArray].foldl (step bareCrypto fun _ => false) start).seen := by
      decide +kernel
    exact absurd (h.last.sent _ _ _ _ hsent) (by decide +kernel)
  · intro h
    have hstored : (Origin.fabric, (⟨"alice", aliceKey, aliceNonce.toList, bareText, 1⟩ : Push)) ∈
        ([Action.node (.datagram (.v4 1 2240) 1 (some bareLine))].foldl
          (step bareCrypto fun _ => false) start).log := by
      decide +kernel
    exact absurd (h.last.stored _ hstored) (by decide +kernel)

end Weverywhere.FabricPayloads
