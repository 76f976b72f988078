import Weverywhere.FabricWorld

/-!
Who sent the fabric messages a node stores. The payload signature covers the
received id and the payload run together, the identity signature is made by the
same key over bytes of the same kind, and the name travels in the identity alone.
A stored record is therefore genuine exactly when the id has the host's 16 bytes,
the signed bytes are not those of an identity, and the name is the sender's own.
-/
namespace Weverywhere.FabricAuthenticity

open ByteStrings Identity MessageLog Messages Node Runs FabricWorld

variable (c : Crypto) (compiles : Bytes → Bool)

/-- The holder of `key` broadcast `cborData` under `id`. -/
def Sent (w : World) (key id cborData : Bytes) : Prop :=
  ∃ s, (key, s) ∈ w.sends ∧ s.id = id ∧ s.cborData = cborData

/-- The holder of `key` broadcast `cborData` under `id`, with an identity of
that name. -/
def SentAs (w : World) (key id cborData : Bytes) (humanName : String) : Prop :=
  ∃ s, (key, s) ∈ w.sends ∧ s.id = id ∧ s.cborData = cborData ∧ s.source.humanName = humanName

/-- Every record the fabric branch stored under `key` was sent by its holder,
with that id, that payload and that name. -/
def FabricAuthentic (key : Bytes) (w : World) : Prop :=
  ∀ p, (Origin.fabric, p) ∈ w.log → p.fromPubkey = key → SentAs w key p.id p.text p.fromName

/-- The received bytes `id ++ cborData` cannot be taken apart in another way. -/
structure Unambiguous (w : World) (key id cborData : Bytes) (humanName : String) : Prop where
  id_length : id.length = 16
  identity_sent : ∀ name generatedAt validity fmt encodedKey,
    (key, SignCall.signIdentityData name generatedAt validity fmt encodedKey) ∈ w.calls →
      identityBytes name generatedAt validity fmt encodedKey = id ++ cborData →
        Sent w key id cborData
  name_sent : Sent w key id cborData → SentAs w key id cborData humanName

/-- The step does not record an ambiguous fabric message of `key`. -/
def DeliveredUnambiguous (key : Bytes) (w : World) : Action → Prop
  | .node (.datagram _ now (some (.signedFabricMessage source id cborData signature))) =>
      source.encodedPublicKey = key → FabricVerified c source id cborData signature →
        Fresh w.node.messages ⟨source.humanName, key, id, cborData, now⟩ →
          Unambiguous w key id cborData source.humanName
  | _ => True

/-- A verified message was sent as it claims exactly when it is unambiguous. -/
theorem sentAs_iff_unambiguous (hc : CollisionFree c) {honest : Bytes → Prop} {w : World}
    (haccounted : Accounted w) {addr : SocketAddr} {now : UInt64} {source : IdentityData}
    {id cborData signature : Bytes}
    (hallowed : Allowed c honest w
      (.node (.datagram addr now (some (.signedFabricMessage source id cborData signature)))))
    (hhonest : honest source.encodedPublicKey)
    (hver : FabricVerified c source id cborData signature) :
    SentAs w source.encodedPublicKey id cborData source.humanName ↔
      Unambiguous w source.encodedPublicKey id cborData source.humanName := by
  constructor
  · rintro ⟨s, hs, hid, hdata, hname⟩
    exact {
      id_length := by rw [← hid]; exact haccounted.id_length _ s hs
      identity_sent := fun _ _ _ _ _ _ _ => ⟨s, hs, hid, hdata⟩
      name_sent := fun _ => ⟨s, hs, hid, hdata, hname⟩ }
  · intro hunambiguous
    obtain ⟨call, hcall, hashed⟩ := hashed_of_fabricVerified c hc hallowed hhonest hver
    apply hunambiguous.name_sent
    cases call with
    | signIdentityData name generatedAt validity fmt encodedKey =>
      exact hunambiguous.identity_sent _ _ _ _ _ hcall (Option.some.inj hashed)
    | signPayload id' payload =>
      -- both ids have 16 bytes, so the two cuts of the signed bytes agree
      obtain ⟨s, hs, hid, hdata⟩ := haccounted.sent _ _ _ hcall
      have hlength : s.id.length = id.length := by
        rw [haccounted.id_length _ s hs, hunambiguous.id_length]
      have hbytes : s.id ++ s.cborData = id ++ cborData := by
        rw [hid, hdata]
        exact Option.some.inj hashed
      obtain ⟨hsid, hsdata⟩ := List.append_inj hbytes hlength
      exact ⟨s, hs, hsid, hsdata⟩
    | signedAttestation hostname pubkey epochS => simp [SignCall.hashed] at hashed

/-- Sends only add to what was sent. -/
theorem SentAs.mono {w w' : World} (hsends : w.sends ⊆ w'.sends) {key id cborData : Bytes}
    {humanName : String} (h : SentAs w key id cborData humanName) :
    SentAs w' key id cborData humanName := by
  obtain ⟨s, hs, hrest⟩ := h
  exact ⟨s, hsends hs, hrest⟩

/-- A step that stores nothing keeps every record authentic. -/
theorem FabricAuthentic.of_log_eq {key : Bytes} {w w' : World} (h : FabricAuthentic key w)
    (hlog : w'.log = w.log) (hsends : w.sends ⊆ w'.sends) : FabricAuthentic key w' := by
  intro p hp hkey
  rw [hlog] at hp
  exact (h p hp hkey).mono hsends

/-- A step of the node keeps the records authentic exactly when the record it
adds, if any, is. -/
theorem fabricAuthentic_node_iff {key : Bytes} {w : World} (event : Event)
    (h : FabricAuthentic key w) :
    FabricAuthentic key (step c compiles w (.node event)) ↔
      ∀ p, (Origin.fabric, p) ∈ recorded c w.node event → p.fromPubkey = key →
        SentAs w key p.id p.text p.fromName := by
  constructor
  · intro hafter p hp
    exact hafter p (List.mem_append_right _ hp)
  · intro hnew p hp
    rcases List.mem_append.mp hp with hp | hp
    · exact h p hp
    · exact hnew p hp

/-- Step lemma: a step keeps the records of an honest key authentic exactly when
it delivers no ambiguous message. -/
theorem fabricAuthentic_step_iff (hc : CollisionFree c) {honest : Bytes → Prop} {key : Bytes}
    (hhonest : honest key) (w : World) (action : Action) (hallowed : Allowed c honest w action)
    (haccounted : Accounted w) (h : FabricAuthentic key w) :
    FabricAuthentic key (step c compiles w action) ↔ DeliveredUnambiguous c key w action := by
  cases action with
  | signIdentityData signingKey humanName generatedAt validity fmt key' =>
    exact iff_of_true (h.of_log_eq rfl (List.Subset.refl _)) trivial
  | signedAttestation signingKey hostname pubkey epochS =>
    exact iff_of_true (h.of_log_eq rfl (List.Subset.refl _)) trivial
  | messagesSend signingKey source sinkOpen nonce payload =>
    refine iff_of_true ?_ trivial
    simp only [step]
    split_ifs
    · exact h
    · exact h.of_log_eq rfl (List.subset_append_left _ _)
  | executeRequest signingKey programData =>
    exact iff_of_true (h.of_log_eq rfl (List.Subset.refl _)) trivial
  | node event =>
    rw [fabricAuthentic_node_iff c compiles event h]
    simp only [mem_recorded_iff c haccounted.nextSeq_ne_zero]
    cases event with
    | startup name key' => exact iff_of_true (by simp [originOf]) trivial
    | messagesPush pid id text now => exact iff_of_true (by simp [originOf]) trivial
    | datagram addr now received =>
      cases received with
      | none => exact iff_of_true (by simp [pushedBy]) trivial
      | some message =>
        cases message with
        | executeRequest program => exact iff_of_true (by simp [pushedBy]) trivial
        | basicInsecureProgramStdout _ _ => exact iff_of_true (by simp [pushedBy]) trivial
        | basicInsecureProgramExit _ _ => exact iff_of_true (by simp [pushedBy]) trivial
        | basicReturnMap _ _ _ => exact iff_of_true (by simp [pushedBy]) trivial
        | basicReturnList _ _ _ => exact iff_of_true (by simp [pushedBy]) trivial
        | signedFabricMessage source id cborData signature =>
          constructor
          · rintro hrecord rfl hver hfresh
            rw [← sentAs_iff_unambiguous c hc haccounted hallowed hhonest hver]
            exact hrecord ⟨source.humanName, source.encodedPublicKey, id, cborData, now⟩
              ⟨rfl, by simp [pushedBy, hver], hfresh⟩ rfl
          · rintro hdelivered p ⟨-, hpushed, hfresh⟩ rfl
            simp only [pushedBy, Option.ite_none_right_eq_some, Option.some.injEq] at hpushed
            obtain ⟨hver, rfl⟩ := hpushed
            rw [sentAs_iff_unambiguous c hc haccounted hallowed hhonest hver]
            exact hdelivered rfl hver hfresh

/-- Along every run of the fabric, the records stored under an honest key are
authentic in every state exactly when no step delivers an ambiguous message. -/
theorem fabric_authentic_iff (hc : CollisionFree c) {honest : Bytes → Prop} {key : Bytes}
    (hhonest : honest key) {actions : List Action}
    (hallowed : EachStep (step c compiles) (Allowed c honest) start actions) :
    EveryState (step c compiles) (FabricAuthentic key) start actions ↔
      EachStep (step c compiles) (DeliveredUnambiguous c key) start actions :=
  everyState_iff_eachStep (step c compiles)
    (fun w action _ => accounted_step c compiles w action)
    (fun w action => fabricAuthentic_step_iff c compiles hc hhonest w action)
    hallowed accounted_start (by simp [FabricAuthentic, start])

/-- The crypto of the fixtures below: it knows the signatures of one broadcast. -/
abbrev aliceCrypto : Crypto := idealCrypto (aliceIssued aliceNonce.toList)

/-- A broadcast and its delivery, as the sender meant it. -/
def deliveredLine : List Action :=
  aliceBroadcast ++ [.node (.datagram (.v4 1 2240) 1 (some (aliceLine aliceNonce.toList)))]

theorem fabric_authentic_iff_line :
    EveryState (step aliceCrypto fun _ => false) (FabricAuthentic aliceKey) start deliveredLine ↔
      EachStep (step aliceCrypto fun _ => false) (DeliveredUnambiguous aliceCrypto aliceKey)
        start deliveredLine :=
  fabric_authentic_iff aliceCrypto (fun _ => false) (idealCrypto_collisionFree _)
    (Eq.refl aliceKey)
    ⟨trivial, trivial, allowed_ideal (by decide) (fun key => aliceKey = key) _, trivial⟩

/-- The same line with the last byte of its id moved into the payload. -/
def recutLine : NetworkMessage :=
  .signedFabricMessage (idealIdentity "alice" aliceKey 1760000000) (List.replicate 15 7)
    [7, 0x81, 0x62, 0x68, 0x69]
    (IdentityData.signPayload (idealCrypto []) aliceKey aliceNonce.toList [0x81, 0x62, 0x68, 0x69])

def deliveredRecut : List Action :=
  aliceBroadcast ++ [.node (.datagram (.v4 1 2240) 1 (some recutLine))]

/-- A message that was never sent is stored under an honest key. -/
theorem recut_line_stored :
    CollisionFree aliceCrypto ∧
    EachStep (step aliceCrypto fun _ => false) (Allowed aliceCrypto fun key => aliceKey = key)
      start deliveredRecut ∧
    AssembledFrom (aliceBroadcast.foldl (step aliceCrypto fun _ => false) start).seen recutLine ∧
    ¬ EveryState (step aliceCrypto fun _ => false) (FabricAuthentic aliceKey) start
      deliveredRecut := by
  refine ⟨idealCrypto_collisionFree _,
    ⟨trivial, trivial, allowed_ideal (by decide) _ _, trivial⟩, ?_, ?_⟩
  · have hseen : (aliceBroadcast.foldl (step aliceCrypto fun _ => false) start).seen =
        [aliceLine aliceNonce.toList] := by decide
    rw [hseen]
    intro field hfield
    rcases List.mem_append.mp hfield with hfield | hfield
    · exact assembled_of_piece (List.mem_singleton_self _) (List.mem_append_left _ hfield)
        List.infix_rfl
    · simp only [List.mem_cons, List.not_mem_nil, or_false] at hfield
      have hid : aliceNonce.toList ∈ (aliceLine aliceNonce.toList).fields := by decide
      have hdata : [0x81, 0x62, 0x68, 0x69] ∈ (aliceLine aliceNonce.toList).fields := by decide
      have hlast : Assembled [aliceLine aliceNonce.toList] [7] :=
        assembled_of_piece (List.mem_singleton_self _) hid (by decide)
      rcases hfield with rfl | rfl | rfl
      · exact assembled_of_piece (List.mem_singleton_self _) hid (by decide)
      · exact hlast.append
          (assembled_of_piece (List.mem_singleton_self _) hdata List.infix_rfl)
      · exact assembled_of_piece (List.mem_singleton_self _) (by decide) List.infix_rfl
  · intro h
    have hrecord : (Origin.fabric, (⟨"alice", aliceKey, List.replicate 15 7,
        [7, 0x81, 0x62, 0x68, 0x69], 1⟩ : Push)) ∈
          (deliveredRecut.foldl (step aliceCrypto fun _ => false) start).log := by
      decide
    obtain ⟨s, hs, hid, -⟩ := h.last _ hrecord rfl
    have hsends : (deliveredRecut.foldl (step aliceCrypto fun _ => false) start).sends =
        [(aliceKey, ⟨idealIdentity "alice" aliceKey 1760000000, aliceNonce.toList,
          [0x81, 0x62, 0x68, 0x69]⟩)] := by
      decide
    rw [hsends, List.mem_singleton, Prod.mk.injEq] at hs
    rw [hs.2] at hid
    exact absurd hid (by decide)

end Weverywhere.FabricAuthenticity
