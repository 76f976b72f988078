import Weverywhere.RowProvenance

/-!
What an attestation that verifies under an honest node's key says. The key also
signs the digests of identities and of payloads. A digest is shorter than any
attested text, and an attested text ends in a key and a clock of fixed width, so
it determines its hostname although that may contain any character.
-/
namespace Weverywhere.NodeAttestations

open ByteStrings Attestation Identity NetworkMap

/-- Hostname, key and clock are read off the attested bytes, for keys of the
length that verification insists on. -/
theorem attestationSigningBytes_eq_iff {hostname hostname' : String} {pubkey pubkey' : Bytes}
    {epochS epochS' : UInt64} (hpubkey : pubkey.length = 32) (hpubkey' : pubkey'.length = 32) :
    attestationSigningBytes hostname pubkey epochS =
        attestationSigningBytes hostname' pubkey' epochS' ↔
      hostname = hostname' ∧ pubkey = pubkey' ∧ epochS = epochS' := by
  constructor
  · intro h
    unfold attestationSigningBytes at h
    obtain ⟨h, hepoch⟩ := List.append_inj' h (by simp)
    obtain ⟨h, -⟩ := List.append_inj' h rfl
    obtain ⟨h, hkey⟩ := List.append_inj' h (by rw [hpubkey, hpubkey'])
    obtain ⟨h, -⟩ := List.append_inj' h rfl
    have hhostname := List.append_cancel_left h
    exact ⟨utf8_injective hhostname, hkey, u64LE_injective hepoch⟩
  · rintro ⟨rfl, rfl, rfl⟩
    rfl

/-- The holder of `signingKey` after the uses `calls` of it, with ideal ed25519:
what was signed verifies, nothing else does, and a signature is of one message. -/
structure HonestSigner (c : Crypto) (signingKey : Bytes) (calls : List SignCall) : Prop where
  /-- A digest of SHA-256. -/
  sha256_length : ∀ m, (c.sha256 m).length = 32
  /-- `VerifyingKey::to_bytes`. -/
  key_length : (c.verifyingKey signingKey).length = 32
  key_accepted : c.isVerifyingKey (c.verifyingKey signingKey) = true
  signature_length : ∀ m, (c.sign signingKey m).length = 64
  verifies : ∀ call ∈ calls,
    c.verify (c.verifyingKey signingKey) (call.message c)
      (c.sign signingKey (call.message c)) = true
  unforgeable : ∀ m signature, c.verify (c.verifyingKey signingKey) m signature = true →
    ∃ call ∈ calls, call.message c = m
  binding : ∀ m m' signature, c.verify (c.verifyingKey signingKey) m signature = true →
    c.verify (c.verifyingKey signingKey) m' signature = true → m = m'
  /-- `host::signed_attestation` attests the key of an identity. -/
  attested_key : ∀ hostname pubkey epochS, .signedAttestation hostname pubkey epochS ∈ calls →
    pubkey.length = 32

section HonestSigner

variable {fromSlice : Bytes → Option Value} {c : Crypto} {signingKey : Bytes}
  {calls : List SignCall}

/-- A call that hashed what it signed signed no attestation. -/
theorem HonestSigner.message_ne_attestation (h : HonestSigner c signingKey calls)
    {call : SignCall} {m : Bytes} (hhashed : call.hashed = some m) (hostname : String)
    (pubkey : Bytes) (epochS : UInt64) :
    call.message c ≠ attestationSigningBytes hostname pubkey epochS := by
  intro hsame
  have hlong := attestationSigningBytes_length hostname pubkey epochS
  rw [← hsame, SignCall.message_of_hashed hhashed, h.sha256_length] at hlong
  omega

/-- Only an attestation of the same three fields signs their bytes. -/
theorem HonestSigner.attested_of_message (h : HonestSigner c signingKey calls) {call : SignCall}
    (hcall : call ∈ calls) {hostname : String} {pubkey : Bytes} {epochS : UInt64}
    (hpubkey : pubkey.length = 32)
    (hmessage : call.message c = attestationSigningBytes hostname pubkey epochS) :
    call = .signedAttestation hostname pubkey epochS := by
  cases call with
  | signIdentityData humanName generatedAt validity fmt key =>
    exact absurd hmessage (h.message_ne_attestation rfl hostname pubkey epochS)
  | signPayload id payload =>
    exact absurd hmessage (h.message_ne_attestation rfl hostname pubkey epochS)
  | signedAttestation hostname' pubkey' epochS' =>
    have hlength := h.attested_key hostname' pubkey' epochS' hcall
    obtain ⟨rfl, rfl, rfl⟩ := (attestationSigningBytes_eq_iff hlength hpubkey).mp hmessage
    rfl

theorem HonestSigner.attested_of_verified (h : HonestSigner c signingKey calls) {bytes : Bytes}
    {vn : VerifiedNode} (hverified : verifyAttestationCbor fromSlice c bytes = .ok vn)
    (hkey : vn.pubkey = c.verifyingKey signingKey) :
    .signedAttestation vn.hostname vn.pubkey vn.epochS ∈ calls := by
  obtain ⟨hlength, signature, -, hverify⟩ := verifyAttestationCbor_eq_ok fromSlice hverified
  have hsigned := hverify
  rw [hkey] at hsigned
  obtain ⟨call, hcall, hmessage⟩ := h.unforgeable _ signature hsigned
  rw [← hkey] at hmessage
  rw [← h.attested_of_message hcall hlength hmessage]
  exact hcall

/-- The signature of a digest does not make an attestation. -/
theorem HonestSigner.digest_signature_refused (h : HonestSigner c signingKey calls)
    {call : SignCall} (hcall : call ∈ calls) {m : Bytes} (hhashed : call.hashed = some m)
    {bytes : Bytes}
    (hsignature : signatureOf fromSlice bytes = some (c.sign signingKey (call.message c)))
    {vn : VerifiedNode} (hverified : verifyAttestationCbor fromSlice c bytes = .ok vn) :
    vn.pubkey ≠ c.verifyingKey signingKey := by
  intro hkey
  obtain ⟨-, signature, hfield, hverify⟩ := verifyAttestationCbor_eq_ok fromSlice hverified
  rw [hsignature] at hfield
  obtain rfl := Option.some.inj hfield
  rw [hkey] at hverify
  have hmessage := h.binding _ _ _ (h.verifies call hcall) hverify
  exact h.message_ne_attestation hhashed _ _ _ hmessage

theorem HonestSigner.verified_of_attested (hread : ReadsMaps fromSlice)
    (h : HonestSigner c signingKey calls) {hostname : String} {epochS : UInt64}
    (hhostname : (utf8 hostname).length < 2 ^ 64)
    (hcall : .signedAttestation hostname (c.verifyingKey signingKey) epochS ∈ calls) :
    verifyAttestationCbor fromSlice c (buildAttestationCbor hostname (c.verifyingKey signingKey)
      epochS (c.sign signingKey
        (attestationSigningBytes hostname (c.verifyingKey signingKey) epochS))) =
      .ok ⟨hostname, c.verifyingKey signingKey, epochS⟩ := by
  apply verifyAttestationCbor_build hread c hhostname
  · rw [h.key_length]
    omega
  · rw [h.signature_length]
    omega
  · rw [verifyDigest_ok_iff]
    exact ⟨h.key_length, h.key_accepted, h.signature_length _, h.verifies _ hcall⟩

end HonestSigner

/-- What a node attests verifies and reads back as it was attested; what verifies
under its key, it attested; what it signed for another purpose does not verify;
and no two attestations share their signed bytes. -/
theorem attestation_verifies_what_was_attested {fromSlice : Bytes → Option Value} {c : Crypto}
    {signingKey : Bytes} {calls : List SignCall} (hread : ReadsMaps fromSlice)
    (h : HonestSigner c signingKey calls) :
    (∀ hostname epochS, (utf8 hostname).length < 2 ^ 64 →
      .signedAttestation hostname (c.verifyingKey signingKey) epochS ∈ calls →
      verifyAttestationCbor fromSlice c (buildAttestationCbor hostname (c.verifyingKey signingKey)
        epochS (c.sign signingKey
          (attestationSigningBytes hostname (c.verifyingKey signingKey) epochS))) =
        .ok ⟨hostname, c.verifyingKey signingKey, epochS⟩) ∧
    (∀ bytes vn, verifyAttestationCbor fromSlice c bytes = .ok vn →
      vn.pubkey = c.verifyingKey signingKey →
      .signedAttestation vn.hostname vn.pubkey vn.epochS ∈ calls) ∧
    (∀ call ∈ calls, call.hashed.isSome → ∀ bytes,
      signatureOf fromSlice bytes = some (c.sign signingKey (call.message c)) →
      ∀ vn, verifyAttestationCbor fromSlice c bytes = .ok vn →
      vn.pubkey ≠ c.verifyingKey signingKey) ∧
    (∀ (hostname hostname' : String) (pubkey pubkey' : Bytes) (epochS epochS' : UInt64),
      pubkey.length = 32 → pubkey'.length = 32 →
      attestationSigningBytes hostname pubkey epochS =
        attestationSigningBytes hostname' pubkey' epochS' →
      hostname = hostname' ∧ pubkey = pubkey' ∧ epochS = epochS') := by
  refine ⟨?_, ?_, ?_, ?_⟩
  · intro hostname epochS hhostname hcall
    exact h.verified_of_attested hread hhostname hcall
  · intro bytes vn hverified hkey
    exact h.attested_of_verified hverified hkey
  · intro call hcall hhashed bytes hsignature vn hverified
    obtain ⟨m, hm⟩ := Option.isSome_iff_exists.mp hhashed
    exact h.digest_signature_refused hcall hm hsignature hverified
  · intro hostname hostname' pubkey pubkey' epochS epochS' hpubkey hpubkey' hsame
    exact (attestationSigningBytes_eq_iff hpubkey hpubkey').mp hsame

/-! The server after it announced itself and sent one message. -/

/-- The signature keeps the end of the message, where texts and digests differ. -/
def serverSign (m : Bytes) : Bytes := (m.reverse ++ List.replicate 64 0).take 64

def serverPayloadCall : SignCall := .signPayload [1, 2] [3]

def serverAttestationCall : SignCall :=
  .signedAttestation "server" TrustSets.serverKey 1760000000

/-- What the server has signed: a digest and the text of an attestation. -/
def serverMessages : List Bytes :=
  [(1 :: 2 :: 3 :: List.replicate 32 0).take 32,
    attestationSigningBytes "server" TrustSets.serverKey 1760000000]

def serverCrypto : Crypto where
  sha256 m := (m ++ List.replicate 32 0).take 32
  verifyingKey _ := TrustSets.serverKey
  sign _ m := serverSign m
  isVerifyingKey _ := true
  verify key m signature :=
    key == TrustSets.serverKey && serverMessages.contains m && signature == serverSign m

theorem serverCrypto_honestSigner :
    HonestSigner serverCrypto [] [serverPayloadCall, serverAttestationCall] where
  sha256_length m := by simp [serverCrypto]
  key_length := by decide
  key_accepted := rfl
  signature_length m := by simp [serverCrypto, serverSign]
  verifies call hcall := by
    rcases List.mem_pair.mp hcall with rfl | rfl <;> decide +kernel
  unforgeable m signature hverify := by
    simp only [serverCrypto, Bool.and_eq_true, List.contains_iff_mem] at hverify
    rcases List.mem_pair.mp hverify.1.2 with rfl | rfl
    · exact ⟨serverPayloadCall, by simp, by decide⟩
    · exact ⟨serverAttestationCall, by simp, rfl⟩
  binding m m' signature hverify hverify' := by
    simp only [serverCrypto, Bool.and_eq_true, List.contains_iff_mem, beq_iff_eq]
      at hverify hverify'
    have hsame : serverSign m = serverSign m' := hverify.2.symm.trans hverify'.2
    have hdistinct : (serverMessages.map serverSign).Nodup := by decide +kernel
    exact List.inj_on_of_nodup_map hdistinct hverify.1.2 hverify'.1.2 hsame
  attested_key hostname pubkey epochS hmem := by
    rcases List.mem_pair.mp hmem with hcall | hcall
    · cases hcall
    · cases hcall
      decide

/-- The server's attestation is accepted, and an attestation around the signature
of its payload is not. -/
theorem server_attestation_verifies :
    verifyAttestationCbor RowProvenance.readMaps serverCrypto (buildAttestationCbor "server"
      TrustSets.serverKey 1760000000
      (serverSign (attestationSigningBytes "server" TrustSets.serverKey 1760000000))) =
      .ok ⟨"server", TrustSets.serverKey, 1760000000⟩ ∧
    ∀ bytes, signatureOf RowProvenance.readMaps bytes =
        some (serverSign (serverPayloadCall.message serverCrypto)) →
      ∀ vn, verifyAttestationCbor RowProvenance.readMaps serverCrypto bytes = .ok vn →
        vn.pubkey ≠ TrustSets.serverKey := by
  obtain ⟨hbuilt, -, hrefused, -⟩ := attestation_verifies_what_was_attested
    RowProvenance.readMaps_readsMaps serverCrypto_honestSigner
  constructor
  · exact hbuilt "server" 1760000000 (by decide) (by simp [serverAttestationCall, serverCrypto])
  · intro bytes hsignature vn hverified
    exact hrefused serverPayloadCall (by simp) rfl bytes hsignature vn hverified

end Weverywhere.NodeAttestations
