import Weverywhere.Identity

/-!
What an identity's self-signature binds. The five fields are hashed without
separators, next to payload digests under the same key, so the signature binds
the fields exactly when no byte string the holder hashed can be cut into the
fields of another identity.
-/
namespace Weverywhere.SelfSignature

open ByteStrings Identity

/-- A key holder and everything they signed, under ideal ed25519: a signature
verifies for a message only if some call signed that message, and the signature
a call returned does verify. -/
structure HonestHolder (c : Crypto) (signingKey : Bytes) (calls : List SignCall) : Prop where
  key_length : (c.verifyingKey signingKey).length = 32
  key_valid : c.isVerifyingKey (c.verifyingKey signingKey) = true
  sign_length : ∀ m, (c.sign signingKey m).length = 64
  sign_verifies : ∀ call ∈ calls, c.verify (c.verifyingKey signingKey) (call.message c)
    (c.sign signingKey (call.message c)) = true
  unforgeable : ∀ m signature, c.verify (c.verifyingKey signingKey) m signature = true →
    ∃ call ∈ calls, call.message c = m

/-- `d` passes its self check only if `sign_identity_data` was called on exactly
its fields, and it does pass when it carries the signature of that call. -/
def BindsFields (c : Crypto) (signingKey : Bytes) (calls : List SignCall) (d : IdentityData) :
    Prop :=
  (d.checkSelfSignature c = .ok () → SignCall.ofIdentity d ∈ calls) ∧
  (SignCall.ofIdentity d ∈ calls →
    d.signature = IdentityData.signIdentityData c signingKey d.humanName
      d.generatedAtUtc0EpochS d.validityS d.encodedPublicKeyFmt d.encodedPublicKey →
    d.checkSelfSignature c = .ok ())

/-- Whenever hashed bytes can be cut into a name, eight bytes of time, two bytes
of validity, a format and the key, that cut was itself signed as an identity. -/
def CutsAreSigned (key : Bytes) (calls : List SignCall) : Prop :=
  ∀ call ∈ calls, ∀ humanName generatedAt validity fmt,
    call.hashed = some (identityBytes humanName generatedAt validity fmt key) →
      SignCall.signIdentityData humanName generatedAt validity fmt key ∈ calls

variable {c : Crypto} {signingKey : Bytes} {calls : List SignCall}

/-- A verified identity shows bytes that some call hashed. -/
theorem hashed_of_check (hc : CollisionFree c) (holder : HonestHolder c signingKey calls)
    {d : IdentityData} (hkey : d.encodedPublicKey = c.verifyingKey signingKey)
    (h : d.checkSelfSignature c = .ok ()) : ∃ call ∈ calls, call.hashed = some d.signedBytes := by
  have hverify := IdentityData.checkSelfSignature_verifies h
  rw [hkey] at hverify
  obtain ⟨call, hmem, hmessage⟩ := holder.unforgeable _ _ hverify
  exact ⟨call, hmem, SignCall.hashed_of_message hc hmessage⟩

/-- Any bytes some call hashed pass as the identity they can be cut into. -/
theorem check_of_hashed (holder : HonestHolder c signingKey calls) {call : SignCall}
    (hmem : call ∈ calls) {d : IdentityData}
    (hkey : d.encodedPublicKey = c.verifyingKey signingKey)
    (hashed : call.hashed = some d.signedBytes)
    (hsig : d.signature = c.sign signingKey (c.sha256 d.signedBytes)) :
    d.checkSelfSignature c = .ok () := by
  have hverify := holder.sign_verifies call hmem
  rw [SignCall.message_of_hashed hashed] at hverify
  unfold IdentityData.checkSelfSignature
  rw [verifyDigest_ok_iff, hkey, hsig]
  exact ⟨holder.key_length, holder.key_valid, holder.sign_length _, hverify⟩

/-- The self-signature binds the fields of every identity under the holder's key
exactly when every cut of what the holder hashed was signed as that cut. -/
theorem self_signature_binds_iff (hc : CollisionFree c)
    (holder : HonestHolder c signingKey calls) :
    (∀ d : IdentityData, d.encodedPublicKey = c.verifyingKey signingKey →
      BindsFields c signingKey calls d) ↔
      CutsAreSigned (c.verifyingKey signingKey) calls := by
  constructor
  · intro hbinds call hmem humanName generatedAt validity fmt hashed
    let d : IdentityData :=
      { humanName := humanName
        generatedAtUtc0EpochS := generatedAt
        validityS := validity
        encodedPublicKeyFmt := fmt
        encodedPublicKey := c.verifyingKey signingKey
        signature := c.sign signingKey (c.sha256
          (identityBytes humanName generatedAt validity fmt (c.verifyingKey signingKey))) }
    have hcheck : d.checkSelfSignature c = .ok () := check_of_hashed holder hmem rfl hashed rfl
    exact (hbinds d rfl).1 hcheck
  · intro hcuts d hkey
    constructor
    · intro hcheck
      obtain ⟨call, hmem, hashed⟩ := hashed_of_check hc holder hkey hcheck
      have hsigned := hcuts call hmem d.humanName d.generatedAtUtc0EpochS d.validityS
        d.encodedPublicKeyFmt (by rw [hashed, ← hkey, IdentityData.signedBytes])
      rwa [SignCall.ofIdentity, hkey]
    · intro hmem hsig
      exact check_of_hashed holder hmem hkey rfl hsig

/-- The record an ideal signature service keeps for one holder's calls. -/
def issuedBy (signingKey : Bytes) (calls : List SignCall) : List (Bytes × Bytes) :=
  calls.map fun call => (signingKey, call.message (idealCrypto []))

theorem idealCrypto_message (issued : List (Bytes × Bytes)) (call : SignCall) :
    call.message (idealCrypto issued) = call.message (idealCrypto []) := by
  cases call <;> rfl

/-- The assumptions on a holder can be met by any calls under any 32-byte key. -/
theorem honestHolder_ideal (signingKey : Bytes) (calls : List SignCall)
    (hkey : signingKey.length = 32) :
    HonestHolder (idealCrypto (issuedBy signingKey calls)) signingKey calls where
  key_length := hkey
  key_valid := rfl
  sign_length := fun m => by simp [idealCrypto]
  sign_verifies := by
    intro call hmem
    rw [idealCrypto_message]
    simpa [idealCrypto, issuedBy] using ⟨call, hmem, rfl⟩
  unforgeable := by
    intro m signature hverify
    simp only [idealCrypto, issuedBy, Bool.and_eq_true, decide_eq_true_eq, List.mem_map,
      Prod.mk.injEq] at hverify
    obtain ⟨⟨call, hmem, -, hmessage⟩, -⟩ := hverify
    exact ⟨call, hmem, (idealCrypto_message _ call).trans hmessage⟩

/-- The holder of this key signed one identity, as `generate_from_config` does. -/
def aliceCalls : List SignCall := [.signIdentityData "alice" 0x68E77C21 0xFFFF "ed25519" aliceKey]

/-- The same bytes cut one byte later: the low byte of the time joins the name. -/
def recutAlice : IdentityData where
  humanName := "alice!"
  generatedAtUtc0EpochS := 0xFF0000000068E77C
  validityS := 0x65FF
  encodedPublicKeyFmt := "d25519"
  encodedPublicKey := aliceKey
  signature := IdentityData.signIdentityData (idealCrypto (issuedBy aliceKey aliceCalls)) aliceKey
    "alice" 0x68E77C21 0xFFFF "ed25519" aliceKey

theorem self_signature_binds_iff_alice :
    (∀ d : IdentityData, d.encodedPublicKey = aliceKey →
      BindsFields (idealCrypto (issuedBy aliceKey aliceCalls)) aliceKey aliceCalls d) ↔
      CutsAreSigned aliceKey aliceCalls :=
  self_signature_binds_iff (idealCrypto_collisionFree _)
    (honestHolder_ideal aliceKey aliceCalls (by decide))

/-- An identity that was never signed passes the self check of an honest key. -/
theorem recut_identity_passes :
    CollisionFree (idealCrypto (issuedBy aliceKey aliceCalls)) ∧
      HonestHolder (idealCrypto (issuedBy aliceKey aliceCalls)) aliceKey aliceCalls ∧
      recutAlice.encodedPublicKey = aliceKey ∧
      recutAlice.checkSelfSignature (idealCrypto (issuedBy aliceKey aliceCalls)) = .ok () ∧
      SignCall.ofIdentity recutAlice ∉ aliceCalls :=
  ⟨idealCrypto_collisionFree _, honestHolder_ideal aliceKey aliceCalls (by decide), rfl,
    by decide, by decide⟩

end Weverywhere.SelfSignature
