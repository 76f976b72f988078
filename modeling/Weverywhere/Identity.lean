import Weverywhere.Attestation

/-!
Self-signed identities and payload signatures (`src/src/config.rs`). The two
third-party primitives, SHA-256 and ed25519, are parameters; which of their
documented properties a result uses is a named hypothesis of that result. Both
digests hash their parts one after the other, with nothing in between.
-/
namespace Weverywhere.Identity

open ByteStrings Attestation

/-- What the code calls of `sha2` and `ed25519_dalek`, on raw bytes. -/
structure Crypto where
  sha256 : Bytes → Bytes
  /-- `SigningKey::verifying_key`. -/
  verifyingKey : Bytes → Bytes
  /-- `SigningKey::sign`. -/
  sign : Bytes → Bytes → Bytes
  /-- Whether `VerifyingKey::from_bytes` accepts these 32 bytes. -/
  isVerifyingKey : Bytes → Bool
  /-- `VerifyingKey::verify` of a message and a 64-byte signature. -/
  verify : Bytes → Bytes → Bytes → Bool

structure IdentityData where
  humanName : String
  generatedAtUtc0EpochS : UInt64
  validityS : UInt16
  encodedPublicKeyFmt : String
  encodedPublicKey : Bytes
  signature : Bytes
  deriving DecidableEq

/-- Where a signature check gives up. -/
inductive SignatureError
  | keyLength
  | key
  | signatureLength
  | mismatch
  deriving DecidableEq

/-- The bytes hashed for an identity, in the order the struct documents. -/
def identityBytes (humanName : String) (generatedAtUtc0EpochS : UInt64) (validityS : UInt16)
    (encodedPublicKeyFmt : String) (encodedPublicKey : Bytes) : Bytes :=
  utf8 humanName ++ u64LE generatedAtUtc0EpochS ++ u16LE validityS ++
    utf8 encodedPublicKeyFmt ++ encodedPublicKey

/-- The checks shared by both verifications, ending in `public_key.verify`. -/
def verifyDigest (c : Crypto) (encodedPublicKey hash signature : Bytes) :
    Except SignatureError Unit :=
  if encodedPublicKey.length ≠ 32 then .error .keyLength
  else if ¬ c.isVerifyingKey encodedPublicKey then .error .key
  else if signature.length ≠ 64 then .error .signatureLength
  else if ¬ c.verify encodedPublicKey hash signature then .error .mismatch
  else .ok ()

/-- A digest check passes exactly when all four of its tests do. -/
theorem verifyDigest_ok_iff (c : Crypto) (key hash signature : Bytes) :
    verifyDigest c key hash signature = .ok () ↔
      key.length = 32 ∧ c.isVerifyingKey key = true ∧ signature.length = 64 ∧
        c.verify key hash signature = true := by
  unfold verifyDigest
  split_ifs <;> simp_all

namespace IdentityData

def signIdentityData (c : Crypto) (signingKey : Bytes) (humanName : String)
    (generatedAtUtc0EpochS : UInt64) (validityS : UInt16) (encodedPublicKeyFmt : String)
    (encodedPublicKey : Bytes) : Bytes :=
  c.sign signingKey (c.sha256
    (identityBytes humanName generatedAtUtc0EpochS validityS encodedPublicKeyFmt encodedPublicKey))

/-- The bytes `check_self_signature` hashes. -/
def signedBytes (d : IdentityData) : Bytes :=
  identityBytes d.humanName d.generatedAtUtc0EpochS d.validityS d.encodedPublicKeyFmt
    d.encodedPublicKey

def checkSelfSignature (c : Crypto) (d : IdentityData) : Except SignatureError Unit :=
  verifyDigest c d.encodedPublicKey (c.sha256 d.signedBytes) d.signature

def signPayload (c : Crypto) (signingKey id payload : Bytes) : Bytes :=
  c.sign signingKey (c.sha256 (id ++ payload))

def verifyPayload (c : Crypto) (d : IdentityData) (id payload signature : Bytes) :
    Except SignatureError Unit :=
  verifyDigest c d.encodedPublicKey (c.sha256 (id ++ payload)) signature

/-- An identity that passed its self check carries a key of 32 bytes. -/
theorem checkSelfSignature_key_length {c : Crypto} {d : IdentityData}
    (h : d.checkSelfSignature c = .ok ()) : d.encodedPublicKey.length = 32 :=
  ((verifyDigest_ok_iff c _ _ _).mp h).1

theorem checkSelfSignature_verifies {c : Crypto} {d : IdentityData}
    (h : d.checkSelfSignature c = .ok ()) :
    c.verify d.encodedPublicKey (c.sha256 d.signedBytes) d.signature = true :=
  ((verifyDigest_ok_iff c _ _ _).mp h).2.2.2

theorem verifyPayload_verifies {c : Crypto} {d : IdentityData} {id payload signature : Bytes}
    (h : d.verifyPayload c id payload signature = .ok ()) :
    c.verify d.encodedPublicKey (c.sha256 (id ++ payload)) signature = true :=
  ((verifyDigest_ok_iff c _ _ _).mp h).2.2.2

end IdentityData

/-- One use of an identity's private key. -/
inductive SignCall
  | signIdentityData (humanName : String) (generatedAtUtc0EpochS : UInt64) (validityS : UInt16)
      (encodedPublicKeyFmt : String) (encodedPublicKey : Bytes)
  | signPayload (id payload : Bytes)
  | signedAttestation (hostname : String) (pubkey : Bytes) (epochS : UInt64)
  deriving DecidableEq

namespace SignCall

/-- The message handed to ed25519: a digest, except for attestations. -/
def message (c : Crypto) : SignCall → Bytes
  | .signIdentityData humanName generatedAt validity fmt key =>
      c.sha256 (identityBytes humanName generatedAt validity fmt key)
  | .signPayload id payload => c.sha256 (id ++ payload)
  | .signedAttestation hostname pubkey epochS => attestationSigningBytes hostname pubkey epochS

/-- `sign_identity_data` was called on exactly the fields of `d`. -/
def ofIdentity (d : IdentityData) : SignCall :=
  .signIdentityData d.humanName d.generatedAtUtc0EpochS d.validityS d.encodedPublicKeyFmt
    d.encodedPublicKey

end SignCall

/-- SHA-256 as the ideal hash: no two inputs share a digest, and a digest (32
bytes) is never the longer message of an attestation. -/
structure CollisionFree (c : Crypto) : Prop where
  sha256_injective : Function.Injective c.sha256
  sha256_ne_attestation : ∀ m hostname pubkey epochS,
    c.sha256 m ≠ attestationSigningBytes hostname pubkey epochS

namespace SignCall

/-- The bytes a call hashed before signing; attestations are signed unhashed. -/
def hashed : SignCall → Option Bytes
  | .signIdentityData humanName generatedAt validity fmt key =>
      some (identityBytes humanName generatedAt validity fmt key)
  | .signPayload id payload => some (id ++ payload)
  | .signedAttestation _ _ _ => none

theorem message_of_hashed {c : Crypto} {call : SignCall} {m : Bytes} (h : call.hashed = some m) :
    call.message c = c.sha256 m := by
  cases call <;> simp_all [hashed, message]

/-- A signed digest determines what was hashed, whoever hashed it and why. -/
theorem hashed_of_message {c : Crypto} (hc : CollisionFree c) {call : SignCall} {m : Bytes}
    (h : call.message c = c.sha256 m) : call.hashed = some m := by
  cases call with
  | signIdentityData humanName generatedAt validity fmt key =>
    exact congrArg some (hc.sha256_injective h)
  | signPayload id payload => exact congrArg some (hc.sha256_injective h)
  | signedAttestation hostname pubkey epochS =>
    exact absurd h.symm (hc.sha256_ne_attestation m hostname pubkey epochS)

end SignCall

/-- The ideal functionality behind the assumptions: a digest keeps its preimage,
and a signature verifies when its key and message are on record. -/
def idealCrypto (issued : List (Bytes × Bytes)) : Crypto where
  sha256 m := 0 :: m
  verifyingKey signingKey := signingKey
  sign _ m := (m ++ List.replicate 64 0).take 64
  isVerifyingKey _ := true
  verify key m signature :=
    (key, m) ∈ issued && signature == (m ++ List.replicate 64 0).take 64

theorem idealCrypto_collisionFree (issued : List (Bytes × Bytes)) :
    CollisionFree (idealCrypto issued) where
  sha256_injective := fun a b h => (List.cons.inj h).2
  sha256_ne_attestation := by
    intro m hostname pubkey epochS h
    have hhead := congrArg List.head? h
    have htag : attestationTag = 119 :: attestationTag.tail := by decide
    rw [attestationSigningBytes, htag] at hhead
    simp [idealCrypto] at hhead

/-- A key to run the model on. -/
def aliceKey : Bytes := List.replicate 32 0xAA

/-- An identity as `generate_from_config` makes it, signed ideally. -/
def idealIdentity (humanName : String) (key : Bytes) (generatedAtUtc0EpochS : UInt64) :
    IdentityData where
  humanName := humanName
  generatedAtUtc0EpochS := generatedAtUtc0EpochS
  validityS := 0xFFFF
  encodedPublicKeyFmt := "ed25519"
  encodedPublicKey := key
  signature := IdentityData.signIdentityData (idealCrypto []) key humanName
    generatedAtUtc0EpochS 0xFFFF "ed25519" key

end Weverywhere.Identity
