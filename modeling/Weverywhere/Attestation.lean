import Weverywhere.ByteStrings

/-!
The canonical bytes a node signs to attest its hostname, key and clock
(`src/src/discovery.rs`). They open with a tag and are longer than any SHA-256
digest, which keeps them apart from the two digests signed under the same key.
-/
namespace Weverywhere.Attestation

open ByteStrings

/-- `b"weverywhere-node-attest-v1\n"`. -/
def attestationTag : Bytes := utf8 "weverywhere-node-attest-v1\n"

def attestationSigningBytes (hostname : String) (pubkey : Bytes) (epochS : UInt64) : Bytes :=
  attestationTag ++ utf8 hostname ++ [10] ++ pubkey ++ [10] ++ u64LE epochS

/-- A digest has 32 bytes; the attested bytes have at least 37. -/
theorem attestationSigningBytes_length (hostname : String) (pubkey : Bytes) (epochS : UInt64) :
    37 ≤ (attestationSigningBytes hostname pubkey epochS).length := by
  have htag : attestationTag.length = 27 := by decide
  simp only [attestationSigningBytes, List.length_append, htag, u64LE_length, List.length_cons,
    List.length_nil]
  omega

/-- What one key attests is told apart by the bytes it signs. -/
theorem attestationSigningBytes_injective {hostname hostname' : String} {pubkey : Bytes}
    {epochS epochS' : UInt64} (h : attestationSigningBytes hostname pubkey epochS =
      attestationSigningBytes hostname' pubkey epochS') :
    hostname = hostname' ∧ epochS = epochS' := by
  simp only [attestationSigningBytes, List.append_assoc] at h
  have hafterTag := List.append_cancel_left h
  have hlength := congrArg List.length hafterTag
  simp only [List.length_append, u64LE_length] at hlength
  obtain ⟨hhostname, hrest⟩ := List.append_inj hafterTag (by omega)
  have hepoch := List.append_cancel_left (List.append_cancel_left (List.append_cancel_left hrest))
  exact ⟨utf8_injective hhostname, u64LE_injective hepoch⟩

end Weverywhere.Attestation
