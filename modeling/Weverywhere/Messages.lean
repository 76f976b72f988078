import Weverywhere.Identity

/-!
What travels on the fabric: programs with their request context
(`src/src/executor/mod.rs`) and the wire messages that carry them
(`src/src/messages/mod.rs`).
-/
namespace Weverywhere.Messages

open ByteStrings Identity

/-- `std::net::SocketAddr`. -/
inductive SocketAddr
  | v4 (ip : BitVec 32) (port : UInt16)
  | v6 (ip : BitVec 128) (port : UInt16) (flowinfo scopeId : UInt32)
  deriving DecidableEq

structure ProgramData where
  source : IdentityData
  humanName : String
  wasmProgramBytes : Bytes
  signature : Bytes
  requestUuid : Vector UInt8 16
  depthBudget : UInt8
  visited : List Bytes
  argList : List String
  argMap : List (String × String)
  deriving DecidableEq

/-- The two carry the same program: the same code under the same name, with the
same arguments. -/
def ProgramData.SameProgram (p q : ProgramData) : Prop :=
  p.wasmProgramBytes = q.wasmProgramBytes ∧ p.humanName = q.humanName ∧
    p.argList = q.argList ∧ p.argMap = q.argMap

instance (p q : ProgramData) : Decidable (p.SameProgram q) := by
  unfold ProgramData.SameProgram
  infer_instance

theorem ProgramData.SameProgram.symm {p q : ProgramData} (h : p.SameProgram q) :
    q.SameProgram p := by
  obtain ⟨hwasm, hname, hlist, hmap⟩ := h
  exact ⟨hwasm.symm, hname.symm, hlist.symm, hmap.symm⟩

theorem ProgramData.SameProgram.trans {p q r : ProgramData} (hpq : p.SameProgram q)
    (hqr : q.SameProgram r) : p.SameProgram r := by
  obtain ⟨hwasm, hname, hlist, hmap⟩ := hpq
  obtain ⟨hwasm', hname', hlist', hmap'⟩ := hqr
  exact ⟨hwasm.trans hwasm', hname.trans hname', hlist.trans hlist', hmap.trans hmap'⟩

inductive NetworkMessage
  | executeRequest (programData : ProgramData)
  | basicInsecureProgramStdout (fromPid : UInt64) (stdoutData : Bytes)
  | basicInsecureProgramExit (fromPid : UInt64) (exitCode : UInt32)
  | basicReturnMap (fromPid : UInt64) (requestUuid : Vector UInt8 16) (cborData : Bytes)
  | basicReturnList (fromPid : UInt64) (requestUuid : Vector UInt8 16) (cborData : Bytes)
  | signedFabricMessage (source : IdentityData) (id cborData signature : Bytes)
  deriving DecidableEq

namespace NetworkMessage

/-- The signature fields a datagram brings along. -/
def signatures : NetworkMessage → List Bytes
  | .executeRequest p => [p.source.signature, p.signature]
  | .signedFabricMessage source _ _ signature => [source.signature, signature]
  | _ => []

/-- The byte-string and text fields of a datagram, as bytes. -/
def fields : NetworkMessage → List Bytes
  | .executeRequest p =>
      sourceFields p.source ++ [utf8 p.humanName, p.wasmProgramBytes, p.signature,
        p.requestUuid.toList] ++ p.visited ++ p.argList.map utf8 ++
        p.argMap.flatMap fun kv => [utf8 kv.1, utf8 kv.2]
  | .basicInsecureProgramStdout _ stdoutData => [stdoutData]
  | .basicInsecureProgramExit _ _ => []
  | .basicReturnMap _ requestUuid cborData => [requestUuid.toList, cborData]
  | .basicReturnList _ requestUuid cborData => [requestUuid.toList, cborData]
  | .signedFabricMessage source id cborData signature =>
      sourceFields source ++ [id, cborData, signature]
where
  sourceFields (d : IdentityData) : List Bytes :=
    [utf8 d.humanName, u64LE d.generatedAtUtc0EpochS, u16LE d.validityS,
      utf8 d.encodedPublicKeyFmt, d.encodedPublicKey, d.signature]

end NetworkMessage

/-- A field put together from pieces of fields of `seen`. -/
def Assembled (seen : List NetworkMessage) (field : Bytes) : Prop :=
  ∃ pieces : List Bytes, field = pieces.flatten ∧
    ∀ piece ∈ pieces, ∃ m ∈ seen, ∃ whole ∈ m.fields, piece <:+: whole

/-- A datagram an adversary can make of what it has seen. -/
def AssembledFrom (seen : List NetworkMessage) (message : NetworkMessage) : Prop :=
  ∀ field ∈ message.fields, Assembled seen field

theorem assembled_of_piece {seen : List NetworkMessage} {m : NetworkMessage} {piece whole : Bytes}
    (hm : m ∈ seen) (hwhole : whole ∈ m.fields) (hpiece : piece <:+: whole) :
    Assembled seen piece := by
  refine ⟨[piece], by simp, ?_⟩
  simpa using ⟨m, hm, whole, hwhole, hpiece⟩

theorem Assembled.append {seen : List NetworkMessage} {a b : Bytes} (ha : Assembled seen a)
    (hb : Assembled seen b) : Assembled seen (a ++ b) := by
  obtain ⟨as, rfl, has⟩ := ha
  obtain ⟨bs, rfl, hbs⟩ := hb
  refine ⟨as ++ bs, by simp, ?_⟩
  intro piece hpiece
  rcases List.mem_append.mp hpiece with hpiece | hpiece
  · exact has piece hpiece
  · exact hbs piece hpiece

/-- A chat line of one sender under a given id, as it goes on the wire. -/
def aliceLine (id : Bytes) : NetworkMessage :=
  .signedFabricMessage (idealIdentity "alice" aliceKey 1760000000) id [0x81, 0x62, 0x68, 0x69]
    (IdentityData.signPayload (idealCrypto []) aliceKey id [0x81, 0x62, 0x68, 0x69])

/-- The signatures that sender issued: the identity and the line. -/
def aliceIssued (id : Bytes) : List (Bytes × Bytes) :=
  [(aliceKey, (idealCrypto []).sha256 (idealIdentity "alice" aliceKey 1760000000).signedBytes),
    (aliceKey, (idealCrypto []).sha256 (id ++ [0x81, 0x62, 0x68, 0x69]))]

end Weverywhere.Messages
