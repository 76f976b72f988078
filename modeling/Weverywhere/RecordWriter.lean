import Weverywhere.BoundedBuffer
import Weverywhere.CborItems
import Weverywhere.RowProvenance

/-!
How `network-map.c` (`src/example-programs/network-map.c`) writes a node's record:
byte by byte into a fixed buffer, with the head of every item written by hand. The
record always fits, and `netmap` reads back what was written.
-/
namespace Weverywhere.RecordWriter

open ByteStrings Cbor BoundedBuffer NetworkMap

/-- `static unsigned char out[16384]` up to `out_len`. -/
abbrev Out := Buffer UInt8 16384

def putByte (out : Out) (b : UInt8) : Out := out.push b

def putBytes (out : Out) (src : Bytes) : Out := out.pushWhileRoom src

/-- `major` is a small constant, `val` an `unsigned long long`. -/
def cborHead (out : Out) (major : ℕ) (val : UInt64) : Out :=
  let mt := UInt8.ofNat (major <<< 5)
  if val < 24 then putByte out (mt ||| val.toUInt8)
  else if val < 256 then putByte (putByte out (mt ||| 24)) val.toUInt8
  else if val < 65536 then
    putByte (putByte (putByte out (mt ||| 25)) (val >>> 8).toUInt8) val.toUInt8
  else if val < 4294967296 then
    putByte (putByte (putByte (putByte (putByte out (mt ||| 26)) (val >>> 24).toUInt8)
      (val >>> 16).toUInt8) (val >>> 8).toUInt8) val.toUInt8
  else
    ([56, 48, 40, 32, 24, 16, 8, 0] : List UInt64).foldl
      (fun out s => putByte out (val >>> s).toUInt8)
      (putByte out (mt ||| 27))

def cborUint (out : Out) (v : UInt64) : Out := cborHead out 0 v

def cborBytes (out : Out) (b : Bytes) : Out := putBytes (cborHead out 2 (UInt64.ofNat b.length)) b

def cborText (out : Out) (b : Bytes) : Out := putBytes (cborHead out 3 (UInt64.ofNat b.length)) b

/-- What the host imports answer: bytes written into a scratch buffer, or nothing
for a negative length. -/
structure HostAnswers where
  signedAttestation : Option Bytes
  trustsMe : Int32
  depth : Int32
  callerPubkey : Option Bytes
  nodeAddr : Option Bytes
  attest_fits : (signedAttestation.getD []).length ≤ 1024
  parent_fits : (callerPubkey.getD []).length ≤ 64
  node_addr_fits : (nodeAddr.getD []).length ≤ 64

namespace HostAnswers

def trusts (host : HostAnswers) : Bool := host.trustsMe ≠ 0

/-- `if (depth < 0) depth = 0`, then as an `unsigned`. -/
def hops (host : HostAnswers) : UInt32 := if host.depth < 0 then 0 else host.depth.toUInt32

end HostAnswers

/-- Part 3 of `_start`, the buffer handed to `host::return_map`. -/
def start (host : HostAnswers) : Out :=
  let out := cborHead .empty 5 5
  let out := cborBytes (cborUint out 1) (host.signedAttestation.getD [])
  let out := cborUint (cborUint out 2) (if host.trusts then 1 else 0)
  let out := cborUint (cborUint out 3) host.hops.toUInt64
  let out := cborBytes (cborUint out 4) (host.callerPubkey.getD [])
  cborText (cborUint out 5) (host.nodeAddr.getD [])

/-! Heads. -/

theorem toUInt8_shiftRight (val s : UInt64) (hs : s < 64) :
    (val >>> s).toUInt8 = UInt8.ofNat (val.toNat / 2 ^ s.toNat) := by
  have hmod : s.toNat % 64 = s.toNat := Nat.mod_eq_of_lt hs
  apply UInt8.toNat_inj.mp
  rw [UInt64.toNat_toUInt8, UInt64.toNat_shiftRight, hmod, Nat.shiftRight_eq_div_pow,
    UInt8.toNat_ofNat']

/-- The low bytes of `val` as the shifts pick them. -/
theorem beBytes_eq_shifts (val : UInt64) :
    beBytes 1 val.toNat = [val.toUInt8] ∧
    beBytes 2 val.toNat = [(val >>> 8).toUInt8, val.toUInt8] ∧
    beBytes 4 val.toNat = [(val >>> 24).toUInt8, (val >>> 16).toUInt8, (val >>> 8).toUInt8,
      val.toUInt8] ∧
    beBytes 8 val.toNat =
      ([56, 48, 40, 32, 24, 16, 8, 0] : List UInt64).map fun s => (val >>> s).toUInt8 := by
  simp [beBytes, leBytes, toUInt8_shiftRight, Nat.div_div_eq_div_mul]

/-- The hand-written head is the standard one. -/
theorem cborHead_eq (out : Out) (major : ℕ) (val : UInt64) :
    cborHead out major val = out.pushAll (head major val.toNat) := by
  obtain ⟨hone, htwo, hfour, height⟩ := beBytes_eq_shifts val
  have h24 : UInt8.ofNat (major <<< 5) ||| 24 = initialByte major 24 :=
    initialByte_eq_or (show 24 < 32 by omega)
  have h25 : UInt8.ofNat (major <<< 5) ||| 25 = initialByte major 25 :=
    initialByte_eq_or (show 25 < 32 by omega)
  have h26 : UInt8.ofNat (major <<< 5) ||| 26 = initialByte major 26 :=
    initialByte_eq_or (show 26 < 32 by omega)
  have h27 : UInt8.ofNat (major <<< 5) ||| 27 = initialByte major 27 :=
    initialByte_eq_or (show 27 < 32 by omega)
  unfold cborHead head
  simp only [UInt64.lt_iff_toNat_lt, UInt64.reduceToNat, Nat.reducePow, h24, h25, h26, h27,
    hone, htwo, hfour, height, putByte]
  split_ifs with hshort
  · rw [← initialByte_eq_or (show val.toNat < 32 by omega), UInt8.ofNat_uInt64ToNat]
    rfl
  · simp only [Buffer.pushAll_cons, Buffer.pushAll_nil]
  · simp only [Buffer.pushAll_cons, Buffer.pushAll_nil]
  · simp only [Buffer.pushAll_cons, Buffer.pushAll_nil]
  · rw [Buffer.pushAll_cons, Buffer.pushAll, List.foldl_map]

theorem cborBytes_eq (out : Out) {b : Bytes} (hb : b.length < 2 ^ 64) :
    cborBytes out b = out.pushAll (encode (.bytes b)) := by
  have hlength : (UInt64.ofNat b.length).toNat = b.length := UInt64.toNat_ofNat_of_lt' hb
  rw [cborBytes, putBytes, Buffer.pushWhileRoom_eq, cborHead_eq, Buffer.pushAll_append, hlength,
    encode]

theorem cborText_eq (out : Out) {s : String} (hs : (utf8 s).length < 2 ^ 64) :
    cborText out (utf8 s) = out.pushAll (encode (.text s)) := by
  have hlength : (UInt64.ofNat (utf8 s).length).toNat = (utf8 s).length :=
    UInt64.toNat_ofNat_of_lt' hs
  rw [cborText, putBytes, Buffer.pushWhileRoom_eq, cborHead_eq, Buffer.pushAll_append, hlength,
    encode]

theorem cborUint_eq (out : Out) (v : UInt64) :
    cborUint out v = out.pushAll (encode (.integer v.toNat)) := by
  rw [cborUint, cborHead_eq, encode, if_pos (by omega), Int.toNat_natCast]

/-! The record. -/

/-- The map `start` writes. -/
def HostAnswers.entries (host : HostAnswers) (nodeAddr : String) :
    List (Cbor.Value × Cbor.Value) :=
  recordMap (host.signedAttestation.getD []) host.trusts host.hops.toNat
    (host.callerPubkey.getD []) nodeAddr

theorem HostAnswers.serializable (host : HostAnswers) {nodeAddr : String}
    (hnodeAddr : host.nodeAddr.getD [] = utf8 nodeAddr) :
    Serializable 2 (.map (host.entries nodeAddr)) := by
  have hattest := host.attest_fits
  have hparent := host.parent_fits
  have haddr := host.node_addr_fits
  have hhops := host.hops.toNat_lt
  rw [hnodeAddr] at haddr
  simp [Serializable, HostAnswers.entries, recordMap, RecordKeys.attestation,
    RecordKeys.trustsCaller, RecordKeys.depth, RecordKeys.parentPubkey, RecordKeys.nodeAddr]
  split <;> omega

theorem start_eq_pushAll (host : HostAnswers) {nodeAddr : String}
    (hnodeAddr : host.nodeAddr.getD [] = utf8 nodeAddr) :
    start host = Buffer.empty.pushAll (encode (.map (host.entries nodeAddr))) := by
  have hattest : (host.signedAttestation.getD []).length < 2 ^ 64 := by
    have hfits := host.attest_fits
    omega
  have hparent : (host.callerPubkey.getD []).length < 2 ^ 64 := by
    have hfits := host.parent_fits
    omega
  have haddr : (utf8 nodeAddr).length < 2 ^ 64 := by
    have hfits := host.node_addr_fits
    rw [hnodeAddr] at hfits
    omega
  have htrusts : (((if host.trusts then 1 else 0 : UInt64).toNat : ℕ) : ℤ) =
      if host.trusts then 1 else 0 := by
    cases host.trusts <;> rfl
  have hhops : host.hops.toUInt64.toNat = host.hops.toNat := UInt32.toNat_toUInt64 _
  unfold start
  rw [hnodeAddr]
  simp only [cborHead_eq, cborUint_eq, cborBytes_eq _ hattest, cborBytes_eq _ hparent,
    cborText_eq _ haddr, Buffer.pushAll_append, htrusts, hhops]
  refine congrArg Buffer.empty.pushAll ?_
  simp [encode, encodeEntries, HostAnswers.entries, recordMap, RecordKeys.attestation,
    RecordKeys.trustsCaller, RecordKeys.depth, RecordKeys.parentPubkey, RecordKeys.nodeAddr]

/-- The buffer is far larger than any record. -/
theorem entries_length (host : HostAnswers) {nodeAddr : String}
    (hnodeAddr : host.nodeAddr.getD [] = utf8 nodeAddr) :
    (encode (.map (host.entries nodeAddr))).length < 16384 := by
  have hattest := host.attest_fits
  have hparent := host.parent_fits
  have haddr := host.node_addr_fits
  rw [hnodeAddr] at haddr
  have hinteger : ∀ i : ℤ, (encode (.integer i)).length ≤ 9 := by
    intro i
    rw [encode]
    split_ifs
    · rw [head_length]
      exact headLength_le _
    · rw [head_length]
      exact headLength_le _
  have htrusts := hinteger (if host.trusts then 1 else 0)
  have hdepth := hinteger host.hops.toNat
  have hkey1 := hinteger RecordKeys.attestation
  have hkey2 := hinteger RecordKeys.trustsCaller
  have hkey3 := hinteger RecordKeys.depth
  have hkey4 := hinteger RecordKeys.parentPubkey
  have hkey5 := hinteger RecordKeys.nodeAddr
  have hmap := headLength_le (host.entries nodeAddr).length
  have hhead1 := headLength_le (host.signedAttestation.getD []).length
  have hhead4 := headLength_le (host.callerPubkey.getD []).length
  have hhead5 := headLength_le (utf8 nodeAddr).length
  simp only [HostAnswers.entries, recordMap] at hmap ⊢
  simp only [encode_map, encode_bytes, encode_text, encodeEntries, List.length_append, head_length,
    List.length_nil] at hmap ⊢
  omega

theorem items_start (host : HostAnswers) {nodeAddr : String}
    (hnodeAddr : host.nodeAddr.getD [] = utf8 nodeAddr) :
    (start host).items = encode (.map (host.entries nodeAddr)) := by
  have hlength := entries_length host hnodeAddr
  rw [start_eq_pushAll host hnodeAddr, Buffer.items_pushAll_of_fits]
  · rfl
  · rw [Buffer.items_empty, List.length_nil]
    omega

/-- The bytes handed to the daemon are the whole of one map with five keys, and
`netmap` reads from them what the program was told. -/
theorem record_read_back {fromSlice : Bytes → Option NetworkMap.Value} (hread : ReadsMaps fromSlice)
    (host : HostAnswers) {nodeAddr : String} (hnodeAddr : host.nodeAddr.getD [] = utf8 nodeAddr) :
    (start host).items.length < 16384 ∧
    CborItems.WellFormed (start host).items ∧
    decode 2 (start host).items = some (.map (host.entries nodeAddr)) ∧
    (host.entries nodeAddr).length = 5 ∧ ((host.entries nodeAddr).map Prod.fst).Nodup ∧
    parseRecord fromSlice (start host).items =
      some (host.signedAttestation.getD [], {
        parent := host.callerPubkey.getD []
        trustsCaller := host.trusts
        nodeAddr := if nodeAddr.isEmpty then none else some nodeAddr }) := by
  have hserializable := host.serializable hnodeAddr
  have haddr := host.node_addr_fits
  rw [hnodeAddr] at haddr
  rw [items_start host hnodeAddr]
  refine ⟨entries_length host hnodeAddr, CborItems.wellFormed_encode 2 _ hserializable,
    decode_encode 2 _ hserializable, rfl, ?_, ?_⟩
  · simp [HostAnswers.entries, recordMap, RecordKeys.attestation, RecordKeys.trustsCaller,
      RecordKeys.depth, RecordKeys.parentPubkey, RecordKeys.nodeAddr]
  · have hattest := host.attest_fits
    have hparent := host.parent_fits
    have hhops := host.hops.toNat_lt
    apply parseRecord_nodeRecord hread <;> omega

/-- What the daemon of the server answers to a program of Alice's. -/
def serverAnswers : HostAnswers where
  signedAttestation := some RowProvenance.serverAttestation
  trustsMe := 0
  depth := 1
  callerPubkey := some Identity.aliceKey
  nodeAddr := some (utf8 "192.168.1.20:2240")
  attest_fits := by decide +kernel
  parent_fits := by decide
  node_addr_fits := by decide

theorem server_record_read_back :
    (start serverAnswers).items.length < 16384 ∧
    parseRecord RowProvenance.readMaps (start serverAnswers).items =
      some (RowProvenance.serverAttestation,
        ⟨Identity.aliceKey, false, some "192.168.1.20:2240"⟩) := by
  obtain ⟨hlength, -, -, -, -, hparse⟩ := record_read_back RowProvenance.readMaps_readsMaps
    serverAnswers (show serverAnswers.nodeAddr.getD [] = utf8 "192.168.1.20:2240" from rfl)
  refine ⟨hlength, hparse.trans ?_⟩
  decide +kernel

end Weverywhere.RecordWriter
