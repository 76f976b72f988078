import Weverywhere.Cbor
import Weverywhere.Messages
import Mathlib.Data.List.AList

/-!
How `netmap` reads the records it collected (`src/src/command/netmap.rs`) and the
attestations in them (`src/src/discovery.rs`). `serde_cbor` is third-party: what
it decodes a byte string to is a parameter. The first record whose attestation
verifies under a key makes the entry of that key.
-/
namespace Weverywhere.NetworkMap

open ByteStrings Attestation Identity Messages

/-- The kinds of `serde_cbor::Value` inside a map that the readers tell apart. -/
inductive Field
  | integer (i : ℤ)
  | bytes (b : Bytes)
  | text (s : String)
  | other
  deriving DecidableEq

/-- A whole `serde_cbor::Value`; a map has every key once. -/
inductive Value
  | map (entries : List (Field × Field))
  | other

/-- `map.get(&Value::Integer(key))`. -/
def get (entries : List (Field × Field)) (key : ℤ) : Option Field :=
  (entries.find? fun kv => kv.1 == .integer key).map Prod.snd

def ofCborField : Cbor.Value → Field
  | .integer i => .integer i
  | .bytes b => .bytes b
  | .text s => .text s
  | .array _ => .other
  | .map _ => .other

/-- What standard items decode to, where no key comes twice. -/
def ofCbor : Cbor.Value → Value
  | .map entries => .map (entries.map fun (k, v) => (ofCborField k, ofCborField v))
  | _ => .other

/-! `String::from_utf8_lossy`, one byte after the other. -/

/-- The continuation bytes still due, each with its bounds, and the bits so far. -/
structure Utf8State where
  due : List (UInt8 × UInt8)
  bits : ℕ

def Utf8State.idle : Utf8State := ⟨[], 0⟩

def replacement : Char := '\uFFFD'

/-- The first byte of a character tells how many follow; what cannot be one is
replaced. -/
def utf8First (b : UInt8) : List Char × Utf8State :=
  let tail := ((0x80 : UInt8), (0xBF : UInt8))
  if b < 0x80 then ([Char.ofNat b.toNat], .idle)
  else if 0xC2 ≤ b ∧ b ≤ 0xDF then ([], ⟨[tail], b.toNat % 32⟩)
  else if b = 0xE0 then ([], ⟨[(0xA0, 0xBF), tail], 0⟩)
  else if b = 0xED then ([], ⟨[(0x80, 0x9F), tail], b.toNat % 16⟩)
  else if 0xE1 ≤ b ∧ b ≤ 0xEF then ([], ⟨[tail, tail], b.toNat % 16⟩)
  else if b = 0xF0 then ([], ⟨[(0x90, 0xBF), tail, tail], 0⟩)
  else if 0xF1 ≤ b ∧ b ≤ 0xF3 then ([], ⟨[tail, tail, tail], b.toNat % 8⟩)
  else if b = 0xF4 then ([], ⟨[(0x80, 0x8F), tail, tail], b.toNat % 8⟩)
  else ([replacement], .idle)

/-- A byte that does not continue the character replaces what there is of it and
is looked at again as a first byte. -/
def utf8Next (s : Utf8State) (b : UInt8) : List Char × Utf8State :=
  match s.due with
  | [] => utf8First b
  | (low, high) :: due =>
    if low ≤ b ∧ b ≤ high then
      let bits := s.bits * 64 + b.toNat % 64
      if due.isEmpty then ([Char.ofNat bits], .idle) else ([], ⟨due, bits⟩)
    else
      let (chars, s) := utf8First b
      (replacement :: chars, s)

def utf8Lossy (s : Utf8State) : Bytes → List Char
  | [] => if s.due.isEmpty then [] else [replacement]
  | b :: rest =>
    let (chars, s) := utf8Next s b
    chars ++ utf8Lossy s rest

def fromUtf8Lossy (bytes : Bytes) : String := String.ofList (utf8Lossy .idle bytes)

/-! Records. -/

namespace RecordKeys

def attestation : ℤ := 1
def trustsCaller : ℤ := 2
def depth : ℤ := 3
def parentPubkey : ℤ := 4
def nodeAddr : ℤ := 5

end RecordKeys

namespace AttestKeys

def hostname : ℤ := 1
def pubkey : ℤ := 2
def epochS : ℤ := 3
def signature : ℤ := 4

end AttestKeys

/-- What a record says of its node besides the attestation. -/
structure Placement where
  parent : Bytes
  trustsCaller : Bool
  nodeAddr : Option String
  deriving DecidableEq

variable (fromSlice : Bytes → Option Value)

def parseRecord (bytes : Bytes) : Option (Bytes × Placement) :=
  match fromSlice bytes with
  | some (.map entries) =>
    match get entries RecordKeys.attestation with
    | some (.bytes attestation) =>
        some (attestation, {
          parent :=
            match get entries RecordKeys.parentPubkey with
            | some (.bytes b) => b
            | _ => []
          trustsCaller := get entries RecordKeys.trustsCaller == some (.integer 1)
          nodeAddr :=
            match get entries RecordKeys.nodeAddr with
            | some (.text s) => if s.isEmpty then none else some s
            | some (.bytes b) => if b.isEmpty then none else some (fromUtf8Lossy b)
            | _ => none })
    | _ => none
  | _ => none

structure VerifiedNode where
  hostname : String
  pubkey : Bytes
  epochS : UInt64
  deriving DecidableEq

/-- Why an attestation is refused. -/
inductive AttestationError
  | cborDecode
  | notAMap
  | missingHostname
  | missingPubkey
  | epoch
  | missingSignature
  | signature (e : SignatureError)
  deriving DecidableEq

def asMap : Option Value → Except AttestationError (List (Field × Field))
  | some (.map entries) => .ok entries
  | some .other => .error .notAMap
  | none => .error .cborDecode

def asText (missing : AttestationError) : Option Field → Except AttestationError String
  | some (.text s) => .ok s
  | _ => .error missing

def asBytes (missing : AttestationError) : Option Field → Except AttestationError Bytes
  | some (.bytes b) => .ok b
  | _ => .error missing

/-- `Some(Value::Integer(i)) if *i >= 0 => *i as u64`. -/
def asEpoch : Option Field → Except AttestationError UInt64
  | some (.integer i) => if 0 ≤ i then .ok (UInt64.ofNat i.toNat) else .error .epoch
  | _ => .error .epoch

def verifyAttestationCbor (c : Crypto) (bytes : Bytes) : Except AttestationError VerifiedNode := do
  let entries ← asMap (fromSlice bytes)
  let hostname ← asText .missingHostname (get entries AttestKeys.hostname)
  let pubkey ← asBytes .missingPubkey (get entries AttestKeys.pubkey)
  let epochS ← asEpoch (get entries AttestKeys.epochS)
  let signature ← asBytes .missingSignature (get entries AttestKeys.signature)
  match verifyDigest c pubkey (attestationSigningBytes hostname pubkey epochS) signature with
  | .ok () => .ok ⟨hostname, pubkey, epochS⟩
  | .error e => .error (.signature e)

/-- The signature field of an attestation, if it is there. -/
def signatureOf (bytes : Bytes) : Option Bytes :=
  match fromSlice bytes with
  | some (.map entries) => (asBytes .missingSignature (get entries AttestKeys.signature)).toOption
  | _ => none

theorem bind_eq_ok {ε α β : Type} {x : Except ε α} {f : α → Except ε β} {b : β}
    (h : x >>= f = .ok b) : ∃ a, x = .ok a ∧ f a = .ok b := by
  cases x with
  | error e => cases h
  | ok a => exact ⟨a, rfl, h⟩

theorem asMap_eq_ok {value : Option Value} {entries : List (Field × Field)}
    (h : asMap value = .ok entries) : value = some (.map entries) := by
  unfold asMap at h
  split at h <;> cases h
  rfl

/-- An accepted attestation carries a signature that verifies under its own key
for its own fields. -/
theorem verifyAttestationCbor_eq_ok {c : Crypto} {bytes : Bytes} {vn : VerifiedNode}
    (h : verifyAttestationCbor fromSlice c bytes = .ok vn) :
    vn.pubkey.length = 32 ∧ ∃ signature, signatureOf fromSlice bytes = some signature ∧
      c.verify vn.pubkey (attestationSigningBytes vn.hostname vn.pubkey vn.epochS) signature =
        true := by
  obtain ⟨entries, hentries, h⟩ := bind_eq_ok h
  obtain ⟨hostname, -, h⟩ := bind_eq_ok h
  obtain ⟨pubkey, -, h⟩ := bind_eq_ok h
  obtain ⟨epochS, -, h⟩ := bind_eq_ok h
  obtain ⟨signature, hsignature, h⟩ := bind_eq_ok h
  have hfield : signatureOf fromSlice bytes = some signature := by
    rw [signatureOf, asMap_eq_ok hentries]
    simp only [hsignature]
    rfl
  cases hverify : verifyDigest c pubkey (attestationSigningBytes hostname pubkey epochS)
      signature with
  | error e =>
    rw [hverify] at h
    cases h
  | ok u =>
    rw [hverify] at h
    cases h
    have hchecks := (verifyDigest_ok_iff c _ _ _).mp hverify
    exact ⟨hchecks.1, signature, hfield, hchecks.2.2.2⟩

/-! The assembly. -/

def attestationWindowHalfS : ℕ := 30

def attestationTimeOk (epochS nowEpochS : UInt64) : Bool :=
  let diff := if nowEpochS < epochS then epochS - nowEpochS else nowEpochS - epochS
  diff.toNat ≤ attestationWindowHalfS

structure Node where
  pubkey : Bytes
  hostname : String
  placement : Placement
  responder : SocketAddr
  sigValid : Bool
  timeOk : Bool
  deriving DecidableEq

abbrev Nodes := AList fun _ : Bytes => Node

/-- One turn of the first loop of `print_network_map`. -/
def insertReply (c : Crypto) (now : UInt64) (nodes : Nodes) (reply : SocketAddr × Bytes) : Nodes :=
  match parseRecord fromSlice reply.2 with
  | none => nodes
  | some (attestation, placement) =>
    match verifyAttestationCbor fromSlice c attestation with
    | .error _ => nodes
    | .ok vn =>
      -- `entry(..).or_insert(..)`: the entry that is there stays
      if (nodes.lookup vn.pubkey).isSome then nodes
      else nodes.insert vn.pubkey {
        pubkey := vn.pubkey
        hostname := vn.hostname
        placement := placement
        responder := reply.1
        sigValid := true
        timeOk := attestationTimeOk vn.epochS now }

def assemble (c : Crypto) (now : UInt64) (replies : List (SocketAddr × Bytes)) : Nodes :=
  replies.foldl (insertReply fromSlice c now) ∅

/-- The reply whose record speaks for the key `v`, if it does. -/
def speaksFor (c : Crypto) (v : Bytes) (cbor : Bytes) : Option (VerifiedNode × Placement) :=
  match parseRecord fromSlice cbor with
  | none => none
  | some (attestation, placement) =>
    match verifyAttestationCbor fromSlice c attestation with
    | .error _ => none
    | .ok vn => if vn.pubkey = v then some (vn, placement) else none

/-- The entry a reply makes for the key `v` it speaks for. -/
def entryFor (now : UInt64) (v : Bytes) (responder : SocketAddr)
    (spoken : VerifiedNode × Placement) : Node where
  pubkey := v
  hostname := spoken.1.hostname
  placement := spoken.2
  responder := responder
  sigValid := true
  timeOk := attestationTimeOk spoken.1.epochS now

/-- One more reply changes the entry of `v` only where there is none yet and the
reply speaks for `v`. -/
theorem lookup_insertReply (c : Crypto) (now : UInt64) (nodes : Nodes)
    (reply : SocketAddr × Bytes) (v : Bytes) :
    (insertReply fromSlice c now nodes reply).lookup v =
      (nodes.lookup v).or ((speaksFor fromSlice c v reply.2).map (entryFor now v reply.1)) := by
  unfold insertReply speaksFor
  cases parseRecord fromSlice reply.2 with
  | none => simp
  | some record =>
    obtain ⟨attestation, placement⟩ := record
    cases hverify : verifyAttestationCbor fromSlice c attestation with
    | error e => simp [hverify]
    | ok vn =>
      simp only [hverify]
      by_cases hv : vn.pubkey = v
      · subst hv
        cases hlookup : nodes.lookup vn.pubkey with
        | none => simp [entryFor]
        | some node => simp [hlookup]
      · split_ifs with hfound
        · simp
        · rw [AList.lookup_insert_ne (Ne.symm hv)]
          simp

/-- The entry of a key comes from the first reply that speaks for it. -/
theorem lookup_assemble (c : Crypto) (now : UInt64) (replies : List (SocketAddr × Bytes))
    (v : Bytes) :
    (assemble fromSlice c now replies).lookup v =
      replies.findSome? fun reply =>
        (speaksFor fromSlice c v reply.2).map (entryFor now v reply.1) := by
  have hfold : ∀ nodes : Nodes, (replies.foldl (insertReply fromSlice c now) nodes).lookup v =
      (nodes.lookup v).or (replies.findSome? fun reply =>
        (speaksFor fromSlice c v reply.2).map (entryFor now v reply.1)) := by
    induction replies with
    | nil => simp
    | cons reply rest ih =>
      intro nodes
      rw [List.foldl_cons, ih, lookup_insertReply, List.findSome?_cons, Option.or_assoc]
      cases speaksFor fromSlice c v reply.2 <;> simp
  exact hfold ∅

theorem placement_lookup_assemble (c : Crypto) (now : UInt64)
    (replies : List (SocketAddr × Bytes)) (v : Bytes) :
    ((assemble fromSlice c now replies).lookup v).map Node.placement =
      (replies.findSome? fun reply => speaksFor fromSlice c v reply.2).map Prod.snd := by
  rw [lookup_assemble, List.map_findSome?, List.map_findSome?]
  congr 1
  funext reply
  simp [Function.comp_def, entryFor]

/-- What a reply says for a key, its attestation says under that key. -/
theorem speaksFor_eq_some {c : Crypto} {v cbor : Bytes} {vn : VerifiedNode}
    {placement : Placement} (h : speaksFor fromSlice c v cbor = some (vn, placement)) :
    vn.pubkey = v ∧ ∃ attestation, parseRecord fromSlice cbor = some (attestation, placement) ∧
      verifyAttestationCbor fromSlice c attestation = .ok vn := by
  unfold speaksFor at h
  cases hrecord : parseRecord fromSlice cbor with
  | none => simp [hrecord] at h
  | some record =>
    obtain ⟨attestation, placement'⟩ := record
    cases hverify : verifyAttestationCbor fromSlice c attestation with
    | error e => simp [hrecord, hverify] at h
    | ok vn' =>
      simp only [hrecord, hverify, Option.ite_none_right_eq_some, Option.some.injEq,
        Prod.mk.injEq] at h
      obtain ⟨hkey, rfl, rfl⟩ := h
      exact ⟨hkey, attestation, rfl, hverify⟩

/-! The writing side. -/

def attestationMap (hostname : String) (pubkey : Bytes) (epochS : UInt64) (signature : Bytes) :
    List (Cbor.Value × Cbor.Value) :=
  [(.integer AttestKeys.hostname, .text hostname),
    (.integer AttestKeys.pubkey, .bytes pubkey),
    (.integer AttestKeys.epochS, .integer epochS.toNat),
    (.integer AttestKeys.signature, .bytes signature)]

def buildAttestationCbor (hostname : String) (pubkey : Bytes) (epochS : UInt64)
    (signature : Bytes) : Bytes :=
  Cbor.encode (.map (attestationMap hostname pubkey epochS signature))

/-- `host::signed_attestation`, before the bytes are cut to the guest's buffer. -/
def signedAttestation (c : Crypto) (signingKey : Option Bytes) (hostname : String)
    (ourPubkey : Bytes) (epoch : UInt64) : Option Bytes :=
  signingKey.map fun sk => buildAttestationCbor hostname ourPubkey epoch
    (c.sign sk (attestationSigningBytes hostname ourPubkey epoch))

def recordMap (attestation : Bytes) (trusts : Bool) (depth : ℕ) (parent : Bytes)
    (nodeAddr : String) : List (Cbor.Value × Cbor.Value) :=
  [(.integer RecordKeys.attestation, .bytes attestation),
    (.integer RecordKeys.trustsCaller, .integer (if trusts then 1 else 0)),
    (.integer RecordKeys.depth, .integer depth),
    (.integer RecordKeys.parentPubkey, .bytes parent),
    (.integer RecordKeys.nodeAddr, .text nodeAddr)]

/-- The record `network-map.c` hands to `host::return_map`. -/
def nodeRecord (attestation : Bytes) (trusts : Bool) (depth : ℕ) (parent : Bytes)
    (nodeAddr : String) : Bytes :=
  Cbor.encode (.map (recordMap attestation trusts depth parent nodeAddr))

/-- A decoder that reads standard flat maps without repeated keys. -/
def ReadsMaps : Prop :=
  ∀ entries, (entries.map Prod.fst).Nodup → Cbor.Serializable 2 (.map entries) →
    fromSlice (Cbor.encode (.map entries)) = some (ofCbor (.map entries))

variable {fromSlice}

/-- Both sides build the same signing bytes: what was built is checked against
the bytes its signer signed. -/
theorem verifyAttestationCbor_build (hread : ReadsMaps fromSlice) (c : Crypto)
    {hostname : String} {pubkey signature : Bytes} {epochS : UInt64}
    (hhostname : (utf8 hostname).length < 2 ^ 64) (hpubkey : pubkey.length < 2 ^ 64)
    (hsignature : signature.length < 2 ^ 64)
    (hverify : verifyDigest c pubkey (attestationSigningBytes hostname pubkey epochS) signature =
      .ok ()) :
    verifyAttestationCbor fromSlice c (buildAttestationCbor hostname pubkey epochS signature) =
      .ok ⟨hostname, pubkey, epochS⟩ := by
  have hkeys : ((attestationMap hostname pubkey epochS signature).map Prod.fst).Nodup := by
    simp [attestationMap, AttestKeys.hostname, AttestKeys.pubkey, AttestKeys.epochS,
      AttestKeys.signature]
  have hserializable :
      Cbor.Serializable 2 (.map (attestationMap hostname pubkey epochS signature)) := by
    have hepoch := epochS.toNat_lt
    simp [Cbor.Serializable, attestationMap, AttestKeys.hostname, AttestKeys.pubkey,
      AttestKeys.epochS, AttestKeys.signature]
    omega
  unfold verifyAttestationCbor buildAttestationCbor
  rw [hread _ hkeys hserializable]
  simp [attestationMap, ofCbor, ofCborField, asMap, asText, asBytes, asEpoch, get,
    AttestKeys.hostname, AttestKeys.pubkey, AttestKeys.epochS, AttestKeys.signature, hverify, bind,
    Except.bind]

/-- The origin reads the fields the program wrote. -/
theorem parseRecord_nodeRecord (hread : ReadsMaps fromSlice) {attestation parent : Bytes}
    {trusts : Bool} {depth : ℕ} {nodeAddr : String} (hattestation : attestation.length < 2 ^ 64)
    (hdepth : depth < 2 ^ 64) (hparent : parent.length < 2 ^ 64)
    (haddr : (utf8 nodeAddr).length < 2 ^ 64) :
    parseRecord fromSlice (nodeRecord attestation trusts depth parent nodeAddr) =
      some (attestation, ⟨parent, trusts, if nodeAddr.isEmpty then none else some nodeAddr⟩) := by
  have hkeys : ((recordMap attestation trusts depth parent nodeAddr).map Prod.fst).Nodup := by
    simp [recordMap, RecordKeys.attestation, RecordKeys.trustsCaller, RecordKeys.depth,
      RecordKeys.parentPubkey, RecordKeys.nodeAddr]
  have hserializable :
      Cbor.Serializable 2 (.map (recordMap attestation trusts depth parent nodeAddr)) := by
    simp [Cbor.Serializable, recordMap, RecordKeys.attestation, RecordKeys.trustsCaller,
      RecordKeys.depth, RecordKeys.parentPubkey, RecordKeys.nodeAddr]
    split <;> omega
  unfold parseRecord nodeRecord
  rw [hread _ hkeys hserializable]
  cases trusts <;>
    simp [recordMap, ofCbor, ofCborField, get, RecordKeys.attestation, RecordKeys.trustsCaller,
      RecordKeys.depth, RecordKeys.parentPubkey, RecordKeys.nodeAddr]

end Weverywhere.NetworkMap
