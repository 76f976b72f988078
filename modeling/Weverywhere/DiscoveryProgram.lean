import Weverywhere.ArgsEcho
import Weverywhere.CborItems
import Weverywhere.DrawnAnswers
import Weverywhere.LocalAddress
import Weverywhere.PeerReports
import Weverywhere.RecordWriter
import Weverywhere.ReplyBuffers

/-!
`network-map.c` (`src/example-programs/network-map.c`) as a node runs it: the imports of
`src/src/executor/mod.rs` fill arrays in its memory, and what it writes behind one
another into the last of them goes to the caller as one datagram. An attestation that is
longer than its array is cut off there, and then verifies nowhere.
-/
namespace Weverywhere.DiscoveryProgram

open ByteStrings Attestation Identity Messages Node Discovery NetworkMap GuestMemory ArgsEcho
  LocalAddress PeerReports RelayWorld ReplyBuffers WireFormat

/-! The node. -/

/-- `SocketAddr::ip` -/
def ipOf : SocketAddr → IpAddr
  | .v4 ip _ => .v4 ip
  | .v6 ip _ _ _ => .v6 ip

/-- `SocketAddr::new` -/
def socketAddrNew : IpAddr → UInt16 → SocketAddr
  | .v4 ip, port => .v4 ip port
  | .v6 ip, port => .v6 ip port 0 0

/-- What the imports know of the node and of the request it executes. -/
structure Host where
  hostname : String
  /-- The key of the node's identity, if it has one. -/
  signingKey : Option Bytes
  interfaces : List Interface
  port : UInt16
  callerAddr : SocketAddr
  running : RunningProgram
  /-- The clock when an attestation is asked for. -/
  epoch : UInt64
  /-- What the generator of the system fills a buffer with. -/
  entropy : (n : ℕ) → Vector UInt8 n

namespace Host

variable (c : Crypto) (host : Host)

/-- `identity_pubkey` -/
def ourPubkey : Bytes := (host.signingKey.map c.verifyingKey).getD []

/-- The node's own address as the caller reaches it. -/
def nodeAddr : Option String :=
  (localAddrFacing host.interfaces (ipOf host.callerAddr)).map fun ip =>
    socketAddrToString (socketAddrNew ip host.port)

/-- What the node's key signs of it. -/
def attested : Bytes := attestationSigningBytes host.hostname (host.ourPubkey c) host.epoch

def attestation : Option Bytes :=
  signedAttestation c host.signingKey host.hostname (host.ourPubkey c) host.epoch

def random (g : Guest) (ptr len : Int32) : Option (Guest × Int32) :=
  copyOut g ptr len (host.entropy len.toNatClampNeg).toList

def signedAttestationInto (g : Guest) (ptr cap : Int32) : Option (Guest × Int32) :=
  match host.attestation c with
  | some cbor => copyOut g ptr cap cbor
  | none => some (g, -1)

def callerPubkeyInto (g : Guest) (ptr cap : Int32) : Option (Guest × Int32) :=
  copyOut g ptr cap host.running.callerPubkey

def nodeAddrInto (g : Guest) (ptr cap : Int32) : Option (Guest × Int32) :=
  match host.nodeAddr with
  | some s => copyOut g ptr cap (utf8 s)
  | none => some (g, -1)

end Host

/-- `host::set_forward_uuid`; anything but 16 bytes is ignored. -/
def setForwardUuid (g : Guest) (slot : ExecReturn) (ptr len : Int32) : Option ExecReturn :=
  (readGuestBytes g.memory ptr len).result.map fun bytes =>
    if h : bytes.length = 16 then { slot with forwardUuid := some ⟨bytes.toArray, h⟩ } else slot

/-- `host::return_map` -/
def returnMap (g : Guest) (slot : ExecReturn) (ptr len : Int32) : Option ExecReturn :=
  (readGuestBytes g.memory ptr len).result.map fun bytes => { slot with map := some bytes }

/-! The program. -/

/-- Where the linker has put the five arrays in a memory of `size` bytes. -/
structure Arrays (size : ℕ) where
  out : ℕ
  attest : ℕ
  parent : ℕ
  uuid : ℕ
  nodeAddr : ℕ
  within : ∀ a ∈ [(out, 16384), (attest, 1024), (parent, 64), (uuid, 16), (nodeAddr, 64)],
    a.1 + a.2 ≤ size
  apart : [(out, 16384), (attest, 1024), (parent, 64), (uuid, 16), (nodeAddr, 64)].Pairwise
    fun a b => a.1 + a.2 ≤ b.1 ∨ b.1 + b.2 ≤ a.1
  size_le : size ≤ 2 ^ 31

/-- The first `len` bytes of an array. What is read behind its end is not defined. -/
def front (g : Guest) (start room : ℕ) (len : Int32) :
    Option {bytes : Bytes // bytes.length ≤ room} :=
  (g.memory.get start (start + len.toNatClampNeg)).bind fun bytes =>
    if h : bytes.length ≤ room then some ⟨bytes, h⟩ else none

section Program

variable (c : Crypto) (host : Host) {size : ℕ} (a : Arrays size)

/-- The record, written into `out`. -/
def record (g : Guest) (alen plen nlen : Int32) : Option RecordWriter.Out := do
  let attestation ← front g a.attest 1024 (orZero alen)
  let parent ← front g a.parent 64 (orZero plen)
  let addr ← front g a.nodeAddr 64 (orZero nlen)
  some (RecordWriter.start {
    signedAttestation := some attestation.1
    trustsMe := Int32.ofNat (Executor.trustsMe host.running)
    depth := hostDepth host.running
    callerPubkey := some parent.1
    nodeAddr := some addr.1
    attest_fits := attestation.2
    parent_fits := parent.2
    node_addr_fits := addr.2 })

/-- `_start`: what it leaves in the two slots, nothing if it traps. No array has a part
of another, so `out` may be written at once. -/
def start (memory : LinearMemory) : Option ExecReturn := do
  let (g, _) ← host.random ⟨memory, []⟩ (Int32.ofNat a.uuid) 16
  let slot ← setForwardUuid g ⟨none, none⟩ (Int32.ofNat a.uuid) 16
  let (g, alen) ← host.signedAttestationInto c g (Int32.ofNat a.attest) 1024
  let (g, plen) ← host.callerPubkeyInto g (Int32.ofNat a.parent) 64
  let (g, nlen) ← host.nodeAddrInto g (Int32.ofNat a.nodeAddr) 64
  let out ← record host a g alen plen nlen
  let g := { g with memory := g.memory.copyFromSlice a.out out.items }
  returnMap g slot (Int32.ofNat a.out) (Int32.ofNat out.items.length)

end Program

/-- What netmap is to read of the node. -/
def Host.placement (host : Host) : Placement :=
  ⟨host.running.callerPubkey.take 64, host.running.programIsTrusted, host.nodeAddr⟩

/-- The size of the attestation of a node that has a key. -/
def Host.attestationLength (host : Host) : ℕ :=
  105 + Cbor.headLength (utf8 host.hostname).length + (utf8 host.hostname).length +
    Cbor.headLength host.epoch.toNat

/-! The text of an address fits its array. -/

theorem length_ipv4ToString (ip : Configuration.Ipv4Addr) :
    (Configuration.ipv4ToString ip).toList.length ≤ 15 := by
  have hoctet : ∀ n : ℕ, (Nat.toDigits 10 (n % 256)).length ≤ 3 := by
    intro n
    rw [Nat.length_toDigits_le_iff (by omega) (by omega)]
    have hlt := Nat.mod_lt n (show 256 > 0 by omega)
    omega
  have hone := hoctet (ip.toNat / 256 ^ (3 - 0))
  have htwo := hoctet (ip.toNat / 256 ^ (3 - 1))
  have hthree := hoctet (ip.toNat / 256 ^ (3 - 2))
  have hfour := hoctet (ip.toNat / 256 ^ (3 - 3))
  rw [Configuration.ipv4ToString, String.toList_ofList]
  simp only [List.length_append, List.length_cons]
  omega

theorem length_formatSegments (segments : List ℕ) (h : ∀ g ∈ segments, g < 65536) :
    (Configuration.formatSegments segments).length ≤ 5 * segments.length := by
  induction segments with
  | nil => exact Nat.le_refl _
  | cons g rest ih =>
    have hdigits : (Nat.toDigits 16 g).length ≤ 4 :=
      (Nat.length_toDigits_le_iff (by omega) (by omega)).mpr (h g List.mem_cons_self)
    have hrest := ih fun x hx => h x (List.mem_cons_of_mem g hx)
    rw [Configuration.formatSegments] at hrest ⊢
    cases rest with
    | nil =>
      simp only [List.map_cons, List.map_nil, List.intersperse_singleton, List.flatten_cons,
        List.flatten_nil, List.append_nil, List.length_cons, List.length_nil]
      omega
    | cons x rest =>
      simp only [List.map_cons, List.intersperse_cons_cons, List.flatten_cons, List.length_append,
        List.length_cons, List.length_nil] at hrest ⊢
      omega

theorem length_ipv6ToString (ip : Configuration.Ipv6Addr) :
    (Configuration.ipv6ToString ip).toList.length ≤ 42 := by
  have hall : ∀ g ∈ Configuration.segments ip, g < 65536 := fun g hg => IpAddresses.segments_lt hg
  have hlength := IpAddresses.segments_length ip
  unfold Configuration.ipv6ToString
  dsimp only
  split_ifs with hmapped hrun
  · have hipv4 := length_ipv4ToString (ip.setWidth 32)
    have hprefix : "::ffff:".toList.length = 7 := rfl
    rw [String.toList_ofList, List.length_append, hprefix]
    omega
  · -- the two parts have at most eight segments
    have hbefore := length_formatSegments ((Configuration.segments ip).take
      (Configuration.longestZeroRun (Configuration.segments ip)).1)
      fun g hg => hall g (List.mem_of_mem_take hg)
    have hafter := length_formatSegments ((Configuration.segments ip).drop
      ((Configuration.longestZeroRun (Configuration.segments ip)).1 +
        (Configuration.longestZeroRun (Configuration.segments ip)).2))
      fun g hg => hall g (List.mem_of_mem_drop hg)
    have hcolons : "::".toList.length = 2 := rfl
    rw [List.length_take, hlength] at hbefore
    rw [List.length_drop, hlength] at hafter
    rw [String.toList_ofList, List.length_append, List.length_append, hcolons]
    omega
  · have hformat := length_formatSegments _ hall
    rw [String.toList_ofList]
    omega

theorem utf8Size_of_ipChar {ch : Char} (h : IpAddresses.IpChar ch) : ch.utf8Size = 1 := by
  rw [Char.utf8Size_eq_one_iff]
  have hascii : ∀ top : Char, top.val ≤ 127 → ch ≤ top → ch.val ≤ 127 :=
    fun top htop hle => UInt32.le_trans hle htop
  rcases h with hdigit | rfl | rfl
  · simp only [Numerals.isDigit, Numerals.toDigit, Numerals.hexValue] at hdigit
    split_ifs at hdigit with hdecimal hlower hupper
    · exact hascii '9' (by decide) hdecimal.2
    · exact hascii 'f' (by decide) hlower.2
    · exact hascii 'F' (by decide) hupper.2
    · cases hdigit
  · decide
  · decide

theorem length_utf8_ofList {chars : List Char} (h : ∀ ch ∈ chars, ch.utf8Size = 1) :
    (utf8 (String.ofList chars)).length = chars.length := by
  rw [utf8_ofList, List.length_flatMap]
  induction chars with
  | nil => rfl
  | cons ch chars ih =>
    have hrest := ih fun x hx => h x (List.mem_cons_of_mem ch hx)
    rw [List.map_cons, List.sum_cons, hrest, String.length_utf8EncodeChar,
      h ch List.mem_cons_self, List.length_cons, Nat.add_comm]

theorem length_socketAddrNew (ip : IpAddr) (port : UInt16) :
    (utf8 (socketAddrToString (socketAddrNew ip port))).length ≤ 64 := by
  have hport : (Nat.toDigits 10 port.toNat).length ≤ 5 := by
    rw [Nat.length_toDigits_le_iff (by omega) (by omega)]
    have hlt := port.toNat_lt
    omega
  have hdigits : ∀ ch ∈ Nat.toDigits 10 port.toNat, ch.utf8Size = 1 :=
    fun ch hch => utf8Size_of_ipChar (IpAddresses.ipChar_toDigits (by omega) (by omega) hch)
  rw [socketAddrToString]
  cases ip with
  | v4 ip =>
    have hip := length_ipv4ToString ip
    rw [length_utf8_ofList]
    · simp only [socketAddrNew, socketAddrChars, List.length_append, List.length_cons]
      omega
    · intro ch hch
      simp only [socketAddrNew, socketAddrChars, List.mem_append, List.mem_cons] at hch
      rcases hch with h | rfl | h
      · exact utf8Size_of_ipChar (IpAddresses.ipChar_ipv4ToString ip ch h)
      · decide
      · exact hdigits ch h
  | v6 ip =>
    have hip := length_ipv6ToString ip
    rw [length_utf8_ofList]
    · simp only [socketAddrNew, socketAddrChars, if_pos, List.length_append, List.length_cons,
        List.length_nil]
      omega
    · intro ch hch
      simp only [socketAddrNew, socketAddrChars, if_pos, List.mem_append, List.mem_cons,
        List.not_mem_nil, false_or] at hch
      rcases hch with rfl | h | rfl | rfl | h
      · decide
      · exact utf8Size_of_ipChar (IpAddresses.ipChar_ipv6ToString ip ch h)
      · decide
      · decide
      · exact hdigits ch h

theorem length_nodeAddr (host : Host) : (utf8 (host.nodeAddr.getD "")).length ≤ 64 := by
  cases hfacing : localAddrFacing host.interfaces (ipOf host.callerAddr) with
  | none =>
    have hempty : (utf8 "").length ≤ 64 := by decide
    rw [Host.nodeAddr, hfacing]
    exact hempty
  | some ip =>
    rw [Host.nodeAddr, hfacing]
    exact length_socketAddrNew ip host.port

/-! The arrays. -/

/-- What a call has left: as much of its answer as the array takes, under the length it
returned, and everything else as it was. -/
structure Filled (g g' : Guest) (start room : ℕ) (len : Int32) (src : Bytes) : Prop where
  size : g'.memory.bytes.length = g.memory.bytes.length
  len_le : (orZero len).toNatClampNeg ≤ room
  array : g'.memory.get start (start + (orZero len).toNatClampNeg) = some (src.take room)
  apart : ∀ start' k, start' + k ≤ start ∨ start + room ≤ start' →
    g'.memory.get start' (start' + k) = g.memory.get start' (start' + k)

section Arrays

variable (g : Guest) (start room : ℕ) (hstart : start < 2 ^ 31) (hroom : room < 2 ^ 31)
  (hfits : start + room ≤ g.memory.bytes.length)

include hstart hroom hfits

theorem filled_copyOut (src : Bytes) :
    ∃ g' len, copyOut g (Int32.ofNat start) (Int32.ofNat room) src = some (g', len) ∧
      Filled g g' start room len src := by
  obtain ⟨g', hcopy, hcopied⟩ := copyOut_eq g start room hstart hroom hfits src
  have hlength : (src.take room).length < 2 ^ 31 := by
    rw [List.length_take]
    omega
  refine ⟨g', _, hcopy, hcopied.size, ?_, ?_, hcopied.apart⟩
  · rw [orZero_ofNat hlength, Int32.toNatClampNeg_ofNat_of_lt hlength]
    exact List.length_take_le _ _
  · rw [orZero_ofNat hlength, Int32.toNatClampNeg_ofNat_of_lt hlength]
    exact hcopied.buffer

omit hstart hroom in
theorem filled_none : Filled g g start room (-1) [] where
  size := rfl
  len_le := Nat.zero_le room
  array := by
    have hnothing : (orZero (-1)).toNatClampNeg = 0 := by decide
    rw [hnothing, List.take_nil]
    exact get_empty (by omega)
  apart := fun _ _ _ => rfl

/-- An import that may have nothing to say. -/
theorem filled_option (call : Option (Guest × Int32)) (src : Option Bytes)
    (hcall : call = match src with
      | some bytes => copyOut g (Int32.ofNat start) (Int32.ofNat room) bytes
      | none => some (g, -1)) :
    ∃ g' len, call = some (g', len) ∧ Filled g g' start room len (src.getD []) := by
  cases src with
  | none => exact ⟨g, -1, hcall, filled_none g start room hfits⟩
  | some bytes =>
    obtain ⟨g', len, hcopy, hfilled⟩ := filled_copyOut g start room hstart hroom hfits bytes
    exact ⟨g', len, hcall.trans hcopy, hfilled⟩

end Arrays

theorem front_eq {g : Guest} {start room : ℕ} {len : Int32} {bytes : Bytes}
    (h : g.memory.get start (start + len.toNatClampNeg) = some bytes)
    (hlength : bytes.length ≤ room) : front g start room len = some ⟨bytes, hlength⟩ := by
  rw [front, h, Option.bind_some, dif_pos hlength]

theorem setForwardUuid_eq {g : Guest} (slot : ExecReturn) {start : ℕ} (uuid : Uuid)
    (hstart : start < 2 ^ 31) (h : g.memory.get start (start + 16) = some uuid.toList) :
    setForwardUuid g slot (Int32.ofNat start) 16 =
      some { slot with forwardUuid := some uuid } := by
  have hread : (readGuestBytes g.memory (Int32.ofNat start) 16).result = some uuid.toList :=
    readGuestBytes_eq hstart (show 16 < 2 ^ 31 by omega) h
  have hsame : (⟨uuid.toList.toArray, uuid.length_toList⟩ : Uuid) = uuid :=
    Vector.toArray_inj.mp Array.toArray_toList
  rw [setForwardUuid, hread, Option.map_some, dif_pos uuid.length_toList]
  exact congrArg (fun u => some { slot with forwardUuid := some u }) hsame

/-! The run. -/

section Run

variable (c : Crypto) (host : Host)

/-- What the program has got from its imports. -/
def Host.answers : RecordWriter.HostAnswers where
  signedAttestation := some (((host.attestation c).getD []).take 1024)
  trustsMe := Int32.ofNat (Executor.trustsMe host.running)
  depth := hostDepth host.running
  callerPubkey := some (host.running.callerPubkey.take 64)
  nodeAddr := some (((host.nodeAddr.map utf8).getD []).take 64)
  attest_fits := List.length_take_le _ _
  parent_fits := List.length_take_le _ _
  node_addr_fits := List.length_take_le _ _

variable {size : ℕ} (a : Arrays size) {memory : LinearMemory}

/-- In a memory of the size the linker has counted on, the program never traps. -/
theorem start_eq (hmemory : memory.bytes.length = size) :
    start c host a memory =
      some ⟨some (RecordWriter.start (host.answers c)).items, some (host.entropy 16)⟩ := by
  have hsize := a.size_le
  have hwithin := a.within
  have hapart := a.apart
  simp only [List.forall_mem_cons, List.not_mem_nil, false_imp_iff, implies_true,
    and_true] at hwithin
  simp only [List.pairwise_cons, List.forall_mem_cons, List.not_mem_nil, false_imp_iff,
    implies_true, and_true, List.Pairwise.nil] at hapart
  -- the UUID
  obtain ⟨g₁, hrandom, hcopied⟩ := copyOut_eq ⟨memory, []⟩ a.uuid 16 (by omega) (by omega)
    (by rw [hmemory]; omega) (host.entropy 16).toList
  have huuid : (host.entropy 16).toList.take 16 = (host.entropy 16).toList :=
    List.take_of_length_le (by simp)
  have hbuffer := hcopied.buffer
  rw [huuid, Vector.length_toList] at hbuffer
  have hsize₁ : g₁.memory.bytes.length = size := hcopied.size.trans hmemory
  have hset := setForwardUuid_eq ⟨none, none⟩ (host.entropy 16) (by omega) hbuffer
  -- the three facts
  obtain ⟨g₂, alen, hattest, hfilled₂⟩ := filled_option g₁ a.attest 1024 (by omega)
    (by omega) (by omega) (host.signedAttestationInto c g₁ (Int32.ofNat a.attest) 1024)
    (host.attestation c) rfl
  have hsize₂ := hfilled₂.size.trans hsize₁
  obtain ⟨g₃, plen, hparent, hfilled₃⟩ := filled_copyOut g₂ a.parent 64 (by omega)
    (by omega) (by omega) host.running.callerPubkey
  have hsize₃ := hfilled₃.size.trans hsize₂
  obtain ⟨g₄, nlen, haddr, hfilled₄⟩ := filled_option g₃ a.nodeAddr 64 (by omega)
    (by omega) (by omega) (host.nodeAddrInto g₃ (Int32.ofNat a.nodeAddr) 64)
    (host.nodeAddr.map utf8) (by rw [Host.nodeAddrInto]; cases host.nodeAddr <;> rfl)
  have hsize₄ := hfilled₄.size.trans hsize₃
  have hattestIn : g₄.memory.get a.attest (a.attest + (orZero alen).toNatClampNeg) =
      some (((host.attestation c).getD []).take 1024) := by
    have hlen := hfilled₂.len_le
    rw [hfilled₄.apart _ _ (by omega), hfilled₃.apart _ _ (by omega)]
    exact hfilled₂.array
  have hparentIn : g₄.memory.get a.parent (a.parent + (orZero plen).toNatClampNeg) =
      some (host.running.callerPubkey.take 64) := by
    have hlen := hfilled₃.len_le
    rw [hfilled₄.apart _ _ (by omega)]
    exact hfilled₃.array
  have hrecord : record host a g₄ alen plen nlen =
      some (RecordWriter.start (host.answers c)) := by
    rw [record, front_eq hattestIn (List.length_take_le _ _),
      front_eq hparentIn (List.length_take_le _ _),
      front_eq hfilled₄.array (List.length_take_le _ _)]
    rfl
  -- the record, read from where it was written
  have hout := (RecordWriter.start (host.answers c)).fits
  have hreturn : ∀ slot, returnMap { g₄ with
      memory := g₄.memory.copyFromSlice a.out (RecordWriter.start (host.answers c)).items } slot
      (Int32.ofNat a.out)
      (Int32.ofNat (RecordWriter.start (host.answers c)).items.length) =
        some { slot with map := some (RecordWriter.start (host.answers c)).items } := by
    intro slot
    rw [returnMap, readGuestBytes_eq (by omega) (by omega)
      (get_copyFromSlice g₄.memory (by omega)), Option.map_some]
  have hrandom' : host.random ⟨memory, []⟩ (Int32.ofNat a.uuid) 16 = some (g₁, _) := hrandom
  have hparent' : host.callerPubkeyInto g₂ (Int32.ofNat a.parent) 64 = some (g₃, plen) := hparent
  simp only [start, hrandom', hset, hattest, hparent', haddr, hrecord, hreturn,
    Option.bind_eq_bind, Option.bind_some]

end Run

/-! The record. -/

section Record

variable (c : Crypto) (host : Host)

theorem utf8_nodeAddr : ((host.answers c).nodeAddr.getD []) = utf8 (host.nodeAddr.getD "") := by
  have hshort := length_nodeAddr host
  have hsame : (host.nodeAddr.map utf8).getD [] = utf8 (host.nodeAddr.getD "") := by
    cases host.nodeAddr <;> rfl
  show ((host.nodeAddr.map utf8).getD []).take 64 = _
  rw [hsame, List.take_of_length_le hshort]

theorem trusts_answers : (host.answers c).trusts = host.running.programIsTrusted := by
  have hflag : ∀ t : Bool, decide (Int32.ofNat (if t then 1 else 0) ≠ 0) = t := by decide
  exact hflag host.running.programIsTrusted

theorem items_eq : (RecordWriter.start (host.answers c)).items =
    nodeRecord (((host.attestation c).getD []).take 1024) host.running.programIsTrusted
      (host.answers c).hops.toNat (host.running.callerPubkey.take 64) (host.nodeAddr.getD "") := by
  rw [RecordWriter.items_start _ (utf8_nodeAddr c host), RecordWriter.HostAnswers.entries,
    trusts_answers]
  rfl

theorem length_encode_key {key : ℤ} (hnonneg : 0 ≤ key) (hsmall : key < 24) :
    (Cbor.encode (.integer key)).length = 1 := by
  rw [Cbor.encode, if_pos hnonneg, Cbor.head_length, Cbor.headLength, if_pos (by omega)]

theorem nodeRecord_length_le {attestation parent : Bytes} {trusts : Bool} {depth : ℕ}
    {nodeAddr : String} (hattestation : attestation.length ≤ 1024) (hdepth : depth < 2 ^ 32)
    (hparent : parent.length ≤ 64) (haddr : (utf8 nodeAddr).length ≤ 64) :
    (nodeRecord attestation trusts depth parent nodeAddr).length ≤ 1171 := by
  have hhead : Cbor.headLength attestation.length ≤ 3 := by
    rw [Cbor.headLength]
    split_ifs <;> omega
  have hshort : ∀ n ≤ 64, Cbor.headLength n ≤ 2 := by
    intro n hn
    rw [Cbor.headLength]
    split_ifs <;> omega
  have hparentHead := hshort _ hparent
  have haddrHead := hshort _ haddr
  have hdepthItem : (Cbor.encode (.integer depth)).length ≤ 5 := by
    rw [Cbor.encode, if_pos (by omega), Cbor.head_length, Cbor.headLength]
    split_ifs <;> omega
  have htrusts : (Cbor.encode (.integer (if trusts then 1 else 0))).length = 1 := by
    cases trusts with
    | false => exact length_encode_key (by decide) (by decide)
    | true => exact length_encode_key (by decide) (by decide)
  have hkey : ∀ key ∈ [RecordKeys.attestation, RecordKeys.trustsCaller, RecordKeys.depth,
      RecordKeys.parentPubkey, RecordKeys.nodeAddr], (Cbor.encode (.integer key)).length = 1 := by
    have hall : ∀ key ∈ [RecordKeys.attestation, RecordKeys.trustsCaller, RecordKeys.depth,
      RecordKeys.parentPubkey, RecordKeys.nodeAddr], 0 ≤ key ∧ key < 24 := by decide
    intro key hkey
    exact length_encode_key (hall key hkey).1 (hall key hkey).2
  simp only [List.forall_mem_cons, List.not_mem_nil, false_imp_iff, implies_true,
    and_true] at hkey
  have hmap : Cbor.headLength 5 = 1 := rfl
  simp only [nodeRecord, recordMap, Cbor.encode_map, Cbor.encode_bytes, Cbor.encode_text,
    Cbor.encodeEntries, List.length_append, Cbor.head_length, List.length_cons, List.length_nil,
    hkey, htrusts, hmap]
  omega

theorem attestation_eq {signingKey : Bytes} (hsigning : host.signingKey = some signingKey) :
    (host.attestation c).getD [] = buildAttestationCbor host.hostname (host.ourPubkey c) host.epoch
      (c.sign signingKey (host.attested c)) := by
  rw [Host.attestation, signedAttestation, hsigning]
  rfl

/-- The whole attestation, of a key and a signature of ed25519. -/
theorem attestation_length {signingKey : Bytes} (hsigning : host.signingKey = some signingKey)
    (hkey : (host.ourPubkey c).length = 32)
    (hsignature : (c.sign signingKey (host.attested c)).length = 64) :
    ((host.attestation c).getD []).length = host.attestationLength := by
  have hepoch : (Cbor.encode (.integer host.epoch.toNat)).length =
      Cbor.headLength host.epoch.toNat := by
    rw [Cbor.encode, if_pos (by omega), Cbor.head_length, Int.toNat_natCast]
  have hkeys : ∀ key ∈ [AttestKeys.hostname, AttestKeys.pubkey, AttestKeys.epochS,
      AttestKeys.signature], (Cbor.encode (.integer key)).length = 1 := by
    have hall : ∀ key ∈ [AttestKeys.hostname, AttestKeys.pubkey, AttestKeys.epochS,
      AttestKeys.signature], 0 ≤ key ∧ key < 24 := by decide
    intro key hkey
    exact length_encode_key (hall key hkey).1 (hall key hkey).2
  simp only [List.forall_mem_cons, List.not_mem_nil, false_imp_iff, implies_true,
    and_true] at hkeys
  have hmap : Cbor.headLength 4 = 1 := rfl
  have hkeyHead : Cbor.headLength 32 = 2 := rfl
  have hsignatureHead : Cbor.headLength 64 = 2 := rfl
  rw [Host.attested] at hsignature
  simp only [Host.attestation, signedAttestation, hsigning, Option.map_some, Option.getD_some,
    buildAttestationCbor, attestationMap, Cbor.encode_map, Cbor.encode_bytes, Cbor.encode_text,
    Cbor.encodeEntries, List.length_append, Cbor.head_length, List.length_cons, List.length_nil,
    hkeys, hepoch, hmap, hkey, hsignature, hkeyHead, hsignatureHead, Host.attestationLength]
  omega

end Record

/-! The datagram. -/

theorem uvarint_length_le {n : ℕ} (h : n < 2 ^ 14) : (Bare.uvarint n).length ≤ 2 := by
  rw [Bare.uvarint, Bare.uvarintGroups]
  split_ifs with hshort
  · exact Nat.le_succ 1
  · obtain ⟨m, rfl⟩ : ∃ m, n = m + 1 := ⟨n - 1, by omega⟩
    rw [Bare.uvarintGroups, if_pos (by omega)]
    exact Nat.le_refl 2

theorem reply_length_le (fromPid : UInt64) (requestUuid : Uuid) {cbor : Bytes}
    (h : cbor.length ≤ 1171) :
    (toVec (.basicReturnMap fromPid requestUuid cbor)).length ≤ 1198 := by
  have htag : (Bare.uvarint 3).length = 1 := rfl
  have hlength := uvarint_length_le (n := cbor.length) (by omega)
  have hpid : (Bare.Codec.u64.write fromPid).length = 8 := leBytes_length 8 _
  simp only [toVec, returnFields, Bare.Codec.pair, Bare.Codec.fixed, Bare.Codec.bytes,
    List.length_append, Vector.length_toList, htag, hpid]
  omega

/-- Whoever waits for it reads it whole. -/
theorem readWhole_reply (fromPid : UInt64) (requestUuid : Uuid) {cbor : Bytes}
    (h : cbor.length ≤ 1171) (overlong : Overlong) :
    ReadWhole overlong (.basicReturnMap fromPid requestUuid cbor) := by
  have hlength := reply_length_le fromPid requestUuid h
  have hfits : Fits (.basicReturnMap fromPid requestUuid cbor) := fits_of_length (by omega)
  have hread : ∀ bufLen, 1198 ≤ bufLen → decodeReply bufLen overlong
      (toVec (.basicReturnMap fromPid requestUuid cbor)) =
        some (.basicReturnMap fromPid requestUuid cbor) :=
    fun bufLen hbuf => (decodeReply_toVec_iff hfits bufLen overlong).mpr (hlength.trans hbuf)
  exact ⟨hread _ (by decide), hread _ (by decide), hread _ (by decide), hread _ (by decide)⟩

/-! What netmap makes of it. -/

/-- A reader that takes nothing but whole items. -/
def ReadsWhole (fromSlice : Bytes → Option Value) : Prop :=
  ∀ bytes v, fromSlice bytes = some v → CborItems.WellFormed bytes

theorem not_wellFormed_take {v : Cbor.Value} {depth n : ℕ} (hv : Cbor.Serializable depth v)
    (hn : n < (Cbor.encode v).length) : ¬ CborItems.WellFormed ((Cbor.encode v).take n) := by
  intro h
  have hsame := h.eq_of_append (CborItems.wellFormed_encode depth v hv)
    (show (Cbor.encode v).take n ++ (Cbor.encode v).drop n = Cbor.encode v ++ [] by
      rw [List.take_append_drop, List.append_nil])
  have hlength := congrArg List.length hsame
  rw [List.length_take] at hlength
  omega

section Reading

variable {fromSlice : Bytes → Option Value} (hread : ReadsMaps fromSlice) (c : Crypto)
  (host : Host)

/-- A hostname fits into a `String`; what the key signs verifies under it. -/
structure Host.Genuine : Prop where
  hostname : (utf8 host.hostname).length < 2 ^ 64
  signs : ∀ signingKey ∈ host.signingKey,
    verifyDigest c (host.ourPubkey c) (host.attested c)
      (c.sign signingKey (host.attested c)) = .ok ()

variable {host} (hgenuine : host.Genuine c)

theorem nodeAddr_placement :
    (if (host.nodeAddr.getD "").isEmpty then none else some (host.nodeAddr.getD "")) =
      host.nodeAddr := by
  rw [Host.nodeAddr]
  cases localAddrFacing host.interfaces (ipOf host.callerAddr) with
  | none => rfl
  | some ip =>
    have hsome : socketAddrChars (socketAddrNew ip host.port) ≠ [] := by
      cases ip <;> simp [socketAddrNew, socketAddrChars]
    have hnonempty : (socketAddrToString (socketAddrNew ip host.port)).isEmpty = false := by
      rw [← Bool.not_eq_true, String.isEmpty_iff]
      intro hempty
      have hchars := congrArg String.toList hempty
      rw [socketAddrToString, String.toList_ofList] at hchars
      exact hsome hchars
    rw [Option.map_some, Option.getD_some, hnonempty]
    rfl

include hread in
theorem parseRecord_items :
    parseRecord fromSlice (RecordWriter.start (host.answers c)).items =
      some (((host.attestation c).getD []).take 1024, host.placement) := by
  have haddr := length_nodeAddr host
  have hattestation := List.length_take_le 1024 ((host.attestation c).getD [])
  have hparent := List.length_take_le 64 host.running.callerPubkey
  have hhops := (host.answers c).hops.toNat_lt
  have hparsed : parseRecord fromSlice (RecordWriter.start (host.answers c)).items =
      some (((host.attestation c).getD []).take 1024, ⟨host.running.callerPubkey.take 64,
        host.running.programIsTrusted,
        if (host.nodeAddr.getD "").isEmpty then none else some (host.nodeAddr.getD "")⟩) := by
    rw [items_eq]
    apply parseRecord_nodeRecord hread <;> omega
  rw [hparsed, nodeAddr_placement, Host.placement]

include hread hgenuine in
/-- An attestation that is in its array verifies. -/
theorem verify_whole {signingKey : Bytes} (hsigning : host.signingKey = some signingKey)
    (hlength : host.attestationLength ≤ 1024) :
    verifyAttestationCbor fromSlice c (((host.attestation c).getD []).take 1024) =
      .ok ⟨host.hostname, host.ourPubkey c, host.epoch⟩ := by
  have hverified := hgenuine.signs signingKey hsigning
  obtain ⟨hkey, -, hsignature, -⟩ := (verifyDigest_ok_iff c _ _ _).mp hverified
  have hsame := attestation_length c host hsigning hkey hsignature
  have hwhole := attestation_eq c host hsigning
  rw [List.take_of_length_le (by omega), hwhole]
  apply verifyAttestationCbor_build hread c hgenuine.hostname _ _ hverified
  · omega
  · omega

include hgenuine in
/-- One that is not, or that does not exist, is no item. -/
theorem verify_cut (hwhole : ReadsWhole fromSlice)
    (hcut : ¬ (host.signingKey.isSome = true ∧ host.attestationLength ≤ 1024)) :
    verifyAttestationCbor fromSlice c (((host.attestation c).getD []).take 1024) =
      .error .cborDecode := by
  suffices hnone : fromSlice (((host.attestation c).getD []).take 1024) = none by
    rw [verifyAttestationCbor, hnone]
    rfl
  rw [Option.eq_none_iff_forall_not_mem]
  intro v hv
  have hitem := hwhole _ v hv
  cases hsigning : host.signingKey with
  | none =>
    rw [Host.attestation, signedAttestation, hsigning] at hitem
    obtain ⟨b, rest, hstarts, -⟩ := hitem.starts
    cases hstarts
  | some signingKey =>
    have hverified := hgenuine.signs signingKey hsigning
    obtain ⟨hkey, -, hsignature, -⟩ := (verifyDigest_ok_iff c _ _ _).mp hverified
    have hsame := attestation_length c host hsigning hkey hsignature
    have hlong : ¬ host.attestationLength ≤ 1024 := fun h => hcut ⟨by rw [hsigning]; rfl, h⟩
    rw [Host.attestation, signedAttestation, hsigning] at hitem hsame
    have hserializable : Cbor.Serializable 2 (.map (attestationMap host.hostname
        (host.ourPubkey c) host.epoch (c.sign signingKey (host.attested c)))) := by
      have hhostname := hgenuine.hostname
      have hepoch := host.epoch.toNat_lt
      simp [Cbor.Serializable, attestationMap, AttestKeys.hostname, AttestKeys.pubkey,
        AttestKeys.epochS, AttestKeys.signature]
      omega
    exact not_wellFormed_take hserializable (by rw [← hsame] at hlong; exact Nat.not_le.mp hlong)
      hitem

end Reading

/-- What the drawing of a whole map assumes of a node holds of one that runs the
program. -/
theorem report_of_start {c : Crypto} {host : Host} (hgenuine : host.Genuine c)
    (hattests : host.signingKey.isSome = true ∧ host.attestationLength ≤ 1024)
    (hcaller : host.running.callerPubkey.length ≤ 64)
    (hvisited : host.running.data.visited.length < 2 ^ 8) {size : ℕ} (a : Arrays size)
    {memory : LinearMemory} (hmemory : memory.bytes.length = size) :
    ∃ r : DrawnAnswers.Report, r.Sound c ∧ r.hostname = host.hostname ∧
      r.pubkey = host.ourPubkey c ∧ start c host a memory =
        some ⟨some (r.record host.running.callerPubkey), some (host.entropy 16)⟩ := by
  obtain ⟨hkeyed, hlength⟩ := hattests
  obtain ⟨signingKey, hsigning⟩ := Option.isSome_iff_exists.mp hkeyed
  have hverified := hgenuine.signs signingKey hsigning
  obtain ⟨hkey, -, hsignature, -⟩ := (verifyDigest_ok_iff c _ _ _).mp hverified
  have hsame := attestation_length c host hsigning hkey hsignature
  have hwhole := attestation_eq c host hsigning
  have hhops : (host.answers c).hops.toNat < 2 ^ 8 := by
    have hdepth : (depth host.running).toNat = host.running.data.visited.length := by
      rw [depth]
      apply UInt32.toNat_ofNat_of_lt'
      show _ < 2 ^ 32
      omega
    show (if hostDepth host.running < 0 then (0 : UInt32)
      else (hostDepth host.running).toUInt32).toNat < 2 ^ 8
    by_cases hnegative : hostDepth host.running < 0
    · rw [if_pos hnegative]
      exact Nat.zero_lt_succ _
    · rw [if_neg hnegative, hostDepth, UInt32.toUInt32_toInt32]
      omega
  refine ⟨{
    hostname := host.hostname
    pubkey := host.ourPubkey c
    epochS := host.epoch
    signature := c.sign signingKey (host.attested c)
    trusts := host.running.programIsTrusted
    depth := (host.answers c).hops.toNat
    nodeAddr := host.nodeAddr.getD "" }, ?_, rfl, rfl, ?_⟩
  · refine ⟨?_, ?_, hhops, length_nodeAddr host, hverified⟩
    · rw [Host.attestationLength] at hlength
      show (utf8 host.hostname).length ≤ 1024
      omega
    · rw [hwhole] at hsame
      exact hsame.trans_le hlength
  · rw [start_eq c host a hmemory, items_eq, List.take_of_length_le hcaller,
      List.take_of_length_le (by omega), hwhole]
    rfl

/-- However the arrays lie in its memory, `network-map.c` ends on every node, leaves 16
fresh bytes and a record, and the record goes to the caller in one small datagram that
everybody reads whole. It speaks for the node's key, and tells what the node knows, if
and only if the node has a key and its attestation is in the array for it. -/
theorem node_reports {fromSlice : Bytes → Option Value} (hread : ReadsMaps fromSlice)
    (hwhole : ReadsWhole fromSlice) {c : Crypto} {host : Host} (hgenuine : host.Genuine c)
    {size : ℕ} (a : Arrays size) {memory : LinearMemory} (hmemory : memory.bytes.length = size) :
    ∃ cbor, start c host a memory = some ⟨some cbor, some (host.entropy 16)⟩ ∧
      (∀ fromPid requestUuid,
        (toVec (.basicReturnMap fromPid requestUuid cbor)).length ≤ 1198 ∧
          ∀ overlong, ReadWhole overlong (.basicReturnMap fromPid requestUuid cbor)) ∧
      (∃ attestation, parseRecord fromSlice cbor = some (attestation, host.placement)) ∧
      ∀ key, speaksFor fromSlice c key cbor =
        if (host.signingKey.isSome = true ∧ host.attestationLength ≤ 1024) ∧
            host.ourPubkey c = key then
          some (⟨host.hostname, key, host.epoch⟩, host.placement)
        else none := by
  have hparsed : parseRecord fromSlice (RecordWriter.start (host.answers c)).items = _ :=
    parseRecord_items hread c
  have hlength : (RecordWriter.start (host.answers c)).items.length ≤ 1171 := by
    rw [items_eq]
    exact nodeRecord_length_le (List.length_take_le _ _) (host.answers c).hops.toNat_lt
      (List.length_take_le _ _) (length_nodeAddr host)
  refine ⟨_, start_eq c host a hmemory, ?_, ⟨_, hparsed⟩, ?_⟩
  · intro fromPid requestUuid
    exact ⟨reply_length_le fromPid requestUuid hlength, readWhole_reply fromPid requestUuid hlength⟩
  · intro key
    rw [speaksFor, hparsed]
    dsimp only
    by_cases hattests : host.signingKey.isSome = true ∧ host.attestationLength ≤ 1024
    · obtain ⟨signingKey, hsigning⟩ := Option.isSome_iff_exists.mp hattests.1
      rw [verify_whole hread c hgenuine hsigning hattests.2]
      by_cases hkey : host.ourPubkey c = key
      · rw [if_pos ⟨hattests, hkey⟩, ← hkey]
        exact if_pos rfl
      · rw [if_neg fun h => hkey h.2]
        exact if_neg hkey
    · rw [verify_cut c hgenuine hwhole hattests, if_neg fun h => hattests h.1]

/-- The server, asked by Alice from her desk. -/
def serverHost : Host where
  hostname := "server"
  signingKey := some TrustSets.serverKey
  interfaces := twoInterfaces
  port := 2240
  callerAddr := .v4 0xC0A80102 49152
  running := { ForwardedProgram.running modeProgram with callerPubkey := aliceKey }
  epoch := 1760000000
  entropy := fun n => Vector.replicate n 7

theorem genuine_serverHost : serverHost.Genuine RowProvenance.serverCrypto where
  hostname := by decide +kernel
  signs := by
    rintro signingKey hsigning
    obtain rfl := Option.some.inj hsigning
    decide +kernel

def packedArrays : Arrays 17552 where
  out := 0
  attest := 16384
  parent := 17408
  uuid := 17472
  nodeAddr := 17488
  within := by decide
  apart := by decide
  size_le := by omega

def packedMemory : LinearMemory where
  bytes := List.replicate 17552 0
  size_le := by
    rw [List.length_replicate]
    omega

/-- Standard maps and nothing that is cut off. -/
def readWholeMaps (bytes : Bytes) : Option Value :=
  if CborItems.WellFormed bytes then RowProvenance.readMaps bytes else none

theorem readWholeMaps_readsMaps : ReadsMaps readWholeMaps := by
  intro entries hnodup hentries
  rw [readWholeMaps, if_pos (CborItems.wellFormed_encode 2 _ hentries)]
  exact RowProvenance.readMaps_readsMaps entries hnodup hentries

theorem readWholeMaps_readsWhole : ReadsWhole readWholeMaps := by
  intro bytes v hread
  rw [readWholeMaps] at hread
  split_ifs at hread with hitem
  exact hitem

theorem node_reports_server :
    ∃ cbor, start RowProvenance.serverCrypto serverHost packedArrays packedMemory =
        some ⟨some cbor, some (Vector.replicate 16 7)⟩ ∧
      speaksFor readWholeMaps RowProvenance.serverCrypto TrustSets.serverKey cbor =
        some (⟨"server", TrustSets.serverKey, 1760000000⟩,
          ⟨aliceKey, false, some "192.168.1.20:2240"⟩) := by
  have hmemory : packedMemory.bytes.length = 17552 := List.length_replicate
  obtain ⟨cbor, hstart, -, -, hspeaks⟩ := node_reports readWholeMaps_readsMaps
    readWholeMaps_readsWhole genuine_serverHost packedArrays hmemory
  refine ⟨cbor, hstart, (hspeaks TrustSets.serverKey).trans ?_⟩
  decide +kernel

end Weverywhere.DiscoveryProgram
