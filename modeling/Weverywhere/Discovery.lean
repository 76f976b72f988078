import Weverywhere.TrustSets
import Mathlib.Data.Fintype.Basic

/-!
Recursive discovery at one node: the depth budget (`src/src/discovery.rs`), the
forwarding of a discovery program to a node's targets (`discovery_forward` in
`src/src/command/serve.rs`) and the requests `netmap` starts with
(`src/src/command/netmap.rs`). Host names resolve as the network says.
-/
namespace Weverywhere.Discovery

open ByteStrings Identity Weverywhere.Configuration Messages Node TrustSets

abbrev Uuid := Vector UInt8 16

def trustedForwardDepth : UInt8 := 8

def untrustedForwardDepth : UInt8 := 2

def trustCap (trusted : Bool) : UInt8 :=
  if trusted then trustedForwardDepth else untrustedForwardDepth

def initialDepthBudget (originTrustsPeer : Bool) : UInt8 := trustCap originTrustsPeer

def childDepthBudget (parentRemaining : UInt8) (forwarderTrustsPeer : Bool) : UInt8 :=
  if parentRemaining = 0 then 0 else min (parentRemaining - 1) (trustCap forwarderTrustsPeer)

/-- The parts of a serving node that forwarding reads: its `Executor`, the peers
of its configuration and the identity `Executor::new` loaded. -/
structure ServeNode where
  executor : Executor
  peer : List PeerMetadata
  identityPubkey : Bytes
  identityData : Option IdentityData
  identityData_key : ∀ source, identityData = some source →
    source.encodedPublicKey = identityPubkey

namespace ServeNode

/-- The identity part of `Executor::new`: all three values come from one keyfile. -/
def new (p : Platform) (config : Config) (now : UInt64) : ServeNode where
  executor := Executor.new
  peer := config.peer
  identityPubkey :=
    ((p.readPrivateKeyEd25519PemFile config.identity.keyfile).map p.verifyingKey).getD []
  identityData := generateFromConfig p config now
  identityData_key := by
    intro source h
    have hkey := (generateFromConfig_eq_some h).1
    rw [Platform.readPublicKeyEd25519PemFile] at hkey
    rw [hkey, Option.getD_some]

/-- `observed_targets`: the last address and the key of each registry entry. -/
def observedTargets (n : ServeNode) : List (SocketAddr × Bytes) :=
  n.executor.peers.entries.map fun kv => (kv.2.lastAddr, kv.2.pubkey)

end ServeNode

/-- An address to forward to, with the key it is known under. -/
abbrev Target := SocketAddr × Option Bytes

/-- The first target of each address, `seen` aside. -/
def firstPerAddress : List SocketAddr → List Target → List Target
  | _, [] => []
  | seen, target :: rest =>
    if target.1 ∈ seen then firstPerAddress seen rest
    else target :: firstPerAddress (target.1 :: seen) rest

/-- Configured peers, then observed neighbours in the order the registry yields
them. A pinned key that does not parse is no key. -/
def targets (p : Platform) (resolve : PeerMetadata → Option SocketAddr) (peer : List PeerMetadata)
    (observed : List (SocketAddr × Bytes)) : List Target :=
  firstPerAddress [] (
    (peer.filterMap fun peer => (resolve peer).map fun addr =>
      (addr, peer.expectedKeyStr.bind p.publicKeyToEd25519Vk)) ++
    observed.map fun (addr, pubkey) => (addr, if pubkey.isEmpty then none else some pubkey))

namespace ServeNode

/-- Ourselves and the keys already on the path. -/
def childVisited (n : ServeNode) (incoming : ProgramData) : List Bytes :=
  incoming.visited ++ [n.identityPubkey]

/-- Loop prevention knows only targets with a key. -/
def skips (n : ServeNode) (incoming : ProgramData) (target : Target) : Bool :=
  match target.2 with
  | none => false
  | some pk => pk == n.identityPubkey || incoming.visited.any (· == pk)

def weTrust (n : ServeNode) (target : Target) : Bool :=
  (target.2.map n.executor.trustsPubkey).getD false

/-- The request built for one target: no signature and no arguments. -/
def subRequest (n : ServeNode) (ourIdentity : IdentityData) (incoming : ProgramData)
    (childUuid : Uuid) (target : Target) : ProgramData where
  source := ourIdentity
  humanName := incoming.humanName
  wasmProgramBytes := incoming.wasmProgramBytes
  signature := []
  requestUuid := childUuid
  depthBudget := childDepthBudget incoming.depthBudget (n.weTrust target)
  visited := n.childVisited incoming
  argList := []
  argMap := []

/-- `discovery_forward`: the sub-requests and the targets they go to. -/
def discoveryForward (n : ServeNode) (targets : List Target) (incoming : ProgramData)
    (childUuid : Uuid) : List (Target × ProgramData) :=
  match n.identityData with
  | none => []
  | some ourIdentity =>
      (targets.filter fun target => !n.skips incoming target).map fun target =>
        (target, n.subRequest ourIdentity incoming childUuid target)

/-- Every forwarded request is a sub-request for a target that was not skipped,
signed with the node's own identity. -/
theorem mem_discoveryForward_iff (n : ServeNode) (targets : List Target) (incoming : ProgramData)
    (childUuid : Uuid) (target : Target) (sub : ProgramData) :
    (target, sub) ∈ n.discoveryForward targets incoming childUuid ↔
      ∃ ourIdentity, n.identityData = some ourIdentity ∧ target ∈ targets ∧
        n.skips incoming target = false ∧
        sub = n.subRequest ourIdentity incoming childUuid target := by
  unfold discoveryForward
  cases n.identityData with
  | none => simp
  | some ourIdentity =>
    simp only [List.mem_map, List.mem_filter, Bool.not_eq_true', Prod.mk.injEq,
      Option.some.injEq]
    constructor
    · rintro ⟨target', ⟨hmem, hskip⟩, rfl, rfl⟩
      exact ⟨ourIdentity, rfl, hmem, hskip, rfl⟩
    · rintro ⟨_, rfl, hmem, hskip, rfl⟩
      exact ⟨target, ⟨hmem, hskip⟩, rfl, rfl⟩

/-- A target is skipped exactly when its known key is on the children's path. -/
theorem skips_iff (n : ServeNode) (incoming : ProgramData) (target : Target) :
    n.skips incoming target = true ↔ ∃ pk, target.2 = some pk ∧ pk ∈ n.childVisited incoming := by
  unfold skips childVisited
  cases target.2 with
  | none => simp
  | some pk =>
    simp only [Bool.or_eq_true, beq_iff_eq, List.any_eq_true, List.mem_append,
      List.mem_singleton, Option.some.injEq, exists_eq_left', exists_eq_right]
    exact or_comm

end ServeNode

/-- No two targets share an address. -/
theorem firstPerAddress_nodup (seen : List SocketAddr) (candidates : List Target) :
    ((firstPerAddress seen candidates).map Prod.fst).Nodup ∧
      ∀ target ∈ firstPerAddress seen candidates, target.1 ∉ seen := by
  induction candidates generalizing seen with
  | nil => simp [firstPerAddress]
  | cons target rest ih =>
    rw [firstPerAddress]
    split_ifs with hseen
    · exact ih seen
    · obtain ⟨hnodup, hnew⟩ := ih (target.1 :: seen)
      constructor
      · rw [List.map_cons, List.nodup_cons]
        refine ⟨fun hmem => ?_, hnodup⟩
        obtain ⟨other, hother, haddr⟩ := List.mem_map.mp hmem
        exact hnew other hother (by simp [haddr])
      · intro other hother
        rcases List.mem_cons.mp hother with rfl | hother
        · exact hseen
        · exact fun h => hnew other hother (List.mem_cons_of_mem _ h)

theorem targets_nodup (p : Platform) (resolve : PeerMetadata → Option SocketAddr)
    (peer : List PeerMetadata) (observed : List (SocketAddr × Bytes)) :
    (targets p resolve peer observed).Nodup :=
  List.Nodup.of_map Prod.fst (firstPerAddress_nodup [] _).1

/-! The origin. -/

/-- Where `netmap` sends and the budget it grants there: the local daemon only, or
every multicast group on every interface and then the configured peers. -/
def netmapSends (p : Platform) (config : Config) (isLocal : Bool) (loopback : SocketAddr)
    (multicast : List SocketAddr) (resolve : PeerMetadata → Option SocketAddr) :
    List (SocketAddr × UInt8) :=
  if isLocal then [(loopback, untrustedForwardDepth)]
  else
    multicast.map (fun addr => (addr, untrustedForwardDepth)) ++
      config.peer.filterMap fun peer => (resolve peer).map fun addr =>
        let peerTrusted := ((peer.expectedKeyStr.bind p.publicKeyToEd25519Vk).map
          fun vk => (netmapTrusted p config).any (· == vk)).getD false
        (addr, initialDepthBudget peerTrusted)

/-- `make_request` of `netmap`, once the source is generated. -/
def makeRequest (p : Platform) (config : Config) (source : IdentityData) (wasmBytes : Bytes)
    (requestUuid : Uuid) (depth : UInt8) : ProgramData where
  source := source
  humanName := "network-map"
  wasmProgramBytes := wasmBytes
  signature := []
  requestUuid := requestUuid
  depthBudget := depth
  visited :=
    let ourPubkey := (p.readPublicKeyEd25519PemFile config.identity.keyfile).getD []
    if ourPubkey.isEmpty then [] else [ourPubkey]
  argList := []
  argMap := []

/-- The origin's requests start the path with the key that signs them. -/
theorem makeRequest_visited {p : Platform} {config : Config} {now : UInt64}
    {source : IdentityData} (h : generateFromConfig p config now = some source)
    (wasmBytes : Bytes) (requestUuid : Uuid) (depth : UInt8) :
    (makeRequest p config source wasmBytes requestUuid depth).visited =
      [source.encodedPublicKey] := by
  have hkey := (generateFromConfig_eq_some h).1
  have hlength := p.readPublicKey_length hkey
  have hne : source.encodedPublicKey ≠ [] := by
    intro hnil
    simp [hnil] at hlength
  simp only [makeRequest, hkey, Option.getD_some, List.isEmpty_iff, hne, if_false]

/-! What a running program learns of its place in the tree. -/

/-- `RPStoreData.depth`: the number of keys on the path, cut to 32 bits. -/
def depth (running : RunningProgram) : UInt32 := UInt32.ofNat running.data.visited.length

/-- `host::depth`, the same bits as a signed integer. -/
def hostDepth (running : RunningProgram) : Int32 := (depth running).toInt32

/-- What `host::caller_pubkey` writes into a buffer of `cap` bytes. -/
def hostCallerPubkey (running : RunningProgram) (cap : ℕ) : Bytes := running.callerPubkey.take cap

/-! Two machines that list each other. -/

inductive Machine
  | laptop
  | server
  deriving DecidableEq

namespace Machine

instance : Fintype Machine where
  elems := {laptop, server}
  complete := by
    intro i
    cases i <;> decide

def key : Machine → Bytes
  | .laptop => laptopKey.toList
  | .server => serverKey

def ip : Machine → Ipv4Addr
  | .laptop => 0xC0A8010A
  | .server => 0xC0A80114

def identity (i : Machine) : IdentityData := idealIdentity "machine" i.key 1760000000

/-- The machine at `i` lists the one at `other`, with `pin` as its `expected_key`. -/
def serving (i other : Machine) (pin : Option SingleTrustedKey) : ServeNode where
  executor := Executor.new
  peer := [⟨none, none, some other.ip, pin⟩]
  identityPubkey := i.key
  identityData := some i.identity
  identityData_key := by
    rintro source ⟨rfl⟩
    rfl

/-- The laptop pins nothing, the server what `pin` says of the laptop. -/
def node (pin : Option SingleTrustedKey) : Machine → ServeNode
  | .laptop => serving .laptop .server none
  | .server => serving .server .laptop pin

end Machine

def originIdentity : IdentityData := idealIdentity "origin" aliceKey 1760000000

/-- Only the self-signatures of the three identities are on record. -/
def machinePlatform : Platform where
  toCrypto := {
    idealCrypto ([originIdentity, Machine.laptop.identity, Machine.server.identity].map
      fun source => (source.encodedPublicKey, 0 :: source.signedBytes)) with
    verifyingKey := fun signingKey => (signingKey ++ List.replicate 32 0).take 32 }
  readToString _ := none
  pemParse _ := none
  privateKeyInfo _ := none
  octetString _ := none
  fromOpenssh line := if line = laptopLine then some (.ed25519 laptopKey) else none
  verifyingKey_length := by
    intro signingKey
    simp

def resolveIpv4 (peer : PeerMetadata) : Option SocketAddr := peer.ipv4.map fun ip => .v4 ip 2240

def originRequest : ProgramData where
  source := originIdentity
  humanName := "network-map"
  wasmProgramBytes := [0x00, 0x61, 0x73, 0x6D]
  signature := []
  requestUuid := Vector.replicate 16 7
  depthBudget := 8
  visited := [aliceKey]
  argList := []
  argMap := []

end Weverywhere.Discovery
