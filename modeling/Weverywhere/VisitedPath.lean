import Weverywhere.DepthBudget
import Mathlib.Algebra.Ring.Nat

/-!
The visited list of a discovery request is the path it took: the key of the
origin and then the keys of the forwarders, in order, the last of them the key
that signs the request. What a program learns of its depth and of its parent
follows, as the path of a `netmap` run never outgrows the depth budget.
-/
namespace Weverywhere.VisitedPath

open ByteStrings Identity Weverywhere.Configuration Messages Node TrustSets Discovery DiscoveryWorld
  DepthBudget Runs

/-- The requests of one `netmap` run and where they go. A run that cannot
generate its identity sends none. -/
def netmapRoots (p : Platform) (config : Config) (now : UInt64) (wasmBytes : Bytes)
    (requestUuid : Uuid) (isLocal : Bool) (loopback : SocketAddr) (multicast : List SocketAddr)
    (resolve : PeerMetadata → Option SocketAddr) : List (SocketAddr × ProgramData) :=
  match generateFromConfig p config now with
  | none => []
  | some source =>
      (netmapSends p config isLocal loopback multicast resolve).map fun (addr, depth) =>
        (addr, makeRequest p config source wasmBytes requestUuid depth)

/-- The origin's identity key. -/
def originKey (p : Platform) (config : Config) : Bytes :=
  (p.readPublicKeyEd25519PemFile config.identity.keyfile).getD []

theorem initialDepthBudget_le (trusts : Bool) : (initialDepthBudget trusts).toNat ≤ 8 := by
  cases trusts <;> decide

theorem netmapSends_budget_le {p : Platform} {config : Config} {isLocal : Bool}
    {loopback : SocketAddr} {multicast : List SocketAddr}
    {resolve : PeerMetadata → Option SocketAddr} {addr : SocketAddr} {depth : UInt8}
    (h : (addr, depth) ∈ netmapSends p config isLocal loopback multicast resolve) :
    depth.toNat ≤ 8 := by
  have huntrusted : untrustedForwardDepth.toNat ≤ 8 := by decide
  unfold netmapSends at h
  split_ifs at h
  · obtain ⟨-, rfl⟩ := Prod.mk.inj (List.mem_singleton.mp h)
    exact huntrusted
  · rcases List.mem_append.mp h with h | h
    · obtain ⟨_, -, hsend⟩ := List.mem_map.mp h
      obtain ⟨-, rfl⟩ := Prod.mk.inj hsend
      exact huntrusted
    · obtain ⟨peer, -, hsend⟩ := List.mem_filterMap.mp h
      obtain ⟨_, -, hsend⟩ := Option.map_eq_some_iff.mp hsend
      obtain ⟨-, rfl⟩ := Prod.mk.inj hsend
      exact initialDepthBudget_le _

/-- What the origin puts on the wire. -/
theorem mem_netmapRoots {p : Platform} {config : Config} {now : UInt64} {wasmBytes : Bytes}
    {requestUuid : Uuid} {isLocal : Bool} {loopback : SocketAddr} {multicast : List SocketAddr}
    {resolve : PeerMetadata → Option SocketAddr} {dest : SocketAddr} {program : ProgramData}
    (h : (dest, program) ∈ netmapRoots p config now wasmBytes requestUuid isLocal loopback
      multicast resolve) :
    program.visited = [originKey p config] ∧
      program.source.encodedPublicKey = originKey p config ∧
      program.depthBudget.toNat ≤ 8 := by
  unfold netmapRoots at h
  split at h
  · cases h
  · rename_i source hsource
    obtain ⟨⟨addr, depth⟩, hsend, hroot⟩ := List.mem_map.mp h
    obtain ⟨rfl, rfl⟩ := Prod.mk.inj hroot
    have hkey : source.encodedPublicKey = originKey p config := by
      rw [originKey, (generateFromConfig_eq_some hsource).1, Option.getD_some]
    exact ⟨by rw [makeRequest_visited hsource, hkey], hkey, netmapSends_budget_le hsend⟩

/-- The sign bit of `host::depth` stays clear on every path of fewer than 2³¹ keys. -/
theorem hostDepth_toInt {running : RunningProgram} (h : running.data.visited.length < 2 ^ 31) :
    (hostDepth running).toInt = running.data.visited.length := by
  rw [hostDepth, depth, UInt32.toInt32_ofNat', Int32.toInt_ofNat_of_lt h]

variable {ι : Type}

/-- The keys of those who forwarded the request, oldest first. -/
def forwarderKeys (node : ι → ServeNode) (r : Request ι) : List Bytes :=
  r.path.map fun hop => (node hop.forwarder).identityPubkey

/-- How far the receivers of the request are from the origin. -/
def hop (r : Request ι) : ℕ := r.path.length + 1

/-- In every request the visited list, the signer and the path agree, and every
request was forwarded by a node that executed the request one hop before. -/
structure OnPath (node : ι → ServeNode) (origin : Bytes) (w : World ι) : Prop where
  recorded : Recorded w
  keys : ∀ i, (w.node i).identityPubkey = (node i).identityPubkey
  visited : ∀ r ∈ w.sent, r.program.visited = origin :: forwarderKeys node r
  signer : ∀ r ∈ w.sent, r.program.visited.getLast? = some r.program.source.encodedPublicKey
  budget : ∀ r ∈ w.sent, r.path.length + r.program.depthBudget.toNat ≤ 8
  forwarder : ∀ r ∈ w.sent, ∀ before last, r.path = before ++ [last] →
    ∃ x ∈ w.executed, x.node = last.forwarder ∧ x.request.path = before
  running : ∀ x ∈ w.executed, x.running.data = x.request.program ∧
    x.running.callerPubkey = x.request.program.source.encodedPublicKey ∧
    x.running.callerPubkey.length = 32

theorem onPath_start (p : Platform) (node : ι → ServeNode) (config : Config) (now : UInt64)
    (wasmBytes : Bytes) (requestUuid : Uuid) (isLocal : Bool) (loopback : SocketAddr)
    (multicast : List SocketAddr) (resolve : PeerMetadata → Option SocketAddr) :
    OnPath node (originKey p config) (start node
      (netmapRoots p config now wasmBytes requestUuid isLocal loopback multicast resolve)) := by
  have hroot : ∀ r ∈ (start node (netmapRoots p config now wasmBytes requestUuid isLocal loopback
      multicast resolve)).sent, r.path = [] ∧ r.program.visited = [originKey p config] ∧
        r.program.source.encodedPublicKey = originKey p config ∧
        r.program.depthBudget.toNat ≤ 8 := by
    intro r hr
    obtain ⟨⟨dest, program⟩, hmem, rfl⟩ := List.mem_map.mp hr
    exact ⟨rfl, mem_netmapRoots hmem⟩
  refine ⟨recorded_start node _, fun _ => rfl, ?_, ?_, ?_, ?_, by simp [start]⟩
  · intro r hr
    obtain ⟨hpath, hvisited, -, -⟩ := hroot r hr
    rw [hvisited, forwarderKeys, hpath, List.map_nil]
  · intro r hr
    obtain ⟨-, hvisited, hsource, -⟩ := hroot r hr
    rw [hvisited, hsource, List.getLast?_singleton]
  · intro r hr
    obtain ⟨hpath, -, -, hbudget⟩ := hroot r hr
    rw [hpath, List.length_nil]
    omega
  · intro r hr before last hsplit
    rw [(hroot r hr).1] at hsplit
    simp at hsplit

variable [DecidableEq ι] (p : Platform) (compiles : Bytes → Bool)

theorem onPath_step {node : ι → ServeNode} {origin : Bytes} {w : World ι}
    (h : OnPath node origin w) (action : Action ι) :
    OnPath node origin (step p compiles w action) := by
  refine ⟨recorded_step p compiles h.recorded action, ?_, ?_, ?_, ?_, ?_, ?_⟩
  · intro i
    rw [(node_step p compiles w action i).1, h.keys i]
  · intro r hr
    rcases mem_sent_step p compiles hr with hr | ⟨k, resolve, observed, freshUuid, x, target, -,
      hx, -, hsub⟩
    · exact h.visited r hr
    · obtain ⟨ourIdentity, childUuid, -, hprogram⟩ := hsub.program
      have hmem := h.recorded.mem_sent (List.mem_of_getElem? hx)
      rw [hprogram, ServeNode.subRequest, ServeNode.childVisited, h.visited _ hmem, h.keys,
        forwarderKeys, forwarderKeys, hsub.path]
      simp
  · intro r hr
    rcases mem_sent_step p compiles hr with hr | ⟨k, resolve, observed, freshUuid, x, target, -,
      -, -, hsub⟩
    · exact h.signer r hr
    · obtain ⟨ourIdentity, childUuid, hidentity, hprogram⟩ := hsub.program
      have hkey := (w.node x.node).identityData_key ourIdentity hidentity
      simp only [hprogram, ServeNode.subRequest, ServeNode.childVisited,
        List.getLast?_concat, hkey]
  · intro r hr
    rcases mem_sent_step p compiles hr with hr | ⟨k, resolve, observed, freshUuid, x, target, -,
      hx, hruns, hsub⟩
    · exact h.budget r hr
    · obtain ⟨ourIdentity, childUuid, -, hprogram⟩ := hsub.program
      have hbefore := h.budget _ (h.recorded.mem_sent (List.mem_of_getElem? hx))
      have hchild := childDepthBudget_toNat x.request.program.depthBudget
        ((w.node x.node).weTrust target)
      have hpos := hruns.2.1
      rw [UInt8.lt_iff_toNat_lt, UInt8.toNat_zero] at hpos
      have hgrant : r.program.depthBudget = childDepthBudget x.request.program.depthBudget
          ((w.node x.node).weTrust target) := by
        rw [hprogram, ServeNode.subRequest]
      rw [hgrant, hsub.path, List.length_append, List.length_singleton]
      omega
  · intro r hr before last hsplit
    have hkept : ∀ y ∈ w.executed, y ∈ (step p compiles w action).executed :=
      fun y hy => (executed_prefix_step p compiles w action).subset hy
    rcases mem_sent_step p compiles hr with hr | ⟨k, resolve, observed, freshUuid, x, target, -,
      hx, -, hsub⟩
    · obtain ⟨y, hy, hyrest⟩ := h.forwarder r hr before last hsplit
      exact ⟨y, hkept y hy, hyrest⟩
    · obtain ⟨hbefore, hlast⟩ := List.append_inj' (hsplit.symm.trans hsub.path) rfl
      rw [List.singleton_inj.mp hlast, hbefore]
      exact ⟨x, hkept x (List.mem_of_getElem? hx), rfl, rfl⟩
  · intro x hx
    rcases mem_executed_step p compiles hx with hx | ⟨i, index, addr, now, returned, request,
      running, -, -, hstarted, rfl⟩
    · exact h.running x hx
    · obtain ⟨hdata, hcaller, hcheck⟩ := startedAt_eq_some p compiles hstarted
      refine ⟨hdata, hcaller, ?_⟩
      rw [hcaller]
      exact IdentityData.checkSelfSignature_key_length hcheck

theorem onPath_run (node : ι → ServeNode) (config : Config) (now : UInt64) (wasmBytes : Bytes)
    (requestUuid : Uuid) (isLocal : Bool) (loopback : SocketAddr) (multicast : List SocketAddr)
    (resolve : PeerMetadata → Option SocketAddr) (actions : List (Action ι)) :
    OnPath node (originKey p config) (actions.foldl (step p compiles) (start node
      (netmapRoots p config now wasmBytes requestUuid isLocal loopback multicast resolve))) := by
  have hstep : ∀ w (action : Action ι), OnPath node (originKey p config) w →
      OnPath node (originKey p config) (step p compiles w action) :=
    fun _ action h => onPath_step p compiles h action
  exact invariant_run (step p compiles) hstep
    (onPath_start p node config now wasmBytes requestUuid isLocal loopback multicast resolve)
    actions

/-- In every state of every `netmap` run the visited list of a request at hop `n`
is the origin's key and the keys of its `n - 1` forwarders, the last of them the
signer's; a program running at hop `n` reads `n` as its depth and the key of its
forwarder as its parent, and the forwarder ran the program at hop `n - 1`. -/
theorem visited_is_path (node : ι → ServeNode) (config : Config) (now : UInt64)
    (wasmBytes : Bytes) (requestUuid : Uuid) (isLocal : Bool) (loopback : SocketAddr)
    (multicast : List SocketAddr) (resolve : PeerMetadata → Option SocketAddr)
    (actions : List (Action ι)) :
    let w := actions.foldl (step p compiles) (start node
      (netmapRoots p config now wasmBytes requestUuid isLocal loopback multicast resolve))
    (∀ r ∈ w.sent,
      r.program.visited = originKey p config :: forwarderKeys node r ∧
      r.program.visited.length = hop r ∧
      r.program.visited.getLast? = some r.program.source.encodedPublicKey) ∧
    ∀ x ∈ w.executed,
      (hostDepth x.running).toInt = hop x.request ∧
      ∃ parent : Bytes, (∀ cap ≥ 32, hostCallerPubkey x.running cap = parent) ∧
        ((x.request.path = [] ∧ parent = originKey p config) ∨
          ∃ y ∈ w.executed, hop y.request + 1 = hop x.request ∧
            parent = (node y.node).identityPubkey ∧
            ∃ last, x.request.path = y.request.path ++ [last] ∧ last.forwarder = y.node) := by
  intro w
  have hpath := onPath_run p compiles node config now wasmBytes requestUuid isLocal loopback
    multicast resolve actions
  have hlength : ∀ r ∈ w.sent, r.program.visited.length = hop r := by
    intro r hr
    rw [hpath.visited r hr, List.length_cons, forwarderKeys, List.length_map, hop]
  constructor
  · intro r hr
    exact ⟨hpath.visited r hr, hlength r hr, hpath.signer r hr⟩
  · intro x hx
    have hmem := hpath.recorded.mem_sent hx
    obtain ⟨hdata, hcaller, hkey⟩ := hpath.running x hx
    have hsmall : hop x.request ≤ 9 := by
      have hbudget := hpath.budget _ hmem
      rw [hop]
      omega
    constructor
    · rw [← hlength _ hmem, ← hdata]
      apply hostDepth_toInt
      rw [hdata, hlength _ hmem]
      omega
    · refine ⟨x.running.callerPubkey, ?_, ?_⟩
      · intro cap hcap
        rw [hostCallerPubkey, List.take_of_length_le (by omega)]
      · have hsigner := hpath.signer _ hmem
        rw [hpath.visited _ hmem, forwarderKeys] at hsigner
        rcases List.eq_nil_or_concat x.request.path with hnil | ⟨before, last, hsplit⟩
        · left
          rw [hnil, List.map_nil, List.getLast?_singleton, Option.some.injEq] at hsigner
          exact ⟨hnil, hcaller.trans hsigner.symm⟩
        · right
          rw [List.concat_eq_append] at hsplit
          obtain ⟨y, hy, hynode, hypath⟩ := hpath.forwarder _ hmem before last hsplit
          rw [hsplit, List.map_append, List.map_singleton, ← List.cons_append,
            List.getLast?_concat, Option.some.injEq] at hsigner
          refine ⟨y, hy, ?_, ?_, last, ?_, hynode.symm⟩
          · rw [hop, hop, hypath, hsplit, List.length_append, List.length_singleton]
          · rw [hcaller, ← hsigner, hynode]
          · rw [hypath, hsplit]

/-- The two machines and an origin whose key stands in its keyfile. -/
def originPlatform : Platform :=
  { machinePlatform with
    readToString := some
    pemParse := fun _ => some ("PRIVATE KEY", aliceKey)
    privateKeyInfo := some
    octetString := some }

/-- The origin lists the laptop. -/
def originConfig : Config where
  identity := ⟨"origin", "origin.pem"⟩
  trusted := []
  startupProgram := []
  includes := []
  peer := [⟨none, none, some Machine.laptop.ip, none⟩]
  limits := ⟨⟨0, 0⟩, ⟨0, 0⟩⟩

def originRoots : List (SocketAddr × ProgramData) :=
  netmapRoots originPlatform originConfig 1760000000 [] (Vector.replicate 16 7) false
    (.v4 0x7F000001 2240) [] resolveIpv4

/-- The origin asks the laptop, that the server, and that the laptop again. -/
example :
    let w := LoopPrevention.asked.foldl (step originPlatform fun _ => true)
      (start (Machine.node none) originRoots)
    w.sent.map (fun r => (r.program.visited, hop r)) =
      [([aliceKey], 1), ([aliceKey, Machine.laptop.key], 2),
        ([aliceKey, Machine.laptop.key, Machine.server.key], 3)] ∧
    w.executed.map (fun x => (hostDepth x.running, hostCallerPubkey x.running 32)) =
      [(1, aliceKey), (2, Machine.laptop.key), (3, Machine.server.key)] := by
  decide +kernel

end Weverywhere.VisitedPath
