import Weverywhere.DepthBudget

/-!
Which neighbours `discovery_forward` sends a sub-request to, and with what budget
(`src/src/command/serve.rs`). Configured peers and observed neighbours are merged by
address and the first entry of an address stays, with the key it has or has not; the
keys that the later entries know are not looked at.
-/
namespace Weverywhere.TargetSelection

open ByteStrings Identity Weverywhere.Configuration Messages Node TrustSets Discovery DepthBudget

/-- What both sources say, in the order it is merged. -/
def candidates (p : Platform) (resolve : PeerMetadata → Option SocketAddr)
    (peer : List PeerMetadata) (observed : List (SocketAddr × Bytes)) : List Target :=
  (peer.filterMap fun peer => (resolve peer).map fun addr =>
    (addr, peer.expectedKeyStr.bind p.publicKeyToEd25519Vk)) ++
  observed.map fun (addr, pubkey) => (addr, if pubkey.isEmpty then none else some pubkey)

/-- The keys supplied for an address. -/
def keysAt (known : List Target) (addr : SocketAddr) : List Bytes :=
  known.filterMap fun target => if target.1 = addr then target.2 else none

/-- The entry of an address that stays. -/
def firstAt (known : List Target) (addr : SocketAddr) : Option Target :=
  known.find? fun target => target.1 = addr

/-- The budgets of the sub-requests that go to an address. -/
def budgetsAt (sends : List (Target × ProgramData)) (addr : SocketAddr) : List UInt8 :=
  (sends.filter fun send => send.1.1 = addr).map fun send => send.2.depthBudget

/-- What an address gets when every key supplied for it counts: nothing if one of
them is ours or on the path, else one request with the budget of our trust in one;
without a key one with the untrusted budget. -/
def UsesAllKeys (n : ServeNode) (incoming : ProgramData) (keys : List Bytes)
    (budgets : List UInt8) : Prop :=
  if keys = [] then budgets = [childDepthBudget incoming.depthBudget false]
  else if keys.any (n.childVisited incoming).contains then budgets = []
  else ∃ pk ∈ keys, budgets =
    [childDepthBudget incoming.depthBudget (n.executor.trustsPubkey pk)]

/-- The selection uses all it knows: at most one request for an address, what is due
for each known one, and none for any other. -/
structure Selects (n : ServeNode) (incoming : ProgramData) (known : List Target)
    (sends : List (Target × ProgramData)) : Prop where
  once : ∀ addr, (budgetsAt sends addr).length ≤ 1
  due : ∀ addr ∈ known.map Prod.fst,
    UsesAllKeys n incoming (keysAt known addr) (budgetsAt sends addr)
  others : ∀ addr, addr ∉ known.map Prod.fst → budgetsAt sends addr = []

/-- The first entry of the address is enough: if a supplied key is ours or on the path,
it has such a key; and if it has none where keys are supplied, one of these is not
trusted, or the budget is too small for trust to matter. -/
def FirstSuffices (n : ServeNode) (incoming : ProgramData) (known : List Target)
    (addr : SocketAddr) : Prop :=
  ((∃ pk ∈ keysAt known addr, pk ∈ n.childVisited incoming) →
    ∃ pk, (firstAt known addr).bind Prod.snd = some pk ∧ pk ∈ n.childVisited incoming) ∧
  (keysAt known addr ≠ [] → (firstAt known addr).bind Prod.snd = none →
    ∃ pk ∈ keysAt known addr, n.executor.trustsPubkey pk = false ∨ incoming.depthBudget ≤ 3)

/-- A node without an identity sends nothing. -/
def NoRequestDue (n : ServeNode) (incoming : ProgramData) (known : List Target)
    (addr : SocketAddr) : Prop := ∃ pk ∈ keysAt known addr, pk ∈ n.childVisited incoming

/-! Budgets. -/

/-- Trust matters to a budget above three. -/
theorem childDepthBudget_eq_iff (budget : UInt8) (trusted : Bool) :
    childDepthBudget budget trusted = childDepthBudget budget false ↔
      trusted = false ∨ budget ≤ 3 := by
  have hgrant := childDepthBudget_toNat budget trusted
  have hleast := childDepthBudget_toNat budget false
  have hlow : cap false = 2 := rfl
  have hhigh : cap true = 8 := rfl
  have hthree : budget ≤ 3 ↔ budget.toNat ≤ 3 := UInt8.le_iff_toNat_le
  rw [← UInt8.toNat_inj, hthree]
  cases trusted with
  | false => simp
  | true =>
    rw [hhigh] at hgrant
    rw [hlow] at hleast
    simp only [Bool.true_eq_false, false_or]
    omega

/-! Addresses. -/

theorem targets_eq (p : Platform) (resolve : PeerMetadata → Option SocketAddr)
    (peer : List PeerMetadata) (observed : List (SocketAddr × Bytes)) :
    targets p resolve peer observed = firstPerAddress [] (candidates p resolve peer observed) := rfl

/-- Of each address that is not set aside, the first entry is kept. -/
theorem filter_firstPerAddress (seen : List SocketAddr) (known : List Target) (addr : SocketAddr) :
    (firstPerAddress seen known).filter (fun target => target.1 = addr) =
      if addr ∈ seen then [] else (firstAt known addr).toList := by
  induction known generalizing seen with
  | nil => simp [firstPerAddress, firstAt]
  | cons target rest ih =>
    rw [firstPerAddress, firstAt, List.find?_cons]
    by_cases haddr : target.1 = addr
    · subst haddr
      by_cases hseen : target.1 ∈ seen
      · rw [if_pos hseen, ih seen, if_pos hseen, if_pos hseen]
      · rw [if_neg hseen, List.filter_cons_of_pos (by simp), ih (target.1 :: seen),
          if_pos List.mem_cons_self, if_neg hseen]
        simp
    · have hskip : (firstAt rest addr) = rest.find? fun target => target.1 = addr := rfl
      by_cases hseen : target.1 ∈ seen
      · rw [if_pos hseen, ih seen, hskip]
        simp [haddr]
      · rw [if_neg hseen, List.filter_cons_of_neg (by simpa using haddr), ih (target.1 :: seen),
          hskip]
        simp [haddr, Ne.symm haddr]

theorem firstAt_eq_none_iff (known : List Target) (addr : SocketAddr) :
    firstAt known addr = none ↔ addr ∉ known.map Prod.fst := by
  rw [firstAt, List.find?_eq_none]
  simp only [decide_eq_true_eq, List.mem_map, not_exists, not_and]

/-- The key of the first entry is among those supplied. -/
theorem firstKey_mem {known : List Target} {addr : SocketAddr} {pk : Bytes}
    (h : (firstAt known addr).bind Prod.snd = some pk) : pk ∈ keysAt known addr := by
  obtain ⟨target, hfirst, hkey⟩ := Option.bind_eq_some_iff.mp h
  have haddr : target.1 = addr := by simpa using List.find?_some hfirst
  apply List.mem_filterMap.mpr
  exact ⟨target, List.mem_of_find?_eq_some hfirst, by rw [if_pos haddr, hkey]⟩

/-- An address gets the request of its first entry, unless that one is skipped. -/
theorem budgetsAt_discoveryForward {n : ServeNode} {ourIdentity : IdentityData}
    (hidentity : n.identityData = some ourIdentity) (incoming : ProgramData) (childUuid : Uuid)
    (known : List Target) (addr : SocketAddr) :
    budgetsAt (n.discoveryForward (firstPerAddress [] known) incoming childUuid) addr =
      ((firstAt known addr).toList.filter fun target => !n.skips incoming target).map
        fun target => childDepthBudget incoming.depthBudget (n.weTrust target) := by
  have hfirst := filter_firstPerAddress [] known addr
  rw [if_neg List.not_mem_nil] at hfirst
  rw [← hfirst, List.filter_comm, budgetsAt, ServeNode.discoveryForward, hidentity]
  dsimp only
  rw [List.filter_map, List.map_map]
  rfl

/-- What the code sends to a known address, by the key of its first entry. -/
theorem budgetsAt_of_firstKey {n : ServeNode} {ourIdentity : IdentityData}
    (hidentity : n.identityData = some ourIdentity) (incoming : ProgramData) (childUuid : Uuid)
    {known : List Target} {addr : SocketAddr} (hknown : addr ∈ known.map Prod.fst) :
    budgetsAt (n.discoveryForward (firstPerAddress [] known) incoming childUuid) addr =
      match (firstAt known addr).bind Prod.snd with
      | none => [childDepthBudget incoming.depthBudget false]
      | some pk =>
        if pk ∈ n.childVisited incoming then []
        else [childDepthBudget incoming.depthBudget (n.executor.trustsPubkey pk)] := by
  rw [budgetsAt_discoveryForward hidentity]
  have hsome : firstAt known addr ≠ none := by
    rw [ne_eq, firstAt_eq_none_iff, not_not]
    exact hknown
  obtain ⟨⟨at', key⟩, hfirst⟩ := Option.ne_none_iff_exists'.mp hsome
  rw [hfirst]
  cases key with
  | none =>
    have hskips : n.skips incoming (at', none) = false := rfl
    simp [hskips, ServeNode.weTrust]
  | some pk =>
    have hskips : n.skips incoming (at', some pk) = true ↔ pk ∈ n.childVisited incoming := by
      rw [ServeNode.skips_iff]
      simp
    by_cases hpath : pk ∈ n.childVisited incoming
    · simp [hskips.mpr hpath, hpath]
    · have hnot : n.skips incoming (at', some pk) = false :=
        Bool.eq_false_iff.mpr (fun h => hpath (hskips.mp h))
      simp [hnot, hpath, ServeNode.weTrust]

theorem any_contains_iff {keys visited : List Bytes} :
    keys.any visited.contains = true ↔ ∃ pk ∈ keys, pk ∈ visited := by simp

/-- One address: the code sends what is due exactly when the first entry suffices. -/
theorem usesAllKeys_iff {n : ServeNode} {ourIdentity : IdentityData}
    (hidentity : n.identityData = some ourIdentity) (incoming : ProgramData) (childUuid : Uuid)
    {known : List Target} {addr : SocketAddr} (hknown : addr ∈ known.map Prod.fst) :
    UsesAllKeys n incoming (keysAt known addr)
        (budgetsAt (n.discoveryForward (firstPerAddress [] known) incoming childUuid) addr) ↔
      FirstSuffices n incoming known addr := by
  rw [budgetsAt_of_firstKey hidentity incoming childUuid hknown, UsesAllKeys, FirstSuffices]
  have hmem : ∀ pk, (firstAt known addr).bind Prod.snd = some pk → pk ∈ keysAt known addr :=
    fun _ => firstKey_mem
  generalize (firstAt known addr).bind Prod.snd = first at hmem ⊢
  by_cases hkeys : keysAt known addr = []
  · -- nobody knows a key
    have hnone : first = none := by
      cases first with
      | none => rfl
      | some pk =>
        have hpk := hmem pk rfl
        rw [hkeys] at hpk
        cases hpk
    subst hnone
    rw [if_pos hkeys]
    simp [hkeys]
  rw [if_neg hkeys]
  by_cases hpath : ∃ pk ∈ keysAt known addr, pk ∈ n.childVisited incoming
  · rw [if_pos (any_contains_iff.mpr hpath)]
    cases first with
    | none => simp [hpath]
    | some pk =>
      by_cases hpk : pk ∈ n.childVisited incoming
      · simp [hpk]
      · simp [hpk, hpath]
  · rw [if_neg (mt any_contains_iff.mp hpath)]
    cases first with
    | none =>
      simp only [List.cons.injEq, and_true, hpath, false_implies, true_and, ne_eq, hkeys,
        not_false_eq_true, forall_const]
      constructor
      · rintro ⟨pk, hpk, hbudget⟩
        exact ⟨pk, hpk, (childDepthBudget_eq_iff _ _).mp hbudget.symm⟩
      · rintro ⟨pk, hpk, hsame⟩
        exact ⟨pk, hpk, ((childDepthBudget_eq_iff _ _).mpr hsame).symm⟩
    | some pk =>
      have hpk : pk ∉ n.childVisited incoming := fun hvisited => hpath ⟨pk, hmem pk rfl, hvisited⟩
      apply iff_of_true
      · refine ⟨pk, hmem pk rfl, ?_⟩
        dsimp only
        rw [if_neg hpk]
      · exact ⟨fun h => absurd h hpath, fun _ h => by cases h⟩

theorem usesAllKeys_nil_iff (n : ServeNode) (incoming : ProgramData) (known : List Target)
    (addr : SocketAddr) :
    UsesAllKeys n incoming (keysAt known addr) [] ↔ NoRequestDue n incoming known addr := by
  rw [UsesAllKeys, NoRequestDue]
  split_ifs with hkeys hpath
  · simp [hkeys]
  · simp [any_contains_iff.mp hpath]
  · simp [mt any_contains_iff.mpr hpath]

/-- For every list of peers, every content of the registry and every request: the
selection uses all it knows exactly when, at a node with an identity, the first
entry of each address suffices, or at one without, no request is due anyway. -/
theorem selects_iff (p : Platform) (resolve : PeerMetadata → Option SocketAddr) (n : ServeNode)
    (observed : List (SocketAddr × Bytes)) (incoming : ProgramData) (childUuid : Uuid) :
    Selects n incoming (candidates p resolve n.peer observed)
        (n.discoveryForward (targets p resolve n.peer observed) incoming childUuid) ↔
      ∀ addr ∈ (candidates p resolve n.peer observed).map Prod.fst,
        if n.identityData = none
        then NoRequestDue n incoming (candidates p resolve n.peer observed) addr
        else FirstSuffices n incoming (candidates p resolve n.peer observed) addr := by
  rw [targets_eq]
  generalize candidates p resolve n.peer observed = known
  by_cases hidentity : n.identityData = none
  · have hnothing : ∀ addr, budgetsAt (n.discoveryForward (firstPerAddress [] known) incoming
        childUuid) addr = [] := by
      intro addr
      rw [ServeNode.discoveryForward, hidentity]
      rfl
    simp only [if_pos hidentity]
    constructor
    · intro h addr haddr
      have hdue := h.due addr haddr
      rwa [hnothing, usesAllKeys_nil_iff] at hdue
    · intro h
      refine ⟨fun addr => by simp [hnothing], ?_, fun addr _ => hnothing addr⟩
      intro addr haddr
      rw [hnothing, usesAllKeys_nil_iff]
      exact h addr haddr
  · obtain ⟨ourIdentity, hsome⟩ := Option.ne_none_iff_exists'.mp hidentity
    have hiff : ∀ addr ∈ known.map Prod.fst, UsesAllKeys n incoming (keysAt known addr)
        (budgetsAt (n.discoveryForward (firstPerAddress [] known) incoming childUuid) addr) ↔
          FirstSuffices n incoming known addr :=
      fun _ haddr => usesAllKeys_iff hsome incoming childUuid haddr
    simp only [if_neg hidentity]
    constructor
    · intro h addr haddr
      exact (hiff addr haddr).mp (h.due addr haddr)
    · intro h
      refine ⟨?_, fun addr haddr => (hiff addr haddr).mpr (h addr haddr), ?_⟩
      · intro addr
        rw [budgetsAt_discoveryForward hsome, List.length_map]
        apply (List.length_filter_le _ _).trans
        exact Option.length_toList_le
      · intro addr haddr
        rw [budgetsAt_discoveryForward hsome, (firstAt_eq_none_iff known addr).mpr haddr]
        rfl

/-! A server that the laptop lists without a key, and has heard from. -/

def serverAddr : SocketAddr := .v4 0xC0A80114 2240

/-- A request that has come through the server. -/
def fromServer : ProgramData := { originRequest with visited := [aliceKey, serverKey] }

/-- It is sent back to the server, whose key the registry knows. -/
theorem sent_back_to_server :
    serverKey ∈ fromServer.visited ∧
      ¬ Selects (Machine.serving .laptop .server none) fromServer
        (candidates machinePlatform resolveIpv4
          (Machine.serving .laptop .server none).peer [(serverAddr, serverKey)])
        ((Machine.serving .laptop .server none).discoveryForward
          (targets machinePlatform resolveIpv4 (Machine.serving .laptop .server none).peer
            [(serverAddr, serverKey)]) fromServer (Vector.replicate 16 9)) := by
  refine ⟨by simp [fromServer], ?_⟩
  intro h
  have hknown : serverAddr ∈ (candidates machinePlatform resolveIpv4
      (Machine.serving .laptop .server none).peer [(serverAddr, serverKey)]).map Prod.fst := by
    decide +kernel
  have hkeys : serverKey ∈ keysAt (candidates machinePlatform resolveIpv4
      (Machine.serving .laptop .server none).peer [(serverAddr, serverKey)]) serverAddr := by
    decide +kernel
  have hfirst : (firstAt (candidates machinePlatform resolveIpv4
      (Machine.serving .laptop .server none).peer [(serverAddr, serverKey)]) serverAddr).bind
        Prod.snd = none := by
    decide +kernel
  have hidentity : (Machine.serving .laptop .server none).identityData =
    some (Machine.identity .laptop) := rfl
  have hsuffices := (usesAllKeys_iff hidentity fromServer (Vector.replicate 16 9) hknown).mp
    (h.due serverAddr hknown)
  obtain ⟨pk, hpk, -⟩ := hsuffices.1 ⟨serverKey, hkeys, by
    simp [fromServer, ServeNode.childVisited]⟩
  rw [hfirst] at hpk
  cases hpk

end Weverywhere.TargetSelection
