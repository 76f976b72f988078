import Weverywhere.DepthBudget
import Weverywhere.SimplePaths

/-!
Which nodes a discovery comes to when nothing is lost. The forwardings of
`discovery_forward` in `src/src/command/serve.rs` spread over the configured peers of
every node as far as the depth budget and the visited list let them. The neighbours a
node has merely observed are sockets that sent something, where nobody serves.
-/
namespace Weverywhere.DiscoveryCoverage

open ByteStrings Identity Weverywhere.Configuration Messages Node Discovery DiscoveryWorld
  DepthBudget Runs SimplePaths

variable {ι : Type} (p : Platform) (resolve : PeerMetadata → Option SocketAddr)
  (address : ι → SocketAddr) (node : ι → ServeNode) (roots : List (SocketAddr × ProgramData))

/-- The targets a node has by its configuration. -/
def configured (n : ServeNode) : List Target := targets p resolve n.peer []

/-- A node comes to run the program with this budget and this visited list. -/
inductive Reached : ι → UInt8 → List Bytes → Prop
  | root {j : ι} {program : ProgramData} (hroot : (address j, program) ∈ roots) :
      Reached j program.depthBudget program.visited
  | hop {i j : ι} {budget : UInt8} {visited : List Bytes} {pin : Option Bytes}
      (hi : Reached i budget visited) (hbudget : 0 < budget)
      (hidentity : (node i).identityData.isSome = true)
      (htarget : (address j, pin) ∈ configured p resolve (node i))
      (hskip : ∀ pk ∈ pin, pk ∉ visited ++ [(node i).identityPubkey]) :
      Reached j (childDepthBudget budget ((node i).weTrust (address j, pin)))
        (visited ++ [(node i).identityPubkey])

/-! Steady runs. -/

/-- Requests come to whoever serves their address, from sockets at which nobody
serves. Names resolve as ever, and no node is started anew. -/
def Steady (w : World ι) : Action ι → Prop
  | .traffic _ event => (∀ name key, event ≠ .startup name key) ∧
      ∀ addr now received, event = .datagram addr now received → ∀ j, address j ≠ addr
  | .deliver i index addr _ _ =>
      (∀ r ∈ w.sent[index]?, address i = r.dest) ∧ ∀ j, address j ≠ addr
  | .forward _ resolve' _ _ => resolve' = resolve

/-- Nothing was lost and nothing is left to do: each request has been executed by
whoever serves its address, and each execution that may forward has. -/
structure Settled (w : World ι) : Prop where
  delivered : ∀ (index : ℕ) r, w.sent[index]? = some r → ∀ j, address j = r.dest →
    ∃ x ∈ w.executed, x.node = j ∧ x.index = index
  finished : ∀ (k : ℕ) x, w.executed[k]? = some x → 0 < x.request.program.depthBudget →
    k ∈ w.forwarded

/-- The node `j` has executed a request with this budget and this visited list. -/
def Executed (w : World ι) (j : ι) (budget : UInt8) (visited : List Bytes) : Prop :=
  ∃ x ∈ w.executed, x.node = j ∧ x.request.program.depthBudget = budget ∧
    x.request.program.visited = visited

/-- The request `r` is what the execution `x` owes the target. -/
structure Owed (x : Execution ι) (target : Target) (r : Request ι) : Prop where
  dest : r.dest = target.1
  budget : r.program.depthBudget =
    childDepthBudget x.request.program.depthBudget ((node x.node).weTrust target)
  visited : r.program.visited = (node x.node).childVisited x.request.program

/-- The nodes are as configured, and what they have observed is served by none. -/
structure Unchanged (current : ι → ServeNode) : Prop where
  peer : ∀ i, (current i).peer = (node i).peer
  key : ∀ i, (current i).identityPubkey = (node i).identityPubkey
  identity : ∀ i, (current i).identityData = (node i).identityData
  trusted : ∀ i, (current i).executor.trustedKeys = (node i).executor.trustedKeys
  unserved : ∀ i, ∀ t ∈ (current i).observedTargets, ∀ j, address j ≠ t.1

/-- What every steady run keeps. -/
structure Invariant (w : World ι) : Prop where
  nodes : Unchanged address node w.node
  recorded : Recorded w
  asked : ∀ root ∈ roots, ∃ r ∈ w.sent, r.dest = root.1 ∧ r.program = root.2
  sent : ∀ r ∈ w.sent, ∀ j, address j = r.dest →
    Reached p resolve address node roots j r.program.depthBudget r.program.visited
  executed : ∀ x ∈ w.executed, address x.node = x.request.dest
  forwarded : ∀ k ∈ w.forwarded, ∃ x, w.executed[k]? = some x ∧
    ((node x.node).identityData.isSome = true →
      ∀ target ∈ configured p resolve (node x.node),
        (node x.node).skips x.request.program target = false →
          ∃ r ∈ w.sent, Owed node x target r)

/-! Targets. -/

theorem mem_firstPerAddress_append_left {seen : List SocketAddr} {front : List Target}
    {target : Target} (h : target ∈ firstPerAddress seen front) (back : List Target) :
    target ∈ firstPerAddress seen (front ++ back) := by
  induction front generalizing seen with
  | nil => simp [firstPerAddress] at h
  | cons first front ih =>
    rw [List.cons_append, firstPerAddress]
    rw [firstPerAddress] at h
    split_ifs at h ⊢ with hseen
    · exact ih h
    · rcases List.mem_cons.mp h with rfl | h
      · exact List.mem_cons_self
      · exact List.mem_cons_of_mem _ (ih h)

theorem mem_firstPerAddress_append {seen : List SocketAddr} {front back : List Target}
    {target : Target} (h : target ∈ firstPerAddress seen (front ++ back)) :
    target ∈ firstPerAddress seen front ∨ target ∈ back := by
  have hsubset : ∀ (seen : List SocketAddr) (candidates : List Target),
      firstPerAddress seen candidates ⊆ candidates := by
    intro seen candidates
    induction candidates generalizing seen with
    | nil => exact List.Subset.refl _
    | cons first rest ih =>
      rw [firstPerAddress]
      split_ifs
      · exact List.Subset.trans (ih seen) (List.subset_cons_self _ _)
      · exact List.cons_subset_cons _ (ih _)
  induction front generalizing seen with
  | nil => exact .inr (hsubset seen back h)
  | cons first front ih =>
    rw [List.cons_append, firstPerAddress] at h
    rw [firstPerAddress]
    split_ifs at h ⊢ with hseen
    · exact ih h
    · rcases List.mem_cons.mp h with rfl | h
      · exact .inl List.mem_cons_self
      · exact (ih h).imp_left (List.mem_cons_of_mem _)

theorem targets_eq (peer : List PeerMetadata) (observed : List (SocketAddr × Bytes)) :
    ∃ candidates : List Target, targets p resolve peer [] = firstPerAddress [] candidates ∧
      targets p resolve peer observed = firstPerAddress [] (candidates ++
        observed.map fun seen => (seen.1, if seen.2.isEmpty then none else some seen.2)) :=
  ⟨_, by rw [targets, List.map_nil, List.append_nil], rfl⟩

/-- What is observed adds targets at observed addresses only. -/
theorem mem_targets_of_configured {peer : List PeerMetadata}
    {observed : List (SocketAddr × Bytes)} {target : Target}
    (h : target ∈ targets p resolve peer []) : target ∈ targets p resolve peer observed := by
  obtain ⟨candidates, hnone, hall⟩ := targets_eq p resolve peer observed
  rw [hnone] at h
  rw [hall]
  exact mem_firstPerAddress_append_left h _

theorem mem_targets_cases {peer : List PeerMetadata} {observed : List (SocketAddr × Bytes)}
    {target : Target} (h : target ∈ targets p resolve peer observed) :
    target ∈ targets p resolve peer [] ∨ ∃ t ∈ observed, t.1 = target.1 := by
  obtain ⟨candidates, hnone, hall⟩ := targets_eq p resolve peer observed
  rw [hall] at h
  rw [hnone]
  refine (mem_firstPerAddress_append h).imp_right fun hmem => ?_
  obtain ⟨t, ht, heq⟩ := List.mem_map.mp hmem
  exact ⟨t, ht, congrArg Prod.fst heq⟩

/-! Nodes. -/

section Nodes

variable {address} {node} {current : ι → ServeNode} (h : Unchanged address node current)

include h

theorem Unchanged.weTrust_eq (i : ι) (target : Target) :
    (current i).weTrust target = (node i).weTrust target := by
  have htrusts : (current i).executor.trustsPubkey = (node i).executor.trustsPubkey := by
    funext pubkey
    rw [Executor.trustsPubkey, Executor.trustsPubkey, h.trusted i]
  rw [ServeNode.weTrust, ServeNode.weTrust, htrusts]

theorem Unchanged.childVisited_eq (i : ι) (incoming : ProgramData) :
    (current i).childVisited incoming = (node i).childVisited incoming := by
  rw [ServeNode.childVisited, ServeNode.childVisited, h.key i]

theorem Unchanged.skips_eq (i : ι) (incoming : ProgramData) (target : Target) :
    (current i).skips incoming target = (node i).skips incoming target := by
  rw [ServeNode.skips, ServeNode.skips, h.key i]

variable [DecidableEq ι]

/-- A node's executor has moved on. -/
theorem Unchanged.atNode {i : ι} {executor : Executor}
    (htrusted : executor.trustedKeys = (current i).executor.trustedKeys)
    (hpeers : ∀ kv ∈ executor.peers.entries, ∀ j, address j ≠ kv.2.lastAddr) :
    Unchanged address node (DiscoveryWorld.atNode current i executor) := by
  have hother : ∀ k, k ≠ i → DiscoveryWorld.atNode current i executor k = current k :=
    fun k hk => Function.update_of_ne hk _ _
  have hself : DiscoveryWorld.atNode current i executor i =
      { current i with executor := executor } := Function.update_self _ _ _
  refine ⟨?_, ?_, ?_, ?_, ?_⟩
  all_goals
    intro k
    rcases eq_or_ne k i with rfl | hk
  · rw [hself]
    exact h.peer k
  · rw [hother k hk]
    exact h.peer k
  · rw [hself]
    exact h.key k
  · rw [hother k hk]
    exact h.key k
  · rw [hself]
    exact h.identity k
  · rw [hother k hk]
    exact h.identity k
  · rw [hself]
    exact htrusted.trans (h.trusted k)
  · rw [hother k hk]
    exact h.trusted k
  · intro t ht
    rw [hself] at ht
    obtain ⟨kv, hkv, rfl⟩ := List.mem_map.mp ht
    exact hpeers kv hkv
  · rw [hother k hk]
    exact h.unserved k

end Nodes

/-- The registry is written with the address a datagram came from. -/
theorem unserved_serveGroup {address : ι → SocketAddr} (compiles : Bytes → Bool) {e : Executor}
    (h : ∀ kv ∈ e.peers.entries, ∀ j, address j ≠ kv.2.lastAddr) {addr : SocketAddr}
    (haddr : ∀ j, address j ≠ addr) (now : UInt64) (received : Option NetworkMessage) :
    ∀ kv ∈ (e.serveGroup p.toCrypto compiles addr now received).peers.entries,
      ∀ j, address j ≠ kv.2.lastAddr := by
  intro kv hkv
  rw [Executor.serveGroup_peers] at hkv
  cases hnoted : notedSource p.toCrypto received with
  | none =>
    rw [hnoted] at hkv
    exact h kv hkv
  | some source =>
    simp only [hnoted, Executor.notePeer, AList.entries_insert] at hkv
    rcases List.mem_cons.mp hkv with rfl | hkv
    · exact haddr
    · exact h kv ((List.kerase_sublist _ _).subset hkv)

/-- Settled, as far as the lists go. -/
theorem settled_iff {address : ι → SocketAddr} {w : World ι} : Settled address w ↔
    (∀ s ∈ w.sent.zipIdx, ∀ j, address j = s.1.dest →
      ∃ x ∈ w.executed, x.node = j ∧ x.index = s.2) ∧
    ∀ s ∈ w.executed.zipIdx, 0 < s.1.request.program.depthBudget → s.2 ∈ w.forwarded := by
  constructor
  · rintro ⟨hdelivered, hfinished⟩
    exact ⟨fun s hs => hdelivered s.2 s.1 (List.mem_zipIdx_iff_getElem?.mp hs),
      fun s hs => hfinished s.2 s.1 (List.mem_zipIdx_iff_getElem?.mp hs)⟩
  · rintro ⟨hdelivered, hfinished⟩
    exact ⟨fun index r hr => hdelivered (r, index) (List.mem_zipIdx_iff_getElem?.mpr hr),
      fun k x hx => hfinished (x, k) (List.mem_zipIdx_iff_getElem?.mpr hx)⟩

/-! Steady runs keep the invariant. -/

section Runs

variable {p} {resolve} {address} {node} {roots} {w : World ι}

theorem invariant_start
    (hquiet : ∀ i, ∀ t ∈ (node i).observedTargets, ∀ j, address j ≠ t.1) :
    Invariant p resolve address node roots (start node roots) := by
  refine ⟨⟨fun _ => rfl, fun _ => rfl, fun _ => rfl, fun _ => rfl, hquiet⟩,
    recorded_start node roots, ?_, ?_, ?_, ?_⟩
  · intro root hroot
    exact ⟨⟨[], root.1, root.2⟩, List.mem_map.mpr ⟨root, hroot, rfl⟩, rfl, rfl⟩
  · intro r hr j hj
    obtain ⟨root, hroot, rfl⟩ := List.mem_map.mp hr
    apply Reached.root
    rw [hj]
    exact hroot
  · simp [start]
  · simp [start]

/-- What the forwarding of `x` puts on the wire reaches who it is sent to. -/
theorem reached_subRequest (h : Invariant p resolve address node roots w) {x : Execution ι}
    (hx : x ∈ w.executed) (hbudget : 0 < x.request.program.depthBudget)
    {observed : List (SocketAddr × Bytes)}
    (hobserved : observed.Perm (w.node x.node).observedTargets) {target : Target}
    {r : Request ι} (hsub : SubRequest w x (targetsOf p w x resolve observed) target r) {j : ι}
    (hj : address j = r.dest) :
    Reached p resolve address node roots j r.program.depthBudget r.program.visited := by
  obtain ⟨ourIdentity, childUuid, hidentity, hprogram⟩ := hsub.program
  have hdest : address j = target.1 := hj.trans hsub.dest
  have hconfigured : target ∈ configured p resolve (node x.node) := by
    rw [configured, ← h.nodes.peer]
    rcases mem_targets_cases p resolve hsub.target_mem with hmem | ⟨t, ht, heq⟩
    · exact hmem
    · exact absurd (hdest.trans heq.symm) (h.nodes.unserved x.node t (hobserved.subset ht) j)
  have hself := h.sent x.request (h.recorded.mem_sent hx) x.node (h.executed x hx)
  have htarget : (address j, target.2) = target := by rw [hdest]
  have hskip : ∀ pk ∈ target.2,
      pk ∉ x.request.program.visited ++ [(node x.node).identityPubkey] := by
    intro pk hpk hmem
    have hnot := hsub.not_skipped
    rw [h.nodes.skips_eq] at hnot
    have hyes := ((node x.node).skips_iff x.request.program target).mpr ⟨pk, hpk, hmem⟩
    rw [hnot] at hyes
    cases hyes
  have hhop := Reached.hop hself hbudget (by rw [← h.nodes.identity, hidentity]; rfl)
    (htarget ▸ hconfigured) hskip
  rw [htarget] at hhop
  rw [hprogram, ServeNode.subRequest, h.nodes.weTrust_eq, h.nodes.childVisited_eq]
  exact hhop

/-- The forwarding of `x` pays what `x` owes. -/
theorem exists_owed (h : Invariant p resolve address node roots w) (x : Execution ι)
    (observed : List (SocketAddr × Bytes)) (freshUuid : Uuid)
    (hidentity : (node x.node).identityData.isSome = true) {target : Target}
    (htarget : target ∈ configured p resolve (node x.node))
    (hskip : (node x.node).skips x.request.program target = false) :
    ∃ r ∈ forwardedBy p w x resolve observed freshUuid, Owed node x target r := by
  rw [← h.nodes.identity] at hidentity
  obtain ⟨ourIdentity, hidentity⟩ := Option.isSome_iff_exists.mp hidentity
  have hmem : target ∈ targetsOf p w x resolve observed := by
    rw [configured, ← h.nodes.peer] at htarget
    exact mem_targets_of_configured p resolve htarget
  rw [← h.nodes.skips_eq] at hskip
  refine ⟨_, List.mem_map.mpr ⟨(target, _), (ServeNode.mem_discoveryForward_iff _ _ _ _ _ _).mpr
    ⟨ourIdentity, hidentity, hmem, hskip, rfl⟩, rfl⟩, rfl, ?_, ?_⟩
  · show childDepthBudget _ ((w.node x.node).weTrust target) = _
    rw [h.nodes.weTrust_eq]
  · exact h.nodes.childVisited_eq x.node x.request.program

variable [DecidableEq ι] (compiles : Bytes → Bool)

/-- Step lemma. -/
theorem invariant_step {action : Action ι} (hsteady : Steady resolve address w action)
    (h : Invariant p resolve address node roots w) :
    Invariant p resolve address node roots (step p compiles w action) := by
  have hrecorded := recorded_step p compiles h.recorded action
  have hobserved : ∀ i, ∀ kv ∈ (w.node i).executor.peers.entries, ∀ j,
      address j ≠ kv.2.lastAddr := fun i kv hkv =>
    h.nodes.unserved i (kv.2.lastAddr, kv.2.pubkey) (List.mem_map.mpr ⟨kv, hkv, rfl⟩)
  cases action with
  | traffic i event =>
    refine ⟨?_, hrecorded, h.asked, h.sent, h.executed, h.forwarded⟩
    obtain ⟨hstartup, haddr⟩ := hsteady
    cases event with
    | startup name key => exact absurd rfl (hstartup name key)
    | datagram addr now received =>
      exact h.nodes.atNode (TrustSets.serveGroup_trustedKeys p.toCrypto compiles _ _ _ _)
        (unserved_serveGroup p compiles (hobserved i) (haddr addr now received rfl) _ _)
    | messagesPush pid id text now =>
      refine h.nodes.atNode ?_ ?_
      · exact TrustSets.step_traffic_trustedKeys p.toCrypto compiles _
          (.messagesPush pid id text now)
      · rw [Executor.step, Executor.messagesPush_peers]
        exact hobserved i
  | deliver i index addr now returned =>
    obtain ⟨hserves, haddr⟩ := hsteady
    cases hsent : w.sent[index]? with
    | none => simpa only [step, hsent] using h
    | some request =>
      have hnodes := h.nodes.atNode (i := i)
        (TrustSets.serveGroup_trustedKeys p.toCrypto compiles (w.node i).executor addr now
          (some (.executeRequest request.program)))
        (unserved_serveGroup p compiles (hobserved i) haddr now _)
      have hprefix := executed_prefix_step p compiles w (.deliver i index addr now returned)
      simp only [step, hsent] at hrecorded hprefix ⊢
      refine ⟨hnodes, hrecorded, h.asked, h.sent, ?_, ?_⟩
      · intro x hx
        rcases List.mem_append.mp hx with hx | hx
        · exact h.executed x hx
        · obtain ⟨running, -, rfl⟩ := Option.mem_map.mp (Option.mem_toList.mp hx)
          exact hserves request hsent
      · intro k hk
        obtain ⟨x, hx, howed⟩ := h.forwarded k hk
        exact ⟨x, getElem?_of_prefix hprefix hx, howed⟩
  | forward k resolve' observed freshUuid =>
    obtain rfl : resolve' = resolve := hsteady
    cases hexecuted : w.executed[k]? with
    | none => simpa only [step, hexecuted] using h
    | some x =>
      by_cases hruns : Forwarding w k x observed
      · simp only [step, hexecuted, hruns, if_true] at hrecorded ⊢
        obtain ⟨-, hbudget, -, hperm⟩ := hruns
        refine ⟨h.nodes, hrecorded, ?_, ?_, h.executed, ?_⟩
        · intro root hroot
          obtain ⟨r, hr, hasked⟩ := h.asked root hroot
          exact ⟨r, List.mem_append_left _ hr, hasked⟩
        · intro r hr j hj
          rcases List.mem_append.mp hr with hr | hr
          · exact h.sent r hr j hj
          · obtain ⟨target, hsub⟩ := mem_forwardedBy p hr
            exact reached_subRequest h (List.mem_of_getElem? hexecuted) hbudget hperm hsub hj
        · intro k' hk'
          rcases List.mem_append.mp hk' with hk' | hk'
          · obtain ⟨x', hx', howed⟩ := h.forwarded k' hk'
            refine ⟨x', hx', fun hidentity target htarget hskip => ?_⟩
            obtain ⟨r, hr, hdebt⟩ := howed hidentity target htarget hskip
            exact ⟨r, List.mem_append_left _ hr, hdebt⟩
          · rw [List.mem_singleton.mp hk']
            refine ⟨x, hexecuted, fun hidentity target htarget hskip => ?_⟩
            obtain ⟨r, hr, hdebt⟩ :=
              exists_owed h x observed freshUuid hidentity htarget hskip
            exact ⟨r, List.mem_append_right _ hr, hdebt⟩
      · simpa only [step, hexecuted, hruns, if_false] using h

/-- Run lemma. -/
theorem invariant_run
    (hquiet : ∀ i, ∀ t ∈ (node i).observedTargets, ∀ j, address j ≠ t.1)
    {actions : List (Action ι)}
    (hsteady : EachStep (step p compiles) (Steady resolve address) (start node roots) actions) :
    Invariant p resolve address node roots
      (actions.foldl (step p compiles) (start node roots)) := by
  have hevery : EveryState (step p compiles) (Invariant p resolve address node roots)
      (start node roots) actions :=
    everyState_of_eachStep (step p compiles)
      (fun _ _ hok => invariant_step compiles hok) (fun _ h => h) hsteady (invariant_start hquiet)
  exact hevery.last

omit [DecidableEq ι] in
/-- Whatever can be reached has been executed once all is settled. -/
theorem executed_of_reached (h : Invariant p resolve address node roots w)
    (hsettled : Settled address w) {j : ι} {budget : UInt8} {visited : List Bytes}
    (hreached : Reached p resolve address node roots j budget visited) :
    Executed w j budget visited := by
  have hanswer : ∀ r ∈ w.sent, ∀ j, address j = r.dest →
      Executed w j r.program.depthBudget r.program.visited := by
    intro r hr j hj
    obtain ⟨index, hindex⟩ := List.mem_iff_getElem?.mp hr
    obtain ⟨x, hx, hnode, hsame⟩ := hsettled.delivered index r hindex j hj
    have hrequest := h.recorded x hx
    rw [hsame, hindex, Option.some.injEq] at hrequest
    exact ⟨x, hx, hnode, by rw [← hrequest], by rw [← hrequest]⟩
  induction hreached with
  | @root j program hroot =>
    obtain ⟨r, hr, hdest, hprogram⟩ := h.asked _ hroot
    have hexecuted := hanswer r hr j hdest.symm
    rw [hprogram] at hexecuted
    exact hexecuted
  | @hop i j budget visited pin hi hbudget hidentity htarget hskip ih =>
    obtain ⟨x, hx, rfl, rfl, rfl⟩ := ih
    obtain ⟨k, hk⟩ := List.mem_iff_getElem?.mp hx
    obtain ⟨x', hx', howed⟩ := h.forwarded k (hsettled.finished k x hk hbudget)
    obtain rfl : x = x' := Option.some.inj (hk.symm.trans hx')
    have hnot : (node x.node).skips x.request.program (address j, pin) = false := by
      by_contra hyes
      rw [Bool.not_eq_false, ServeNode.skips_iff] at hyes
      obtain ⟨pk, hpk, hmem⟩ := hyes
      exact hskip pk hpk hmem
    obtain ⟨r, hr, hdebt⟩ := howed hidentity _ htarget hnot
    have hexecuted := hanswer r hr j hdebt.dest.symm
    rw [hdebt.budget, hdebt.visited] at hexecuted
    exact hexecuted

/-- In a settled state of a steady run a node has executed a request with a budget and
a visited list exactly when the configured peers lead there with them. -/
theorem executed_iff_reached
    (hquiet : ∀ i, ∀ t ∈ (node i).observedTargets, ∀ j, address j ≠ t.1)
    (actions : List (Action ι))
    (hsteady : EachStep (step p compiles) (Steady resolve address) (start node roots) actions)
    (hsettled : Settled address (actions.foldl (step p compiles) (start node roots)))
    (j : ι) (budget : UInt8) (visited : List Bytes) :
    Executed (actions.foldl (step p compiles) (start node roots)) j budget visited ↔
      Reached p resolve address node roots j budget visited := by
  have h := invariant_run compiles hquiet hsteady
  constructor
  · rintro ⟨x, hx, rfl, rfl, rfl⟩
    exact h.sent x.request (h.recorded.mem_sent hx) x.node (h.executed x hx)
  · exact executed_of_reached h hsettled

end Runs

/-- The laptop is asked, asks the server, and is not asked again by it. -/
def bothAsked : List (Action Machine) :=
  [.deliver .laptop 0 (.v4 0xC0A80101 50000) 1760000000 (some none),
    .forward 0 resolveIpv4 [(.v4 0xC0A80101 50000, aliceKey)] (Vector.replicate 16 8),
    .deliver .server 1 (.v4 0xC0A8010A 50001) 1760000000 (some none),
    .forward 1 resolveIpv4 [(.v4 0xC0A8010A 50001, Machine.laptop.key)] (Vector.replicate 16 9)]

def machineAddress (i : Machine) : SocketAddr := .v4 i.ip 2240

abbrev laptopPinned : Machine → ServeNode := Machine.node (some ⟨TrustSets.laptopLine⟩)

def laptopAsked : List (SocketAddr × ProgramData) := [(.v4 0xC0A8010A 2240, originRequest)]

theorem bothAsked_quiet : ∀ i, ∀ t ∈ (laptopPinned i).observedTargets, ∀ j,
    machineAddress j ≠ t.1 := by
  intro i t ht
  cases i <;> cases ht

theorem bothAsked_steady : EachStep (step machinePlatform fun _ => true)
    (Steady resolveIpv4 machineAddress) (start laptopPinned laptopAsked) bothAsked := by
  refine ⟨⟨?_, ?_⟩, rfl, ⟨?_, ?_⟩, rfl, trivial⟩ <;> decide +kernel

theorem bothAsked_settled : Settled machineAddress
    (bothAsked.foldl (step machinePlatform fun _ => true) (start laptopPinned laptopAsked)) :=
  settled_iff.mpr (by decide +kernel)

theorem executed_iff_reached_server :
    Executed (bothAsked.foldl (step machinePlatform fun _ => true)
      (start laptopPinned laptopAsked)) .server 2 [aliceKey, Machine.laptop.key] ↔
    Reached machinePlatform resolveIpv4 machineAddress laptopPinned laptopAsked .server 2
      [aliceKey, Machine.laptop.key] :=
  executed_iff_reached (fun _ => true) bothAsked_quiet bothAsked bothAsked_steady
    bothAsked_settled .server 2 [aliceKey, Machine.laptop.key]

/-! How far that is. -/

/-- The node `i` lists `j` under its key or under none, and as a trusted one where
that is asked for. -/
def Lists (trusted : Bool) (i j : ι) : Prop :=
  (node i).identityData.isSome = true ∧ ∃ pin,
    (address j, pin) ∈ configured p resolve (node i) ∧
      (∀ pk ∈ pin, pk = (node j).identityPubkey) ∧
      (trusted = true → (node i).weTrust (address j, pin) = true)

/-- What is left for `n` further hops after the first, whoever else is trusted. -/
theorem le_childDepthBudget {n : ℕ} {budget : UInt8} {trusted trusts : Bool}
    (hbudget : n + 1 ≤ budget.toNat) (hcap : n + 1 ≤ 1 + (trustCap trusted).toNat)
    (htrusts : trusted = true → trusts = true) :
    n ≤ (childDepthBudget budget trusts).toNat := by
  have hchild := childDepthBudget_toNat budget trusts
  have hle := trustCap_toNat trusted
  cases trusted with
  | true =>
    rw [htrusts rfl] at hchild ⊢
    simp only [cap, if_true] at hchild hle
    omega
  | false =>
    cases trusts with
    | true =>
      simp only [cap, if_true] at hchild
      simp only [cap, Bool.false_eq_true, if_false] at hle
      omega
    | false =>
      simp only [cap, Bool.false_eq_true, if_false] at hchild hle
      omega

section Walks

variable {p} {resolve} {address} {node} {roots} {trusted : Bool}
  (hkeys : Function.Injective fun i => (node i).identityPubkey)

include hkeys

/-- A walk that visits no node twice meets none that is on the visited list. -/
theorem reached_endOf {i : ι} {budget : UInt8} {visited : List Bytes} {walk : List ι}
    (hi : Reached p resolve address node roots i budget visited)
    (hchain : List.IsChain (Lists p resolve address node trusted) (i :: walk))
    (hnodup : (i :: walk).Nodup) (havoid : ∀ j ∈ walk, (node j).identityPubkey ∉ visited)
    (hbudget : walk.length ≤ budget.toNat)
    (hcap : walk.length ≤ 1 + (trustCap trusted).toNat) :
    ∃ budget' visited', Reached p resolve address node roots (endOf i walk) budget' visited' := by
  induction walk generalizing i budget visited with
  | nil => exact ⟨budget, visited, hi⟩
  | cons j walk ih =>
    obtain ⟨⟨hidentity, pin, htarget, hpin, htrust⟩, hrest⟩ := List.isChain_cons_cons.mp hchain
    obtain ⟨hfirst, hlater⟩ := List.nodup_cons.mp hnodup
    rw [List.length_cons] at hbudget hcap
    have hpositive : 0 < budget := by
      rw [UInt8.lt_iff_toNat_lt, UInt8.toNat_zero]
      omega
    have hnew : ∀ k ∈ j :: walk,
        (node k).identityPubkey ∉ visited ++ [(node i).identityPubkey] := by
      intro k hk hmem
      rcases List.mem_append.mp hmem with hmem | hmem
      · exact havoid k hk hmem
      · exact hfirst (hkeys (List.mem_singleton.mp hmem) ▸ hk)
    have hskip : ∀ pk ∈ pin, pk ∉ visited ++ [(node i).identityPubkey] := by
      intro pk hpk
      rw [hpin pk hpk]
      exact hnew j List.mem_cons_self
    rw [endOf_cons]
    apply ih (Reached.hop hi hpositive hidentity htarget hskip) hrest hlater
    · intro k hk
      exact hnew k (List.mem_cons_of_mem j hk)
    · exact le_childDepthBudget hbudget hcap htrust
    · omega

variable [DecidableEq ι] (compiles : Bytes → Bool)

/-- In a settled state of a steady run every node has executed the program to which a
walk leads from a node that was asked: over any listed peers as far as three hops, over
trusted ones as far as nine, each within the budget granted to that node. By which ways
the discovery has spread, and in which order, makes no difference. -/
theorem discovery_covers
    (hquiet : ∀ i, ∀ t ∈ (node i).observedTargets, ∀ j, address j ≠ t.1)
    (actions : List (Action ι))
    (hsteady : EachStep (step p compiles) (Steady resolve address) (start node roots) actions)
    (hsettled : Settled address (actions.foldl (step p compiles) (start node roots)))
    (i : ι) (program : ProgramData) (hroot : (address i, program) ∈ roots) (walk : List ι)
    (hwalk : List.IsChain (Lists p resolve address node trusted) (i :: walk))
    (havoid : ∀ j ∈ walk, (node j).identityPubkey ∉ program.visited)
    (hbudget : walk.length ≤ program.depthBudget.toNat)
    (hcap : walk.length ≤ if trusted then 9 else 3) :
    ∃ x ∈ (actions.foldl (step p compiles) (start node roots)).executed,
      x.node = endOf i walk := by
  obtain ⟨short, hshort⟩ := exists_shortened i walk hwalk
  have hle := hshort.length_le
  have hshortCap : short.length ≤ 1 + (trustCap trusted).toNat := by
    cases trusted with
    | true =>
      rw [if_pos rfl] at hcap
      exact hle.trans hcap
    | false =>
      rw [if_neg Bool.false_ne_true] at hcap
      exact hle.trans hcap
  obtain ⟨budget, visited, hreached⟩ := reached_endOf hkeys (Reached.root hroot) hshort.chain
    hshort.nodup (fun j hj => havoid j (hshort.subset hj)) (hle.trans hbudget) hshortCap
  obtain ⟨x, hx, hnode, -⟩ :=
    executed_of_reached (invariant_run compiles hquiet hsteady) hsettled hreached
  exact ⟨x, hx, hnode.trans hshort.endOf_eq⟩

end Walks

theorem discovery_covers_server :
    ∃ x ∈ (bothAsked.foldl (step machinePlatform fun _ => true)
      (start laptopPinned laptopAsked)).executed, x.node = Machine.server := by
  have hkeys : Function.Injective fun i => (laptopPinned i).identityPubkey := by
    intro i j hij
    have hne : Machine.laptop.key ≠ Machine.server.key := by decide
    cases i <;> cases j
    · rfl
    · exact absurd hij hne
    · exact absurd hij hne.symm
    · rfl
  have hlists : Lists machinePlatform resolveIpv4 machineAddress laptopPinned false
      .laptop .server := by
    refine ⟨rfl, none, ?_, nofun, nofun⟩
    decide +kernel
  exact discovery_covers hkeys (fun _ => true) bothAsked_quiet bothAsked bothAsked_steady
    bothAsked_settled .laptop originRequest (by decide +kernel) [.server]
    (List.isChain_pair.mpr hlists) (by decide +kernel) (by decide) (by decide)

end Weverywhere.DiscoveryCoverage
