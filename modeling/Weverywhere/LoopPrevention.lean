import Weverywhere.DiscoveryWorld

/-!
Whether a discovery can come back to a node on its own path. The forwarder
compares the visited list with the key it knows a target under; a target it
knows no key of is forwarded to whoever answers at the address. Which nodes a
datagram from a node to an address reaches is left open.
-/
namespace Weverywhere.LoopPrevention

open ByteStrings Identity Weverywhere.Configuration Messages Node TrustSets Discovery DiscoveryWorld
  Runs

variable {ι : Type}

/-- No forwarded request was executed by a node on its visited list, and no node
executed two requests of one chain. -/
structure NoRequery (w : World ι) : Prop where
  executor : ∀ x ∈ w.executed, x.request.path ≠ [] →
    (w.node x.node).identityPubkey ∉ x.request.program.visited
  chain : ∀ x ∈ w.executed, (x.request.path.map Hop.forwarder ++ [x.node]).Nodup

/-- The node `j` is among those a request can get to: whoever its forwarder
reaches at its address, or anyone if nobody forwarded it. -/
def Arrives (reach : ι → SocketAddr → ι → Prop) (r : Request ι) (j : ι) : Prop :=
  ∀ last ∈ r.path.getLast?, reach last.forwarder r.dest j

def Routed (reach : ι → SocketAddr → ι → Prop) (w : World ι) : Action ι → Prop
  | .deliver i index _ _ _ => ∀ r ∈ w.sent[index]?, Arrives reach r i
  | _ => True

instance (reach : ι → SocketAddr → ι → Prop) [∀ i addr j, Decidable (reach i addr j)]
    (w : World ι) : (action : Action ι) → Decidable (Routed reach w action)
  | .deliver _ index _ _ _ =>
      inferInstanceAs (Decidable (∀ r ∈ w.sent[index]?, ∀ last ∈ r.path.getLast?, _))
  | .traffic _ _ => .isTrue trivial
  | .forward _ _ _ _ => .isTrue trivial

/-- Each target at whose address a node of the path answers is known to the
forwarder under a key of the path, be it pinned or observed. -/
def PathKnown (p : Platform) (reach : ι → SocketAddr → ι → Prop) (w : World ι) :
    Action ι → Prop
  | .forward k resolve observed _ => ∀ x ∈ w.executed[k]?, Forwarding w k x observed →
      (w.node x.node).identityData.isSome = true →
      ∀ target ∈ targetsOf p w x resolve observed, ∀ j, reach x.node target.1 j →
        (w.node j).identityPubkey ∈ (w.node x.node).childVisited x.request.program →
        ∃ pk ∈ target.2, pk ∈ (w.node x.node).childVisited x.request.program
  | _ => True

instance [Fintype ι] (p : Platform) (reach : ι → SocketAddr → ι → Prop)
    [∀ i addr j, Decidable (reach i addr j)] (w : World ι) :
    (action : Action ι) → Decidable (PathKnown p reach w action)
  | .forward k resolve observed _ =>
      inferInstanceAs (Decidable (∀ x ∈ w.executed[k]?, Forwarding w k x observed →
        (w.node x.node).identityData.isSome = true →
        ∀ target ∈ targetsOf p w x resolve observed, ∀ j, reach x.node target.1 j →
          (w.node j).identityPubkey ∈ (w.node x.node).childVisited x.request.program →
          ∃ pk ∈ target.2, pk ∈ (w.node x.node).childVisited x.request.program))
  | .traffic _ _ => .isTrue trivial
  | .deliver _ _ _ _ _ => .isTrue trivial

/-- No request on the wire can reach a node of its path; the path's forwarders
are different nodes, all on the visited list. -/
structure LoopFree (reach : ι → SocketAddr → ι → Prop) (w : World ι) : Prop where
  recorded : Recorded w
  noRequery : NoRequery w
  forwarders : ∀ r ∈ w.sent, (r.path.map Hop.forwarder).Nodup
  visited : ∀ r ∈ w.sent, ∀ hop ∈ r.path,
    (w.node hop.forwarder).identityPubkey ∈ r.program.visited
  reached : ∀ r ∈ w.sent, r.path ≠ [] → ∀ j, Arrives reach r j →
    (w.node j).identityPubkey ∉ r.program.visited

theorem loopFree_start (reach : ι → SocketAddr → ι → Prop) (node : ι → ServeNode)
    (roots : List (SocketAddr × ProgramData)) : LoopFree reach (start node roots) := by
  have hroot : ∀ r ∈ (start node roots).sent, r.path = [] := by
    intro r hr
    obtain ⟨_, -, rfl⟩ := List.mem_map.mp hr
    rfl
  refine ⟨recorded_start node roots, ⟨by simp [start], by simp [start]⟩, ?_, ?_, ?_⟩
  · intro r hr
    simp [hroot r hr]
  · intro r hr hop hmem
    simp [hroot r hr] at hmem
  · intro r hr hne
    exact absurd (hroot r hr) hne

/-- What a sub-request that survives loop prevention adds to the wire. -/
theorem loopFree_subRequest {reach : ι → SocketAddr → ι → Prop} {w : World ι}
    (h : LoopFree reach w) {x : Execution ι} (hx : x ∈ w.executed) {targets : List Target}
    {target : Target} {r : Request ι} (hsub : SubRequest w x targets target r)
    (hknown : ∀ j, reach x.node target.1 j →
      (w.node j).identityPubkey ∈ (w.node x.node).childVisited x.request.program →
      ∃ pk ∈ target.2, pk ∈ (w.node x.node).childVisited x.request.program) :
    (r.path.map Hop.forwarder).Nodup ∧
      (∀ hop ∈ r.path, (w.node hop.forwarder).identityPubkey ∈ r.program.visited) ∧
      ∀ j, Arrives reach r j → (w.node j).identityPubkey ∉ r.program.visited := by
  obtain ⟨ourIdentity, childUuid, -, hprogram⟩ := hsub.program
  have hvisited : r.program.visited = (w.node x.node).childVisited x.request.program := by
    rw [hprogram, ServeNode.subRequest]
  refine ⟨?_, ?_, ?_⟩
  · rw [hsub.path, List.map_append]
    exact h.noRequery.chain x hx
  · intro hop hmem
    rw [hvisited, ServeNode.childVisited]
    rw [hsub.path] at hmem
    rcases List.mem_append.mp hmem with hmem | hmem
    · exact List.mem_append_left _ (h.visited _ (h.recorded.mem_sent hx) hop hmem)
    · rw [List.mem_singleton.mp hmem]
      exact List.mem_append_right _ (List.mem_singleton_self _)
  · intro j harrives hmem
    have hreach := harrives _ (by rw [hsub.path]; exact List.getLast?_concat)
    rw [hsub.dest] at hreach
    rw [hvisited] at hmem
    have hskipped := (ServeNode.skips_iff _ _ _).mpr (hknown j hreach hmem)
    rw [hsub.not_skipped] at hskipped
    cases hskipped

variable [DecidableEq ι] (p : Platform) (compiles : Bytes → Bool)

theorem loopFree_step {reach : ι → SocketAddr → ι → Prop} {w : World ι} {action : Action ι}
    (hok : Routed reach w action ∧ PathKnown p reach w action) (h : LoopFree reach w) :
    LoopFree reach (step p compiles w action) := by
  obtain ⟨hrouted, hknown⟩ := hok
  have hkeys : ∀ i, ((step p compiles w action).node i).identityPubkey =
      (w.node i).identityPubkey := fun i => (node_step p compiles w action i).1
  have hnew : ∀ r ∈ (step p compiles w action).sent, r ∈ w.sent ∨
      (r.path.map Hop.forwarder).Nodup ∧
        (∀ hop ∈ r.path, (w.node hop.forwarder).identityPubkey ∈ r.program.visited) ∧
        ∀ j, Arrives reach r j → (w.node j).identityPubkey ∉ r.program.visited := by
    intro r hr
    rcases mem_sent_step p compiles hr with hr | ⟨k, resolve, observed, freshUuid, x, target,
      rfl, hx, hruns, hsub⟩
    · exact Or.inl hr
    · have hidentity : (w.node x.node).identityData.isSome = true := by
        obtain ⟨ourIdentity, _, hidentity, -⟩ := hsub.program
        rw [hidentity, Option.isSome_some]
      exact Or.inr (loopFree_subRequest h (List.mem_of_getElem? hx) hsub
        (hknown x hx hruns hidentity target hsub.target_mem))
  have hexecuted : ∀ x ∈ (step p compiles w action).executed, x ∈ w.executed ∨
      x.request ∈ w.sent ∧ Arrives reach x.request x.node := by
    intro x hx
    rcases mem_executed_step p compiles hx with hx | ⟨i, index, addr, now, returned, request,
      running, rfl, hsent, -, rfl⟩
    · exact Or.inl hx
    · exact Or.inr ⟨List.mem_of_getElem? hsent, hrouted request hsent⟩
  refine ⟨recorded_step p compiles h.recorded action, ⟨?_, ?_⟩, ?_, ?_, ?_⟩
  · intro x hx hne
    rw [hkeys]
    rcases hexecuted x hx with hx | ⟨hmem, harrives⟩
    · exact h.noRequery.executor x hx hne
    · exact h.reached _ hmem hne _ harrives
  · intro x hx
    rcases hexecuted x hx with hx | ⟨hmem, harrives⟩
    · exact h.noRequery.chain x hx
    · apply List.Nodup.append (h.forwarders _ hmem) (List.nodup_singleton _)
      rw [List.disjoint_singleton]
      intro hforwarder
      obtain ⟨hop, hhop, hnode⟩ := List.mem_map.mp hforwarder
      apply h.reached _ hmem (List.ne_nil_of_mem hhop) _ harrives
      rw [← hnode]
      exact h.visited _ hmem hop hhop
  · intro r hr
    rcases hnew r hr with hr | ⟨hnodup, -, -⟩
    · exact h.forwarders r hr
    · exact hnodup
  · intro r hr hop hmem
    rw [hkeys]
    rcases hnew r hr with hr | ⟨-, hvisited, -⟩
    · exact h.visited r hr hop hmem
    · exact hvisited hop hmem
  · intro r hr hne j harrives
    rw [hkeys]
    rcases hnew r hr with hr | ⟨-, -, hreached⟩
    · exact h.reached r hr hne j harrives
    · exact hreached j harrives

/-- A forwarding outside the condition puts a request on the wire that can be
delivered to a node on its visited list. -/
theorem requery_reachable {reach : ι → SocketAddr → ι → Prop} {w : World ι} {k : ℕ}
    {resolve : PeerMetadata → Option SocketAddr} {observed : List (SocketAddr × Bytes)}
    {freshUuid : Uuid} (h : ¬ PathKnown p reach w (.forward k resolve observed freshUuid)) :
    ∃ r ∈ (step p compiles w (.forward k resolve observed freshUuid)).sent, r.path ≠ [] ∧
      ∃ j, Arrives reach r j ∧ (w.node j).identityPubkey ∈ r.program.visited := by
  simp only [PathKnown] at h
  push Not at h
  obtain ⟨x, hx, hruns, hidentity, target, htarget, j, hreach, hmem, hunknown⟩ := h
  have hexecuted : w.executed[k]? = some x := hx
  obtain ⟨ourIdentity, hidentity⟩ := Option.isSome_iff_exists.mp hidentity
  have hskips : (w.node x.node).skips x.request.program target = false := by
    rw [← Bool.not_eq_true, ServeNode.skips_iff]
    rintro ⟨pk, hpk, hvisited⟩
    exact hunknown pk hpk hvisited
  have hforward := (ServeNode.mem_discoveryForward_iff (w.node x.node)
    (targetsOf p w x resolve observed) x.request.program ((x.returned.getD none).getD freshUuid)
    target _).mpr ⟨ourIdentity, hidentity, htarget, hskips, rfl⟩
  have hsent : (⟨x.request.path ++ [⟨x.node, target, (w.node x.node).weTrust target⟩], target.1,
      (w.node x.node).subRequest ourIdentity x.request.program
        ((x.returned.getD none).getD freshUuid) target⟩ : Request ι) ∈
      (step p compiles w (.forward k resolve observed freshUuid)).sent := by
    simp only [step, hexecuted, hruns, if_true]
    exact List.mem_append_right _ (List.mem_map.mpr ⟨_, hforward, rfl⟩)
  refine ⟨_, hsent, by simp, j, ?_, hmem⟩
  intro last hlast
  rw [List.getLast?_concat, Option.mem_some_iff] at hlast
  rw [← hlast]
  exact hreach

def Machine.reach (_ : Machine) (addr : SocketAddr) (j : Machine) : Prop := addr = .v4 j.ip 2240

instance (i : Machine) (addr : SocketAddr) (j : Machine) : Decidable (Machine.reach i addr j) :=
  inferInstanceAs (Decidable (_ = _))

def askedStart (pin : Option SingleTrustedKey) : World Machine :=
  start (Machine.node pin) [(.v4 0xC0A8010A 2240, originRequest)]

/-- The laptop is asked and asks the server, whose own sub-request, if it sends
one, goes to the laptop. The relays send from ports of their own. -/
def asked : List (Action Machine) :=
  [.deliver .laptop 0 (.v4 0xC0A80101 50000) 1760000000 (some none),
    .forward 0 resolveIpv4 [(.v4 0xC0A80101 50000, aliceKey)] (Vector.replicate 16 8),
    .deliver .server 1 (.v4 0xC0A8010A 50001) 1760000000 (some none),
    .forward 1 resolveIpv4 [(.v4 0xC0A8010A 50001, Machine.laptop.key)] (Vector.replicate 16 9),
    .deliver .laptop 2 (.v4 0xC0A80114 50002) 1760000001 (some none)]

end Weverywhere.LoopPrevention
