import Weverywhere.Discovery
import Weverywhere.Runs

/-!
A network of serving nodes through which one discovery spreads. Requests on the
wire may be lost, delayed, reordered and delivered again and again; between two
steps of the discovery any other traffic may change a node. A delivery executes
the request as `serve_group` does; the forwarding it spawns is a step of its own,
with the registry and the name resolution of its own time.
-/
namespace Weverywhere.DiscoveryWorld

open ByteStrings Identity Weverywhere.Configuration Messages Node Discovery Runs

/-- One forwarding: who forwarded, to which target, and whether it trusts it. -/
structure Hop (ι : Type) where
  forwarder : ι
  target : Target
  trusts : Bool
  deriving DecidableEq

/-- A request on the wire with the forwardings that led to it, oldest first. -/
structure Request (ι : Type) where
  path : List (Hop ι)
  dest : SocketAddr
  program : ProgramData

/-- A delivery of the request `sent[index]` that started its program: `returned`
is what the program left in its return slot, `none` when waiting for it failed. -/
structure Execution (ι : Type) where
  node : ι
  index : ℕ
  request : Request ι
  running : RunningProgram
  returned : Option (Option Uuid)

/-- `forwarded` lists the executions whose forwarding has run. -/
structure World (ι : Type) where
  node : ι → ServeNode
  sent : List (Request ι)
  executed : List (Execution ι)
  forwarded : List ℕ

inductive Action (ι : Type)
  /-- Anything else a node receives or its programs do. -/
  | traffic (i : ι) (event : Event)
  | deliver (i : ι) (index : ℕ) (addr : SocketAddr) (now : UInt64)
      (returned : Option (Option Uuid))
  /-- The forwarding spawned by the execution `k`. -/
  | forward (k : ℕ) (resolve : PeerMetadata → Option SocketAddr)
      (observed : List (SocketAddr × Bytes)) (freshUuid : Uuid)

variable {ι : Type}

/-- A network before anything is executed, with the origin's requests on the wire. -/
def start (node : ι → ServeNode) (roots : List (SocketAddr × ProgramData)) : World ι where
  node := node
  sent := roots.map fun (dest, program) => ⟨[], dest, program⟩
  executed := []
  forwarded := []

variable (p : Platform) (compiles : Bytes → Bool)

/-- The targets of the forwarding spawned by `x`, as the node finds them now. -/
def targetsOf (w : World ι) (x : Execution ι) (resolve : PeerMetadata → Option SocketAddr)
    (observed : List (SocketAddr × Bytes)) : List Target :=
  targets p resolve (w.node x.node).peer observed

/-- What the forwarding spawned by `x` puts on the wire. -/
def forwardedBy (w : World ι) (x : Execution ι) (resolve : PeerMetadata → Option SocketAddr)
    (observed : List (SocketAddr × Bytes)) (freshUuid : Uuid) : List (Request ι) :=
  let n := w.node x.node
  -- the program's own choice of a UUID comes first
  let childUuid := (x.returned.getD none).getD freshUuid
  (n.discoveryForward (targetsOf p w x resolve observed) x.request.program childUuid).map
    fun (target, sub) =>
      ⟨x.request.path ++ [⟨x.node, target, n.weTrust target⟩], target.1, sub⟩

/-- The program a delivery starts at a node, if it does. -/
def startedAt (w : World ι) (i : ι) (program : ProgramData) (addr : SocketAddr) (now : UInt64) :
    Option RunningProgram :=
  startedBy p.toCrypto compiles (w.node i).executor
    (.datagram addr now (some (.executeRequest program)))

/-- The request `r` that the execution `x` sends to `target`. -/
structure SubRequest (w : World ι) (x : Execution ι) (targets : List Target) (target : Target)
    (r : Request ι) : Prop where
  target_mem : target ∈ targets
  not_skipped : (w.node x.node).skips x.request.program target = false
  path : r.path = x.request.path ++ [⟨x.node, target, (w.node x.node).weTrust target⟩]
  dest : r.dest = target.1
  program : ∃ ourIdentity childUuid, (w.node x.node).identityData = some ourIdentity ∧
    r.program = (w.node x.node).subRequest ourIdentity x.request.program childUuid target

theorem mem_forwardedBy {w : World ι} {x : Execution ι}
    {resolve : PeerMetadata → Option SocketAddr} {observed : List (SocketAddr × Bytes)}
    {freshUuid : Uuid} {r : Request ι}
    (h : r ∈ forwardedBy p w x resolve observed freshUuid) :
    ∃ target, SubRequest w x (targetsOf p w x resolve observed) target r := by
  obtain ⟨⟨target, sub⟩, hmem, rfl⟩ := List.mem_map.mp h
  obtain ⟨ourIdentity, hidentity, htarget, hskip, rfl⟩ :=
    (ServeNode.mem_discoveryForward_iff _ _ _ _ _ _).mp hmem
  exact ⟨target, htarget, hskip, rfl, rfl, ourIdentity, _, hidentity, rfl⟩

/-- The execution `k` was not forwarded yet and the gate of `serve_group` lets it
be; `observed` lists the registry of its node in some order. -/
def Forwarding (w : World ι) (k : ℕ) (x : Execution ι) (observed : List (SocketAddr × Bytes)) :
    Prop :=
  k ∉ w.forwarded ∧ 0 < x.request.program.depthBudget ∧ x.returned.isSome = true ∧
    observed.Perm (w.node x.node).observedTargets

instance (w : World ι) (k : ℕ) (x : Execution ι) (observed : List (SocketAddr × Bytes)) :
    Decidable (Forwarding w k x observed) :=
  inferInstanceAs (Decidable (_ ∧ _))

/-- A started program is the request's, under the key of its source. -/
theorem startedAt_eq_some {w : World ι} {i : ι} {program : ProgramData} {addr : SocketAddr}
    {now : UInt64} {running : RunningProgram}
    (h : startedAt p compiles w i program addr now = some running) :
    running.data = program ∧ running.callerPubkey = program.source.encodedPublicKey ∧
      program.source.checkSelfSignature p.toCrypto = .ok () := by
  simp only [startedAt, startedBy] at h
  split_ifs at h with hstarts
  rw [← Option.some.inj h]
  exact ⟨rfl, rfl, hstarts.1⟩

/-- Every execution on record is one of a request on the wire. -/
def Recorded (w : World ι) : Prop := ∀ x ∈ w.executed, w.sent[x.index]? = some x.request

theorem Recorded.mem_sent {w : World ι} (h : Recorded w) {x : Execution ι}
    (hx : x ∈ w.executed) : x.request ∈ w.sent :=
  List.mem_of_getElem? (h x hx)

theorem recorded_start (node : ι → ServeNode) (roots : List (SocketAddr × ProgramData)) :
    Recorded (start node roots) := by
  simp [Recorded, start]

variable [DecidableEq ι]

def atNode (node : ι → ServeNode) (i : ι) (executor : Executor) : ι → ServeNode :=
  Function.update node i { node i with executor := executor }

def step (w : World ι) : Action ι → World ι
  | .traffic i event =>
      { w with node := atNode w.node i ((w.node i).executor.step p.toCrypto compiles event) }
  | .deliver i index addr now returned =>
    match w.sent[index]? with
    | none => w
    | some request =>
      { w with
        node := atNode w.node i ((w.node i).executor.serveGroup p.toCrypto compiles addr now
          (some (.executeRequest request.program)))
        executed := w.executed ++
          ((startedAt p compiles w i request.program addr now).map fun running =>
            ⟨i, index, request, running, returned⟩).toList }
  | .forward k resolve observed freshUuid =>
    match w.executed[k]? with
    | none => w
    | some x =>
      if Forwarding w k x observed then
        { w with
          sent := w.sent ++ forwardedBy p w x resolve observed freshUuid
          forwarded := w.forwarded ++ [k] }
      else w

/-! What one step can do. -/

/-- A step does nothing, changes the executor of a node, starts a program on
record or forwards on record. -/
theorem step_cases (w : World ι) (action : Action ι) :
    step p compiles w action = w ∨
    (∃ i executor, step p compiles w action = { w with node := atNode w.node i executor }) ∨
    (∃ i index addr now returned request running executor,
      action = .deliver i index addr now returned ∧ w.sent[index]? = some request ∧
      startedAt p compiles w i request.program addr now = some running ∧
      step p compiles w action =
        { w with
          node := atNode w.node i executor
          executed := w.executed ++ [⟨i, index, request, running, returned⟩] }) ∨
    ∃ k resolve observed freshUuid x,
      action = .forward k resolve observed freshUuid ∧ w.executed[k]? = some x ∧
      Forwarding w k x observed ∧
      step p compiles w action =
        { w with
          sent := w.sent ++ forwardedBy p w x resolve observed freshUuid
          forwarded := w.forwarded ++ [k] } := by
  cases action with
  | traffic i event => exact Or.inr (Or.inl ⟨i, _, rfl⟩)
  | deliver i index addr now returned =>
    simp only [step]
    cases hsent : w.sent[index]? with
    | none => exact Or.inl rfl
    | some request =>
      cases hstarted : startedAt p compiles w i request.program addr now with
      | none =>
        simp only [hstarted, Option.map_none, Option.toList_none, List.append_nil]
        exact Or.inr (Or.inl ⟨i, _, rfl⟩)
      | some running =>
        simp only [hstarted, Option.map_some, Option.toList_some]
        exact Or.inr (Or.inr (Or.inl
          ⟨i, index, addr, now, returned, request, running, _, rfl, hsent, hstarted, rfl⟩))
  | forward k resolve observed freshUuid =>
    simp only [step]
    cases hexecuted : w.executed[k]? with
    | none => exact Or.inl rfl
    | some x =>
      simp only
      split_ifs with hruns
      · exact Or.inr (Or.inr (Or.inr
          ⟨k, resolve, observed, freshUuid, x, rfl, hexecuted, hruns, rfl⟩))
      · exact Or.inl rfl

/-- A request is on the wire already or is sent by the forwarding of this step. -/
theorem mem_sent_step {w : World ι} {action : Action ι} {r : Request ι}
    (h : r ∈ (step p compiles w action).sent) :
    r ∈ w.sent ∨
      ∃ k resolve observed freshUuid x target,
        action = .forward k resolve observed freshUuid ∧ w.executed[k]? = some x ∧
        Forwarding w k x observed ∧
        SubRequest w x (targetsOf p w x resolve observed) target r := by
  rcases step_cases p compiles w action with hstep | ⟨i, executor, hstep⟩ |
    ⟨i, index, addr, now, returned, request, running, executor, -, -, -, hstep⟩ |
    ⟨k, resolve, observed, freshUuid, x, haction, hexecuted, hruns, hstep⟩
  · rw [hstep] at h
    exact Or.inl h
  · rw [hstep] at h
    exact Or.inl h
  · rw [hstep] at h
    exact Or.inl h
  · rw [hstep] at h
    rcases List.mem_append.mp h with h | h
    · exact Or.inl h
    · obtain ⟨target, hsub⟩ := mem_forwardedBy p h
      exact Or.inr
        ⟨k, resolve, observed, freshUuid, x, target, haction, hexecuted, hruns, hsub⟩

/-- An execution is on record already or starts in this step. -/
theorem mem_executed_step {w : World ι} {action : Action ι} {x : Execution ι}
    (h : x ∈ (step p compiles w action).executed) :
    x ∈ w.executed ∨
      ∃ i index addr now returned request running,
        action = .deliver i index addr now returned ∧ w.sent[index]? = some request ∧
        startedAt p compiles w i request.program addr now = some running ∧
        x = ⟨i, index, request, running, returned⟩ := by
  rcases step_cases p compiles w action with hstep | ⟨i, executor, hstep⟩ |
    ⟨i, index, addr, now, returned, request, running, executor, haction, hsent, hstarted, hstep⟩ |
    ⟨k, resolve, observed, freshUuid, x', -, -, -, hstep⟩
  · rw [hstep] at h
    exact Or.inl h
  · rw [hstep] at h
    exact Or.inl h
  · rw [hstep] at h
    rcases List.mem_append.mp h with h | h
    · exact Or.inl h
    · exact Or.inr ⟨i, index, addr, now, returned, request, running, haction, hsent, hstarted,
        List.mem_singleton.mp h⟩
  · rw [hstep] at h
    exact Or.inl h

theorem sent_prefix_step (w : World ι) (action : Action ι) :
    w.sent <+: (step p compiles w action).sent := by
  rcases step_cases p compiles w action with hstep | ⟨i, executor, hstep⟩ |
    ⟨i, index, addr, now, returned, request, running, executor, -, -, -, hstep⟩ |
    ⟨k, resolve, observed, freshUuid, x, -, -, -, hstep⟩
  · rw [hstep]
  · rw [hstep]
  · rw [hstep]
  · rw [hstep]
    exact List.prefix_append _ _

theorem executed_prefix_step (w : World ι) (action : Action ι) :
    w.executed <+: (step p compiles w action).executed := by
  rcases step_cases p compiles w action with hstep | ⟨i, executor, hstep⟩ |
    ⟨i, index, addr, now, returned, request, running, executor, -, -, -, hstep⟩ |
    ⟨k, resolve, observed, freshUuid, x, -, -, -, hstep⟩
  · rw [hstep]
  · rw [hstep]
  · rw [hstep]
    exact List.prefix_append _ _
  · rw [hstep]

theorem getElem?_of_prefix {α : Type} {xs ys : List α} (h : xs <+: ys) {k : ℕ} {x : α}
    (hx : xs[k]? = some x) : ys[k]? = some x := by
  obtain ⟨rest, rfl⟩ := h
  rw [List.getElem?_append_left (List.getElem?_eq_some_iff.mp hx).1]
  exact hx

theorem recorded_step {w : World ι} (h : Recorded w) (action : Action ι) :
    Recorded (step p compiles w action) := by
  intro x hx
  apply getElem?_of_prefix (sent_prefix_step p compiles w action)
  rcases mem_executed_step p compiles hx with hx | ⟨i, index, addr, now, returned, request,
    running, -, hsent, -, rfl⟩
  · exact h x hx
  · exact hsent

/-- No step changes a node's identity or configuration. -/
theorem node_step (w : World ι) (action : Action ι) (i : ι) :
    ((step p compiles w action).node i).identityPubkey = (w.node i).identityPubkey ∧
      ((step p compiles w action).node i).identityData = (w.node i).identityData := by
  have hnode : ∀ j executor, (atNode w.node j executor i).identityPubkey =
      (w.node i).identityPubkey ∧
        (atNode w.node j executor i).identityData = (w.node i).identityData := by
    intro j executor
    by_cases hij : i = j
    · subst hij
      simp [atNode]
    · simp [atNode, Function.update_of_ne hij]
  rcases step_cases p compiles w action with hstep | ⟨j, executor, hstep⟩ |
    ⟨j, index, addr, now, returned, request, running, executor, -, -, -, hstep⟩ |
    ⟨k, resolve, observed, freshUuid, x, -, -, -, hstep⟩
  · rw [hstep]
    exact ⟨rfl, rfl⟩
  · rw [hstep]
    exact hnode j executor
  · rw [hstep]
    exact hnode j executor
  · rw [hstep]
    exact ⟨rfl, rfl⟩

end Weverywhere.DiscoveryWorld
