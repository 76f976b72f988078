import Weverywhere.Discovery
import Weverywhere.Runs

/-!
Discovery sessions and the sockets their replies travel through: collectors of
the origins (`collect_until` in `src/src/command/netmap.rs`) and one relay for
each forwarded request (`relay_one_peer` in `src/src/command/serve.rs`).
Datagrams may be lost, delayed, reordered and delivered again and again, and an
endpoint is free for another socket once its holder is closed. The session of a
socket, a request or a reply is what the model knows of it, not the code.
-/
namespace Weverywhere.RelayWorld

open ByteStrings Identity Weverywhere.Configuration Messages Node Discovery Runs

/-- What a reply becomes on its way up: the same reply under the caller's UUID. -/
def rewritten (callerUuid : Uuid) : NetworkMessage → Option NetworkMessage
  | .basicReturnMap fromPid _ cborData => some (.basicReturnMap fromPid callerUuid cborData)
  | .basicReturnList fromPid _ cborData => some (.basicReturnList fromPid callerUuid cborData)
  | _ => none

/-- What a collector takes: maps under its own UUID. -/
def collected (requestUuid : Uuid) : NetworkMessage → Option (UInt64 × Bytes)
  | .basicReturnMap fromPid ru cborData =>
      if ru = requestUuid then some (fromPid, cborData) else none
  | _ => none

inductive Role
  | collector (requestUuid : Uuid)
  /-- `caller` is the socket that asked for what the relay forwarded. -/
  | relay (callerAddr : SocketAddr) (callerUuid : Uuid) (caller : ℕ)

/-- All addresses of one machine with one port are one endpoint of type `ε`. -/
structure Socket (ε : Type) where
  endpoint : ε
  session : ℕ
  role : Role

structure Request where
  sender : ℕ
  dest : SocketAddr
  program : ProgramData

/-- `ExecReturn`: the two slots a discovery program may fill. -/
structure ExecReturn where
  map : Option Bytes
  forwardUuid : Option Uuid

/-- An executed request; `returned` is `none` when waiting for the program failed. -/
structure Execution (ι : Type) where
  node : ι
  program : ProgramData
  callerAddr : SocketAddr
  caller : ℕ
  session : ℕ
  returned : Option ExecReturn

/-- A spawned `relay_one_peer`. -/
structure Task where
  subBytes : ProgramData
  peerAddr : SocketAddr
  callerAddr : SocketAddr
  callerUuid : Uuid
  caller : ℕ
  session : ℕ

/-- A map some node returned while executing a request of `session`. -/
structure Produced (ι : Type) where
  session : ℕ
  node : ι
  fromPid : UInt64
  cborData : Bytes

/-- A reply on its way to `addressee`; `produced` tells which map it carries. -/
structure Reply where
  dest : SocketAddr
  message : NetworkMessage
  addressee : ℕ
  produced : ℕ

structure Accepted where
  session : ℕ
  fromPid : UInt64
  cborData : Bytes
  deriving DecidableEq

/-- Everything that has happened so far. Sockets, requests, executions, tasks,
maps and replies are known by their position. -/
structure Log (ι ε : Type) where
  sessions : List Uuid := []
  sockets : List (Socket ε) := []
  closed : List ℕ := []
  requests : List Request := []
  executed : List (Execution ι) := []
  forwarded : List ℕ := []
  tasks : List Task := []
  bound : List ℕ := []
  produced : List (Produced ι) := []
  replies : List Reply := []
  accepted : List Accepted := []

namespace Log

variable {ι ε : Type}

def append (l l' : Log ι ε) : Log ι ε where
  sessions := l.sessions ++ l'.sessions
  sockets := l.sockets ++ l'.sockets
  closed := l.closed ++ l'.closed
  requests := l.requests ++ l'.requests
  executed := l.executed ++ l'.executed
  forwarded := l.forwarded ++ l'.forwarded
  tasks := l.tasks ++ l'.tasks
  bound := l.bound ++ l'.bound
  produced := l.produced ++ l'.produced
  replies := l.replies ++ l'.replies
  accepted := l.accepted ++ l'.accepted

instance : Append (Log ι ε) := ⟨append⟩

def sessionOf (l : Log ι ε) (s : ℕ) : Option ℕ := l.sockets[s]?.map Socket.session

/-- The socket `s` is open at the endpoint. -/
def Holds (l : Log ι ε) (s : ℕ) (endpoint : ε) : Prop :=
  s ∉ l.closed ∧ l.sockets[s]?.map Socket.endpoint = some endpoint

def Free (l : Log ι ε) (endpoint : ε) : Prop :=
  ∀ s < l.sockets.length, ¬ l.Holds s endpoint

instance [DecidableEq ε] (l : Log ι ε) (s : ℕ) (endpoint : ε) : Decidable (l.Holds s endpoint) :=
  inferInstanceAs (Decidable (_ ∧ _))

instance [DecidableEq ε] (l : Log ι ε) (endpoint : ε) : Decidable (l.Free endpoint) :=
  inferInstanceAs (Decidable (∀ s < l.sockets.length, _))

theorem sessionOf_append {l l' : Log ι ε} {s session : ℕ} (h : l.sessionOf s = some session) :
    (l ++ l').sessionOf s = some session := by
  obtain ⟨sock, hsock, rfl⟩ := Option.map_eq_some_iff.mp h
  change Option.map Socket.session (l.sockets ++ l'.sockets)[s]? = _
  rw [List.getElem?_append_left (List.getElem?_eq_some_iff.mp hsock).1, hsock, Option.map_some]

end Log

structure World (ι ε : Type) where
  node : ι → ServeNode
  log : Log ι ε

inductive Action (ι ε : Type)
  /-- Anything else a node receives or its programs do. -/
  | traffic (i : ι) (event : Event)
  | begin (requestUuid : Uuid)
  | collect (session : ℕ) (endpoint : ε)
  | ask (s : ℕ) (dest : SocketAddr) (program : ProgramData)
  | execute (i : ι) (n : ℕ) (addr : SocketAddr) (now : UInt64) (returned : Option ExecReturn)
  | forward (k : ℕ) (resolve : PeerMetadata → Option SocketAddr)
      (observed : List (SocketAddr × Bytes)) (freshUuid : Uuid)
  | bind (t : ℕ) (endpoint : ε)
  | read (s n : ℕ)
  | close (s : ℕ)

variable {ι ε : Type}

def start (node : ι → ServeNode) : World ι ε := ⟨node, {}⟩

variable [DecidableEq ε] (p : Platform) (compiles : Bytes → Bool) (endpointOf : SocketAddr → ε)

/-- The request `n` and the socket it came from, whose address the receiver sees. -/
def arriving (l : Log ι ε) (n : ℕ) (addr : SocketAddr) : Option (Request × Socket ε) := do
  let request ← l.requests[n]?
  let sock ← l.sockets[request.sender]?
  if sock.endpoint = endpointOf addr then some (request, sock) else none

/-- `serve_group` on a request: the map of the program goes back to the caller. -/
def executeEffect (w : World ι ε) (i : ι) (n : ℕ) (addr : SocketAddr) (now : UInt64)
    (returned : Option ExecReturn) : Log ι ε :=
  match arriving endpointOf w.log n addr with
  | none => {}
  | some (request, sock) =>
    match startedBy p.toCrypto compiles (w.node i).executor
        (.datagram addr now (some (.executeRequest request.program))) with
    | none => {}
    | some _ =>
      let runningPid := UInt64.ofNat (w.node i).executor.programs.length
      { executed := [⟨i, request.program, addr, request.sender, sock.session, returned⟩]
        produced := (returned.bind ExecReturn.map).toList.map fun cbor =>
          ⟨sock.session, i, runningPid, cbor⟩
        replies := (returned.bind ExecReturn.map).toList.map fun cbor =>
          ⟨addr, .basicReturnMap runningPid request.program.requestUuid cbor, request.sender,
            w.log.produced.length⟩ }

/-- `discovery_forward`, spawned behind its gate: one task for each sub-request. -/
def forwardEffect (w : World ι ε) (k : ℕ) (resolve : PeerMetadata → Option SocketAddr)
    (observed : List (SocketAddr × Bytes)) (freshUuid : Uuid) : Log ι ε :=
  match w.log.executed[k]? with
  | none => {}
  | some x =>
    let n := w.node x.node
    if k ∉ w.log.forwarded ∧ 0 < x.program.depthBudget ∧ x.returned.isSome = true ∧
        observed.Perm n.observedTargets then
      let childUuid := (x.returned.bind ExecReturn.forwardUuid).getD freshUuid
      { forwarded := [k]
        tasks := (n.discoveryForward (targets p resolve n.peer observed) x.program childUuid).map
          fun (target, sub) =>
            ⟨sub, target.1, x.callerAddr, x.program.requestUuid, x.caller, x.session⟩ }
    else {}

/-- The start of `relay_one_peer`: a socket of its own, and the request out of it. -/
def bindEffect (w : World ι ε) (t : ℕ) (endpoint : ε) : Log ι ε :=
  match w.log.tasks[t]? with
  | none => {}
  | some task =>
    if t ∉ w.log.bound ∧ w.log.Free endpoint then
      { bound := [t]
        sockets := [⟨endpoint, task.session, .relay task.callerAddr task.callerUuid task.caller⟩]
        requests := [⟨w.log.sockets.length, task.peerAddr, task.subBytes⟩] }
    else {}

/-- What an open socket does with a reply that comes to its endpoint. A relay asks
neither who sent it nor which UUID it carries. -/
def readEffect (w : World ι ε) (s n : ℕ) : Log ι ε :=
  match w.log.sockets[s]?, w.log.replies[n]? with
  | some sock, some reply =>
    if w.log.Holds s (endpointOf reply.dest) then
      match sock.role with
      | .collector requestUuid =>
          { accepted := (collected requestUuid reply.message).toList.map fun (fromPid, cborData) =>
              ⟨sock.session, fromPid, cborData⟩ }
      | .relay callerAddr callerUuid caller =>
          { replies := (rewritten callerUuid reply.message).toList.map fun out =>
              ⟨callerAddr, out, caller, reply.produced⟩ }
    else {}
  | _, _ => {}

def effect (w : World ι ε) : Action ι ε → Log ι ε
  | .traffic _ _ => {}
  | .begin requestUuid => { sessions := [requestUuid] }
  | .collect session endpoint =>
    match w.log.sessions[session]? with
    | none => {}
    | some requestUuid =>
      if w.log.Free endpoint then { sockets := [⟨endpoint, session, .collector requestUuid⟩] }
      else {}
  | .ask s dest program =>
    match w.log.sockets[s]? with
    | some ⟨_, _, .collector requestUuid⟩ =>
      if s ∉ w.log.closed ∧ program.requestUuid = requestUuid then
        { requests := [⟨s, dest, program⟩] }
      else {}
    | _ => {}
  | .execute i n addr now returned => executeEffect p compiles endpointOf w i n addr now returned
  | .forward k resolve observed freshUuid => forwardEffect p w k resolve observed freshUuid
  | .bind t endpoint => bindEffect w t endpoint
  | .read s n => readEffect endpointOf w s n
  | .close s => { closed := [s] }

variable [DecidableEq ι]

def atNode (node : ι → ServeNode) (i : ι) (event : Event) : ι → ServeNode :=
  Function.update node i
    { node i with executor := (node i).executor.step p.toCrypto compiles event }

def nodeAfter (w : World ι ε) : Action ι ε → ι → ServeNode
  | .traffic i event => atNode p compiles w.node i event
  | .execute i n addr now _ =>
    match arriving endpointOf w.log n addr with
    | none => w.node
    | some (request, _) => atNode p compiles w.node i
        (.datagram addr now (some (.executeRequest request.program)))
  | _ => w.node

def step (w : World ι ε) (action : Action ι ε) : World ι ε where
  node := nodeAfter p compiles endpointOf w action
  log := w.log ++ effect p compiles endpointOf w action

end Weverywhere.RelayWorld
