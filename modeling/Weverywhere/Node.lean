import Weverywhere.MessageLog
import Weverywhere.Messages
import Mathlib.Data.List.AList

/-!
The parts of `Executor` that inbound traffic writes (`src/src/executor/mod.rs`)
and the receive loop of `serve_group` that writes them (`src/src/command/serve.rs`).
A datagram is taken as `serde_bare` decoded it, `none` when it did not decode.
What a guest program does is left open: any started program may push any message
at any time.
-/
namespace Weverywhere.Node

open ByteStrings Identity MessageLog Messages

structure PeerInfo where
  humanName : String
  pubkey : Bytes
  lastAddr : SocketAddr
  trusted : Bool
  lastSeenEpochS : UInt64
  deriving DecidableEq

/-- The parts of `RunningProgram` and its `RPStoreData` that the trust and
message imports read. -/
structure RunningProgram where
  data : ProgramData
  programIsTrusted : Bool
  callerPubkey : Bytes
  callerName : String
  deriving DecidableEq

/-- The shared state of a node. A program is found at the index that is its PID. -/
structure Executor where
  trustedKeys : AList (fun _ : String => Bytes)
  peers : AList (fun _ : String => PeerInfo)
  messages : MessageStore
  programs : List RunningProgram

/-- `begin_exec` fails on the identity check, or in `create_pid` on a module
that does not compile. -/
inductive ExecError
  | sourceSignature (e : SignatureError)
  | createPid
  deriving DecidableEq

namespace Executor

def new : Executor where
  trustedKeys := ∅
  peers := ∅
  messages := MessageStore.new 4096
  programs := []

def addTrustedKey (e : Executor) (name : String) (key : Bytes) : Executor :=
  { e with trustedKeys := e.trustedKeys.insert name key }

def trustsPubkey (e : Executor) (pubkey : Bytes) : Bool :=
  e.trustedKeys.entries.any fun kv => kv.2 == pubkey

/-- The registry entry `note_peer` writes. -/
def peerInfo (e : Executor) (addr : SocketAddr) (source : IdentityData) (now : UInt64) :
    PeerInfo where
  humanName := source.humanName
  pubkey := source.encodedPublicKey
  lastAddr := addr
  trusted := e.trustsPubkey source.encodedPublicKey
  lastSeenEpochS := now

def notePeer (e : Executor) (addr : SocketAddr) (source : IdentityData) (now : UInt64) :
    Executor :=
  { e with peers := e.peers.insert (hex source.encodedPublicKey) (e.peerInfo addr source now) }

def recordFabricMessage (e : Executor) (fromName : String) (fromPubkey id payload : Bytes)
    (epochS : UInt64) : Executor × ℕ :=
  let (messages, seq) := e.messages.push fromName fromPubkey id payload epochS
  ({ e with messages := messages }, seq)

/-- `create_pid`: `compiles` is `wasmtime::Module::new` accepting the bytes. -/
def createPid (compiles : Bytes → Bool) (e : Executor) (program : ProgramData)
    (programIsTrusted : Bool) : Except ExecError (Executor × ℕ) :=
  if compiles program.wasmProgramBytes then
    .ok ({ e with programs := e.programs ++ [{
            data := program
            programIsTrusted := programIsTrusted
            callerPubkey := program.source.encodedPublicKey
            callerName := program.source.humanName }] },
        e.programs.length)
  else .error .createPid

def beginExec (c : Crypto) (compiles : Bytes → Bool) (e : Executor) (program : ProgramData) :
    Except ExecError (Executor × ℕ) :=
  match program.source.checkSelfSignature c with
  | .error err => .error (.sourceSignature err)
  | .ok () => createPid compiles e program (e.trustsPubkey program.source.encodedPublicKey)

/-- `host::trusts_me`. -/
def trustsMe (program : RunningProgram) : ℕ := if program.programIsTrusted then 1 else 0

/-- `host::messages_push` as called by the program `pid`; a PID that was never
issued has no program to call it. -/
def messagesPush (e : Executor) (pid : ℕ) (id text : Bytes) (epochS : UInt64) : Executor × ℕ :=
  match e.programs[pid]? with
  | none => (e, 0)
  | some program =>
      let (messages, seq) := e.messages.push program.callerName program.callerPubkey id text epochS
      ({ e with messages := messages }, seq)

/-- The top three bits of the first byte: the CBOR major type of the payload. -/
def payloadMajor (payload : Bytes) : Option ℕ := payload.head?.map fun b => b.toNat / 32

/-- `host::messages_send`: `nonce` is what the host drew from its random source,
`sinkOpen` whether the launcher still drains an attached sink (`none`: no sink). -/
def messagesSend (c : Crypto) (identityData : Option IdentityData) (signingKey : Option Bytes)
    (sinkOpen : Option Bool) (nonce : Vector UInt8 16) (payload : Bytes) :
    ℤ × Option NetworkMessage :=
  if payloadMajor payload ≠ some 4 ∧ payloadMajor payload ≠ some 5 then (-2, none)
  else
    match identityData, signingKey, sinkOpen with
    | some source, some key, some isOpen =>
        let signature := IdentityData.signPayload c key nonce.toList payload
        if isOpen then
          (0, some (.signedFabricMessage source nonce.toList payload signature))
        else (-1, none)
    | _, _, _ => (-1, none)

/-- What one received datagram does to the node, up to the exit of the program
it may carry. -/
def serveGroup (c : Crypto) (compiles : Bytes → Bool) (e : Executor) (addr : SocketAddr)
    (now : UInt64) : Option NetworkMessage → Executor
  | some (.executeRequest program) =>
      -- the self-signature check at this point only writes the audit log
      let noted := e.notePeer addr program.source now
      match noted.beginExec c compiles program with
      | .ok (started, _) => started
      | .error _ => noted
  | some (.signedFabricMessage source id cborData signature) =>
      match source.checkSelfSignature c with
      | .error _ => e
      | .ok () =>
        match source.verifyPayload c id cborData signature with
        | .error _ => e
        | .ok () =>
          ((e.notePeer addr source now).recordFabricMessage source.humanName
            source.encodedPublicKey id cborData now).1
  | some _ => e
  | none => e

end Executor

/-- Everything that writes the modelled state of a node. -/
inductive Event
  | startup (name : String) (key : Bytes)
  | datagram (addr : SocketAddr) (now : UInt64) (received : Option NetworkMessage)
  | messagesPush (pid : ℕ) (id text : Bytes) (now : UInt64)

namespace Executor

variable (c : Crypto) (compiles : Bytes → Bool)

def step (e : Executor) : Event → Executor
  | .startup name key => e.addTrustedKey name key
  | .datagram addr now received => e.serveGroup c compiles addr now received
  | .messagesPush pid id text now => (e.messagesPush pid id text now).1

def run (e : Executor) (events : List Event) : Executor := events.foldl (step c compiles) e

@[simp] theorem run_nil (e : Executor) : e.run c compiles [] = e := rfl

theorem run_append_singleton (e : Executor) (events : List Event) (event : Event) :
    e.run c compiles (events ++ [event]) = (e.run c compiles events).step c compiles event := by
  simp [run]

end Executor

/-- Both signatures of a fabric message check out. -/
def FabricVerified (c : Crypto) (source : IdentityData) (id cborData signature : Bytes) : Prop :=
  source.checkSelfSignature c = .ok () ∧ source.verifyPayload c id cborData signature = .ok ()

instance (c : Crypto) (source : IdentityData) (id cborData signature : Bytes) :
    Decidable (FabricVerified c source id cborData signature) :=
  inferInstanceAs (Decidable (_ ∧ _))

/-- The source a datagram's handler passes to `note_peer`, if it does. -/
def notedSource (c : Crypto) : Option NetworkMessage → Option IdentityData
  | some (.executeRequest program) => some program.source
  | some (.signedFabricMessage source id cborData signature) =>
      if FabricVerified c source id cborData signature then some source else none
  | _ => none

namespace Executor

variable (c : Crypto) (compiles : Bytes → Bool)

/-- An execution request always notes its source; it also starts the program
when the source's self-signature checks out and the module compiles. -/
theorem serveGroup_executeRequest (e : Executor) (addr : SocketAddr) (now : UInt64)
    (program : ProgramData) :
    e.serveGroup c compiles addr now (some (.executeRequest program)) =
      if program.source.checkSelfSignature c = .ok () ∧
          compiles program.wasmProgramBytes = true then
        { e.notePeer addr program.source now with
          programs := e.programs ++ [⟨program, e.trustsPubkey program.source.encodedPublicKey,
            program.source.encodedPublicKey, program.source.humanName⟩] }
      else e.notePeer addr program.source now := by
  cases hcheck : program.source.checkSelfSignature c with
  | error err => simp [serveGroup, beginExec, hcheck]
  | ok _ =>
    cases hcompiles : compiles program.wasmProgramBytes with
    | false => simp [serveGroup, beginExec, createPid, hcheck, hcompiles]
    | true =>
      simp only [serveGroup, beginExec, createPid, hcheck, hcompiles, and_self, if_true]
      rfl

theorem serveGroup_fabric_verified (e : Executor) (addr : SocketAddr) (now : UInt64)
    (source : IdentityData) (id cborData signature : Bytes)
    (h : FabricVerified c source id cborData signature) :
    e.serveGroup c compiles addr now (some (.signedFabricMessage source id cborData signature)) =
      ((e.notePeer addr source now).recordFabricMessage source.humanName
        source.encodedPublicKey id cborData now).1 := by
  simp only [serveGroup, h.1, h.2]

theorem serveGroup_fabric_unverified (e : Executor) (addr : SocketAddr) (now : UInt64)
    (source : IdentityData) (id cborData signature : Bytes)
    (h : ¬ FabricVerified c source id cborData signature) :
    e.serveGroup c compiles addr now (some (.signedFabricMessage source id cborData signature)) =
      e := by
  cases hself : source.checkSelfSignature c with
  | error err => simp only [serveGroup, hself]
  | ok _ =>
    cases hpayload : source.verifyPayload c id cborData signature with
    | error err => simp only [serveGroup, hself, hpayload]
    | ok _ => exact absurd ⟨hself, hpayload⟩ h

/-- A send puts a message on the wire exactly when the payload starts like a list
or a map, the node has an identity and its key, and somebody drains the sink. -/
theorem messagesSend_eq_some_iff (identityData : Option IdentityData) (signingKey : Option Bytes)
    (sinkOpen : Option Bool) (nonce : Vector UInt8 16) (payload : Bytes)
    (message : NetworkMessage) :
    (messagesSend c identityData signingKey sinkOpen nonce payload).2 = some message ↔
      (payloadMajor payload = some 4 ∨ payloadMajor payload = some 5) ∧ sinkOpen = some true ∧
        ∃ source key, identityData = some source ∧ signingKey = some key ∧
          message = .signedFabricMessage source nonce.toList payload
            (IdentityData.signPayload c key nonce.toList payload) := by
  unfold messagesSend
  by_cases hmajor : payloadMajor payload = some 4 ∨ payloadMajor payload = some 5
  · rw [if_neg (fun h => hmajor.elim h.1 h.2)]
    cases identityData with
    | none => simp
    | some source =>
      cases signingKey with
      | none => simp
      | some key =>
        cases sinkOpen with
        | none => simp
        | some isOpen =>
          cases isOpen with
          | false => simp
          | true => simpa [hmajor] using eq_comm
  · rw [if_pos ⟨fun h => hmajor (Or.inl h), fun h => hmajor (Or.inr h)⟩]
    simp [hmajor]

@[simp] theorem recordFabricMessage_peers (e : Executor) (fromName : String)
    (fromPubkey id payload : Bytes) (epochS : UInt64) :
    (e.recordFabricMessage fromName fromPubkey id payload epochS).1.peers = e.peers := rfl

@[simp] theorem messagesPush_peers (e : Executor) (pid : ℕ) (id text : Bytes) (epochS : UInt64) :
    (e.messagesPush pid id text epochS).1.peers = e.peers := by
  unfold messagesPush
  split <;> rfl

/-- The registry changes exactly when a handler notes its source. -/
theorem serveGroup_peers (e : Executor) (addr : SocketAddr) (now : UInt64)
    (received : Option NetworkMessage) :
    (e.serveGroup c compiles addr now received).peers =
      match notedSource c received with
      | none => e.peers
      | some source => (e.notePeer addr source now).peers := by
  match received with
  | none => rfl
  | some (.executeRequest program) =>
    rw [serveGroup_executeRequest]
    split_ifs <;> rfl
  | some (.signedFabricMessage source id cborData signature) =>
    by_cases hver : FabricVerified c source id cborData signature
    · simp only [serveGroup_fabric_verified c compiles e addr now source id cborData signature hver,
        notedSource, hver, if_true, recordFabricMessage_peers]
    · simp only [serveGroup_fabric_unverified c compiles e addr now source id cborData signature
        hver, notedSource, hver, if_false]
  | some (.basicInsecureProgramStdout _ _) => rfl
  | some (.basicInsecureProgramExit _ _) => rfl
  | some (.basicReturnMap _ _ _) => rfl
  | some (.basicReturnList _ _ _) => rfl

end Executor

section Writes

variable (c : Crypto) (compiles : Bytes → Bool)

/-- The push an event performs on the message store, if it does. -/
def pushedBy (e : Executor) : Event → Option Push
  | .datagram _ now (some (.signedFabricMessage source id cborData signature)) =>
      if FabricVerified c source id cborData signature then
        some ⟨source.humanName, source.encodedPublicKey, id, cborData, now⟩
      else none
  | .messagesPush pid id text now =>
      e.programs[pid]?.map fun program =>
        ⟨program.callerName, program.callerPubkey, id, text, now⟩
  | _ => none

theorem step_messages (e : Executor) (event : Event) :
    (e.step c compiles event).messages =
      match pushedBy c e event with
      | none => e.messages
      | some p => (e.messages.pushOf p).1 := by
  match event with
  | .startup name key => rfl
  | .messagesPush pid id text now =>
    simp only [Executor.step, Executor.messagesPush, pushedBy]
    cases e.programs[pid]? <;> rfl
  | .datagram addr now none => rfl
  | .datagram addr now (some (.executeRequest program)) =>
    simp only [Executor.step, Executor.serveGroup_executeRequest, pushedBy]
    split_ifs <;> rfl
  | .datagram addr now (some (.signedFabricMessage source id cborData signature)) =>
    by_cases hver : FabricVerified c source id cborData signature
    · simp only [Executor.step, pushedBy, hver, if_true,
        Executor.serveGroup_fabric_verified c compiles e addr now source id cborData signature hver]
      rfl
    · simp only [Executor.step, pushedBy, hver, if_false,
        Executor.serveGroup_fabric_unverified c compiles e addr now source id cborData signature
          hver]
  | .datagram addr now (some (.basicInsecureProgramStdout _ _)) => rfl
  | .datagram addr now (some (.basicInsecureProgramExit _ _)) => rfl
  | .datagram addr now (some (.basicReturnMap _ _ _)) => rfl
  | .datagram addr now (some (.basicReturnList _ _ _)) => rfl

/-- Only identities that passed the self check get to run programs. -/
def CallersChecked (e : Executor) : Prop :=
  ∀ program ∈ e.programs, program.callerPubkey.length = 32

/-- The program an event starts, if it does. -/
def startedBy (e : Executor) : Event → Option RunningProgram
  | .datagram _ _ (some (.executeRequest program)) =>
      if program.source.checkSelfSignature c = .ok () ∧
          compiles program.wasmProgramBytes = true then
        some ⟨program, e.trustsPubkey program.source.encodedPublicKey,
          program.source.encodedPublicKey, program.source.humanName⟩
      else none
  | _ => none

theorem step_programs (e : Executor) (event : Event) :
    (e.step c compiles event).programs = e.programs ++ (startedBy c compiles e event).toList := by
  match event with
  | .startup name key => simp [startedBy, Executor.step, Executor.addTrustedKey]
  | .messagesPush pid id text now =>
    simp only [Executor.step, Executor.messagesPush, startedBy, Option.toList_none,
      List.append_nil]
    cases e.programs[pid]? <;> rfl
  | .datagram addr now none => simp [startedBy, Executor.step, Executor.serveGroup]
  | .datagram addr now (some (.executeRequest program)) =>
    simp only [Executor.step, Executor.serveGroup_executeRequest, startedBy]
    split_ifs <;> simp [Executor.notePeer]
  | .datagram addr now (some (.signedFabricMessage source id cborData signature)) =>
    simp only [Executor.step, startedBy, Option.toList_none, List.append_nil]
    by_cases hver : FabricVerified c source id cborData signature
    · rw [Executor.serveGroup_fabric_verified c compiles e addr now source id cborData signature
        hver]
      rfl
    · rw [Executor.serveGroup_fabric_unverified c compiles e addr now source id cborData signature
        hver]
  | .datagram addr now (some (.basicInsecureProgramStdout _ _)) =>
    simp [startedBy, Executor.step, Executor.serveGroup]
  | .datagram addr now (some (.basicInsecureProgramExit _ _)) =>
    simp [startedBy, Executor.step, Executor.serveGroup]
  | .datagram addr now (some (.basicReturnMap _ _ _)) =>
    simp [startedBy, Executor.step, Executor.serveGroup]
  | .datagram addr now (some (.basicReturnList _ _ _)) =>
    simp [startedBy, Executor.step, Executor.serveGroup]

/-- A program starts only from a request whose source passed its self check, as
that source's program. -/
theorem startedBy_eq_some {e : Executor} {event : Event} {program : RunningProgram}
    (h : startedBy c compiles e event = some program) :
    program.data.source.checkSelfSignature c = .ok () ∧
      program.callerPubkey = program.data.source.encodedPublicKey := by
  unfold startedBy at h
  split at h
  · split_ifs at h with hstart
    rw [← Option.some.inj h]
    exact ⟨hstart.1, rfl⟩
  · cases h

theorem callersChecked_step {e : Executor} (h : CallersChecked e) (event : Event) :
    CallersChecked (e.step c compiles event) := by
  intro program hmem
  rw [step_programs] at hmem
  rcases List.mem_append.mp hmem with hmem | hmem
  · exact h program hmem
  · obtain ⟨hcheck, hkey⟩ := startedBy_eq_some c compiles (Option.mem_toList.mp hmem)
    rw [hkey]
    exact IdentityData.checkSelfSignature_key_length hcheck

theorem pushedBy_key_length {e : Executor} (h : CallersChecked e) {event : Event} {p : Push}
    (hp : pushedBy c e event = some p) : p.fromPubkey.length = 32 := by
  unfold pushedBy at hp
  split at hp
  · split_ifs at hp with hver
    rw [← Option.some.inj hp]
    exact IdentityData.checkSelfSignature_key_length hver.1
  · obtain ⟨program, hprogram, rfl⟩ := Option.map_eq_some_iff.mp hp
    exact h program (List.mem_of_getElem? hprogram)
  · cases hp

end Writes

end Weverywhere.Node
