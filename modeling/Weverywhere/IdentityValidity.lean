import Weverywhere.Discovery
import Weverywhere.FabricWorld
import Mathlib.Algebra.Ring.Nat

/-!
The validity window of identities over the whole life of a node. Receivers do
not look at it: neither the self check nor the handlers of `serve_group` nor
`host::messages_push` compare it with the clock. Senders make a window of 65535
seconds when a command or a node starts and keep it, so what they send later than
that carries an identity that is out of date.
-/
namespace Weverywhere.IdentityValidity

open ByteStrings Identity MessageLog Weverywhere.Configuration Messages Node TrustSets Discovery
  Runs

/-- `now` is neither before the identity was made nor after its validity. -/
def ValidAt (d : IdentityData) (now : UInt64) : Prop :=
  d.generatedAtUtc0EpochS.toNat ≤ now.toNat ∧
    now.toNat ≤ d.generatedAtUtc0EpochS.toNat + d.validityS.toNat

instance (d : IdentityData) (now : UInt64) : Decidable (ValidAt d now) :=
  inferInstanceAs (Decidable (_ ∧ _))

/-- No more than 65535 seconds after the start, and not before it. -/
def InWindow (startedAt now : UInt64) : Prop :=
  startedAt.toNat ≤ now.toNat ∧ now.toNat ≤ startedAt.toNat + 65535

instance (startedAt now : UInt64) : Decidable (InWindow startedAt now) :=
  inferInstanceAs (Decidable (_ ∧ _))

def sourceOf : NetworkMessage → Option IdentityData
  | .executeRequest program => some program.source
  | .signedFabricMessage source _ _ _ => some source
  | _ => none

/-- The two times at which an identity may be asked to be valid: when the datagram
that brought it came in, and when it is honoured. They differ for the pushes of a
program, which follow the request that started it. -/
inductive Moment
  | received
  | honoured

structure Honoured where
  identity : IdentityData
  receivedAt : UInt64
  honouredAt : UInt64
  deriving DecidableEq

def Moment.time : Moment → UInt64 → UInt64 → UInt64
  | .received, receivedAt, _ => receivedAt
  | .honoured, _, honouredAt => honouredAt

def Honoured.ValidWhen (entry : Honoured) (moment : Moment) : Prop :=
  ValidAt entry.identity (moment.time entry.receivedAt entry.honouredAt)

/-- A node over its life. `honoured` and `emitted` list what it honoured and what
was sent in its name, `requestedAt` when the request of each program came in. -/
structure World where
  node : ServeNode
  requestedAt : List UInt64
  honoured : List Honoured
  emitted : List (NetworkMessage × UInt64)

inductive Action
  | node (event : Event)
  /-- One send of `discovery_forward` for an executed request. -/
  | forward (incoming : ProgramData) (childUuid : Uuid) (target : Target) (now : UInt64)
  | messagesSend (sinkOpen : Option Bool) (nonce : Vector UInt8 16) (payload : Bytes)
      (now : UInt64)
  /-- `netmap` and `run` make their identity when they start. -/
  | netmap (config : Config) (startedAt : UInt64) (wasmBytes : Bytes) (requestUuid : Uuid)
      (depth : UInt8) (now : UInt64)
  | run (config : Config) (startedAt : UInt64) (fileName : Option String) (wasmBytes : Bytes)
      (argList : List String) (argMap : List (String × String)) (now : UInt64)

def start (p : Platform) (config : Config) (startedAt : UInt64) : World where
  node := ServeNode.new p config startedAt
  requestedAt := []
  honoured := []
  emitted := []

/-- The request of `run`, once the source is generated. -/
def runRequest (source : IdentityData) (fileName : Option String) (wasmBytes : Bytes)
    (argList : List String) (argMap : List (String × String)) : ProgramData where
  source := source
  humanName := fileName.getD "UNSET_NAME"
  wasmProgramBytes := wasmBytes
  signature := []
  requestUuid := Vector.replicate 16 0
  depthBudget := 0
  visited := []
  argList := argList
  argMap := argMap

variable (p : Platform) (compiles : Bytes → Bool)

/-- What counts as honouring the identity of a datagram: its program starts as a
trusted one, a message is recorded under it, or its registry entry comes out as
trusted. -/
def Honours (e : Executor) (addr : SocketAddr) (now : UInt64) (message : NetworkMessage)
    (d : IdentityData) : Prop :=
  (∃ running ∈ startedBy p.toCrypto compiles e (.datagram addr now (some message)),
    running.programIsTrusted = true) ∨
  FabricWorld.recorded p.toCrypto e (.datagram addr now (some message)) ≠ [] ∨
  (notedSource p.toCrypto (some message) = some d ∧
    ∃ info ∈ (e.serveGroup p.toCrypto compiles addr now (some message)).peers.lookup
      (hex d.encodedPublicKey), info.trusted = true)

instance (e : Executor) (addr : SocketAddr) (now : UInt64) (message : NetworkMessage)
    (d : IdentityData) : Decidable (Honours p compiles e addr now message d) :=
  inferInstanceAs (Decidable (_ ∨ _ ∨ _))

/-- A program's push records under the source of the request that started it. -/
def honouredBy (w : World) : Action → List Honoured
  | .node (.datagram addr now (some message)) =>
      ((sourceOf message).toList.filter fun d =>
        Honours p compiles w.node.executor addr now message d).map fun d => ⟨d, now, now⟩
  | .node (.messagesPush pid id text now) =>
      if FabricWorld.recorded p.toCrypto w.node.executor (.messagesPush pid id text now) = [] then
        []
      else
        match w.node.executor.programs[pid]?, w.requestedAt[pid]? with
        | some program, some receivedAt => [⟨program.data.source, receivedAt, now⟩]
        | _, _ => []
  | _ => []

/-- The receive time of the request, when an event starts a program. -/
def requestedBy (e : Executor) : Action → List UInt64
  | .node (.datagram addr now received) =>
      (startedBy p.toCrypto compiles e (.datagram addr now received)).toList.map fun _ => now
  | _ => []

/-- `config` is the configuration the node was started with. -/
def emittedBy (config : Config) (n : ServeNode) : Action → List (NetworkMessage × UInt64)
  | .node _ => []
  | .forward incoming childUuid target now =>
      (n.discoveryForward [target] incoming childUuid).map fun (_, sub) =>
        (.executeRequest sub, now)
  | .messagesSend sinkOpen nonce payload now =>
      let signingKey := p.readPrivateKeyEd25519PemFile config.identity.keyfile
      let (_, sent) :=
        Executor.messagesSend p.toCrypto n.identityData signingKey sinkOpen nonce payload
      sent.toList.map fun message => (message, now)
  | .netmap config startedAt wasmBytes requestUuid depth now =>
      (generateFromConfig p config startedAt).toList.map fun source =>
        (.executeRequest (makeRequest p config source wasmBytes requestUuid depth), now)
  | .run config startedAt fileName wasmBytes argList argMap now =>
      (generateFromConfig p config startedAt).toList.map fun source =>
        (.executeRequest (runRequest source fileName wasmBytes argList argMap), now)

def step (config : Config) (w : World) (action : Action) : World where
  node :=
    match action with
    | .node event => { w.node with executor := w.node.executor.step p.toCrypto compiles event }
    | _ => w.node
  requestedAt := w.requestedAt ++ requestedBy p compiles w.node.executor action
  honoured := w.honoured ++ honouredBy p compiles w action
  emitted := w.emitted ++ emittedBy p config w.node action

/-- Whatever was honoured was valid at the moment asked for, and whatever was sent
when it was sent. -/
structure AllValid (moment : Moment) (w : World) : Prop where
  honoured : ∀ entry ∈ w.honoured, entry.ValidWhen moment
  emitted : ∀ entry ∈ w.emitted, ∀ d, sourceOf entry.1 = some d → ValidAt d entry.2

/-- The key of an execution request is trusted; a fabric message verifies and is
new, or verifies and is under a trusted key. -/
def Accepted (e : Executor) (now : UInt64) : NetworkMessage → Prop
  | .executeRequest program => e.trustsPubkey program.source.encodedPublicKey = true
  | .signedFabricMessage source id cborData signature =>
      FabricVerified p.toCrypto source id cborData signature ∧
        (FabricWorld.Fresh e.messages
            ⟨source.humanName, source.encodedPublicKey, id, cborData, now⟩ ∨
          e.trustsPubkey source.encodedPublicKey = true)
  | _ => False

/-- The condition on a step: no accepted datagram is out of its window, no program
records under a source that is out of its own, and what is sent leaves within the
window that began when its sender started. -/
def Current (moment : Moment) (config : Config) (nodeStartedAt : UInt64) (w : World) :
    Action → Prop
  | .node (.datagram _ now (some message)) => Accepted p w.node.executor now message →
      ∀ d, sourceOf message = some d → ValidAt d now
  | .node (.messagesPush pid id text now) =>
      ∀ program, w.node.executor.programs[pid]? = some program →
        FabricWorld.Fresh w.node.executor.messages
          ⟨program.callerName, program.callerPubkey, id, text, now⟩ →
        ∃ receivedAt, w.requestedAt[pid]? = some receivedAt ∧
          ValidAt program.data.source (moment.time receivedAt now)
  | .node _ => True
  | .forward incoming _ target now => w.node.identityData.isSome = true →
      w.node.skips incoming target = false → InWindow nodeStartedAt now
  | .messagesSend sinkOpen _ payload now =>
      Executor.payloadMajor payload = some 4 ∨ Executor.payloadMajor payload = some 5 →
      w.node.identityData.isSome = true →
      (p.readPrivateKeyEd25519PemFile config.identity.keyfile).isSome = true →
      sinkOpen = some true → InWindow nodeStartedAt now
  | .netmap config startedAt _ _ _ now | .run config startedAt _ _ _ _ now =>
      (generateFromConfig p config startedAt).isSome = true → InWindow startedAt now

/-! What one datagram can honour. -/

/-- A noted source is in the registry as the node trusts it. -/
theorem lookup_noted {e : Executor} {addr : SocketAddr} {now : UInt64}
    {received : Option NetworkMessage} {d : IdentityData}
    (h : notedSource p.toCrypto received = some d) :
    (e.serveGroup p.toCrypto compiles addr now received).peers.lookup (hex d.encodedPublicKey) =
      some (e.peerInfo addr d now) := by
  rw [Executor.serveGroup_peers, h]
  exact AList.lookup_insert _

theorem noted_trusted_iff {e : Executor} {addr : SocketAddr} {now : UInt64}
    {message : NetworkMessage} {d : IdentityData} :
    (notedSource p.toCrypto (some message) = some d ∧
      ∃ info ∈ (e.serveGroup p.toCrypto compiles addr now (some message)).peers.lookup
        (hex d.encodedPublicKey), info.trusted = true) ↔
      notedSource p.toCrypto (some message) = some d ∧
        e.trustsPubkey d.encodedPublicKey = true := by
  constructor
  · rintro ⟨hnoted, info, hinfo, htrusted⟩
    rw [lookup_noted p compiles hnoted, Option.mem_some_iff] at hinfo
    subst hinfo
    exact ⟨hnoted, htrusted⟩
  · rintro ⟨hnoted, htrusted⟩
    exact ⟨hnoted, _, lookup_noted p compiles hnoted, htrusted⟩

/-- No window enters into what is honoured. -/
theorem honours_iff {e : Executor} (hseq : e.messages.nextSeq ≠ 0) (addr : SocketAddr)
    (now : UInt64) {message : NetworkMessage} {d : IdentityData} (h : sourceOf message = some d) :
    Honours p compiles e addr now message d ↔ Accepted p e now message := by
  unfold Honours
  rw [noted_trusted_iff]
  cases message with
  | executeRequest program =>
    obtain rfl := Option.some.inj h
    have hnothing : FabricWorld.recorded p.toCrypto e
        (.datagram addr now (some (.executeRequest program))) = [] := rfl
    rw [hnothing]
    constructor
    · rintro (⟨running, hstarted, htrusted⟩ | hrecorded | ⟨-, htrusted⟩)
      · simp only [startedBy, Option.mem_def, Option.ite_none_right_eq_some,
          Option.some.injEq] at hstarted
        rw [← hstarted.2] at htrusted
        exact htrusted
      · exact absurd rfl hrecorded
      · exact htrusted
    · intro htrusted
      exact Or.inr (Or.inr ⟨rfl, htrusted⟩)
  | signedFabricMessage source id cborData signature =>
    obtain rfl := Option.some.inj h
    have hrecorded : FabricWorld.recorded p.toCrypto e
        (.datagram addr now (some (.signedFabricMessage source id cborData signature))) ≠ [] ↔
        FabricVerified p.toCrypto source id cborData signature ∧
          FabricWorld.Fresh e.messages
            ⟨source.humanName, source.encodedPublicKey, id, cborData, now⟩ := by
      constructor
      · intro hne
        obtain ⟨⟨origin, pushed⟩, hmem⟩ := List.exists_mem_of_ne_nil _ hne
        obtain ⟨-, hpushed, hfresh⟩ := (FabricWorld.mem_recorded_iff _ hseq _ _ _).mp hmem
        simp only [pushedBy, Option.ite_none_right_eq_some, Option.some.injEq] at hpushed
        obtain ⟨hver, rfl⟩ := hpushed
        exact ⟨hver, hfresh⟩
      · rintro ⟨hver, hfresh⟩
        exact List.ne_nil_of_mem ((FabricWorld.mem_recorded_iff _ hseq _ _ _).mpr
          ⟨rfl, by simp only [pushedBy, hver, if_true], hfresh⟩)
    have hnoted : notedSource p.toCrypto
        (some (.signedFabricMessage source id cborData signature)) = some source ↔
        FabricVerified p.toCrypto source id cborData signature := by
      simp only [notedSource, Option.ite_none_right_eq_some, and_true]
    rw [hrecorded, hnoted]
    constructor
    · rintro (⟨running, hstarted, -⟩ | ⟨hver, hfresh⟩ | ⟨hver, htrusted⟩)
      · cases hstarted
      · exact ⟨hver, Or.inl hfresh⟩
      · exact ⟨hver, Or.inr htrusted⟩
    · rintro ⟨hver, hfresh | htrusted⟩
      · exact Or.inr (Or.inl ⟨hver, hfresh⟩)
      · exact Or.inr (Or.inr ⟨hver, htrusted⟩)
  | basicInsecureProgramStdout _ _ => cases h
  | basicInsecureProgramExit _ _ => cases h
  | basicReturnMap _ _ _ => cases h
  | basicReturnList _ _ _ => cases h

/-- What a datagram honours is valid exactly when the node does not accept anything
else; both moments are the time it came in. -/
theorem datagram_valid_iff (moment : Moment) {w : World}
    (hseq : w.node.executor.messages.nextSeq ≠ 0) (addr : SocketAddr) (now : UInt64)
    (message : NetworkMessage) :
    (∀ entry ∈ honouredBy p compiles w (.node (.datagram addr now (some message))),
      entry.ValidWhen moment) ↔
    (Accepted p w.node.executor now message → ∀ d, sourceOf message = some d → ValidAt d now) := by
  have htime : moment.time now now = now := by cases moment <;> rfl
  simp only [honouredBy, List.mem_map, List.mem_filter, Option.mem_toList, decide_eq_true_eq]
  constructor
  · intro h haccepted d hsource
    have hvalid := h ⟨d, now, now⟩
      ⟨d, ⟨hsource, (honours_iff p compiles hseq addr now hsource).mpr haccepted⟩, rfl⟩
    rwa [Honoured.ValidWhen, htime] at hvalid
  · rintro h entry ⟨d, ⟨hsource, hhonours⟩, rfl⟩
    rw [Honoured.ValidWhen, htime]
    exact h ((honours_iff p compiles hseq addr now hsource).mp hhonours) d hsource

/-- A push is recorded exactly when its program exists and it is no duplicate. -/
theorem push_recorded_iff {e : Executor} (hseq : e.messages.nextSeq ≠ 0) (pid : ℕ)
    (id text : Bytes) (now : UInt64) :
    FabricWorld.recorded p.toCrypto e (.messagesPush pid id text now) ≠ [] ↔
      ∃ program, e.programs[pid]? = some program ∧
        FabricWorld.Fresh e.messages
          ⟨program.callerName, program.callerPubkey, id, text, now⟩ := by
  constructor
  · intro hne
    obtain ⟨⟨origin, pushed⟩, hmem⟩ := List.exists_mem_of_ne_nil _ hne
    obtain ⟨-, hpushed, hfresh⟩ := (FabricWorld.mem_recorded_iff _ hseq _ _ _).mp hmem
    obtain ⟨program, hprogram, rfl⟩ := Option.map_eq_some_iff.mp hpushed
    exact ⟨program, hprogram, hfresh⟩
  · rintro ⟨program, hprogram, hfresh⟩
    have horigin : FabricWorld.originOf e (.messagesPush pid id text now) =
        some (.program program) := by
      simp only [FabricWorld.originOf, hprogram, Option.map_some]
    have hpushed : pushedBy p.toCrypto e (.messagesPush pid id text now) =
        some ⟨program.callerName, program.callerPubkey, id, text, now⟩ := by
      simp only [pushedBy, hprogram, Option.map_some]
    exact List.ne_nil_of_mem
      ((FabricWorld.mem_recorded_iff _ hseq _ _ _).mpr ⟨horigin, hpushed, hfresh⟩)

/-! What is sent. -/

/-- A generated identity is valid for the window that begins with it. -/
theorem validAt_generated_iff {config : Config} {startedAt now : UInt64} {d : IdentityData}
    (h : generateFromConfig p config startedAt = some d) :
    ValidAt d now ↔ InWindow startedAt now := by
  obtain ⟨-, hgenerated, hvalidity⟩ := generateFromConfig_eq_some h
  rw [ValidAt, InWindow, hgenerated, hvalidity]
  exact Iff.rfl

/-- What a node keeps from its start; each of its programs has the time its request
came in. -/
structure Started (config : Config) (startedAt : UInt64) (w : World) : Prop where
  identityData : w.node.identityData = generateFromConfig p config startedAt
  nextSeq_ne_zero : w.node.executor.messages.nextSeq ≠ 0
  requestedAt_length : w.requestedAt.length = w.node.executor.programs.length

theorem started_step (config : Config) (startedAt : UInt64) (w : World) (action : Action)
    (h : Started p config startedAt w) :
    Started p config startedAt (step p compiles config w action) := by
  cases action with
  | node event =>
    refine ⟨h.identityData, ?_, ?_⟩
    · have hseq := h.nextSeq_ne_zero
      simp only [step]
      rw [step_messages]
      cases pushedBy p.toCrypto w.node.executor event with
      | none => exact hseq
      | some pushed =>
        have hle := FabricWorld.pushOf_nextSeq_le w.node.executor.messages pushed
        simp only
        omega
    · have hrequested : (requestedBy p compiles w.node.executor (.node event)).length =
          (startedBy p.toCrypto compiles w.node.executor event).toList.length := by
        match event with
        | .startup _ _ => rfl
        | .messagesPush _ _ _ _ => rfl
        | .datagram _ _ _ => simp only [requestedBy, List.length_map]
      simp only [step, step_programs, List.length_append, hrequested, h.requestedAt_length]
  | forward incoming childUuid target now =>
    exact ⟨h.identityData, h.nextSeq_ne_zero, by simpa [step, requestedBy] using
      h.requestedAt_length⟩
  | messagesSend sinkOpen nonce payload now =>
    exact ⟨h.identityData, h.nextSeq_ne_zero, by simpa [step, requestedBy] using
      h.requestedAt_length⟩
  | netmap config' startedAt' wasmBytes requestUuid depth now =>
    exact ⟨h.identityData, h.nextSeq_ne_zero, by simpa [step, requestedBy] using
      h.requestedAt_length⟩
  | run config' startedAt' fileName wasmBytes argList argMap now =>
    exact ⟨h.identityData, h.nextSeq_ne_zero, by simpa [step, requestedBy] using
      h.requestedAt_length⟩

/-- The record of a push is valid exactly when its program's source is. -/
theorem push_valid_iff (moment : Moment) {config : Config} {startedAt : UInt64} {w : World}
    (h : Started p config startedAt w) (pid : ℕ) (id text : Bytes) (now : UInt64) :
    (∀ entry ∈ honouredBy p compiles w (.node (.messagesPush pid id text now)),
      entry.ValidWhen moment) ↔
    Current p moment config startedAt w (.node (.messagesPush pid id text now)) := by
  have hrecorded := push_recorded_iff p h.nextSeq_ne_zero pid id text now
  simp only [honouredBy, Current]
  cases hprogram : w.node.executor.programs[pid]? with
  | none => simp
  | some program =>
    -- a program that exists was requested at a known time
    have hlt : pid < w.requestedAt.length := by
      rw [h.requestedAt_length]
      exact (List.getElem?_eq_some_iff.mp hprogram).1
    obtain ⟨receivedAt, hreceived⟩ : ∃ receivedAt, w.requestedAt[pid]? = some receivedAt :=
      ⟨_, List.getElem?_eq_getElem hlt⟩
    simp only [hprogram, Option.some.injEq, exists_eq_left'] at hrecorded
    simp only [hreceived, Option.some.injEq, forall_eq', exists_eq_left']
    by_cases hfresh : FabricWorld.Fresh w.node.executor.messages
        ⟨program.callerName, program.callerPubkey, id, text, now⟩
    · rw [if_neg (hrecorded.mpr hfresh)]
      simp only [List.mem_singleton, forall_eq, Honoured.ValidWhen, hfresh, forall_const]
    · rw [if_pos (by_contra fun hne => hfresh (hrecorded.mp hne))]
      simp only [List.not_mem_nil, false_implies, implies_true, hfresh]

/-- A forwarding leaves in the window exactly when it does not happen or happens
in the window. -/
theorem forward_valid_iff (moment : Moment) {config : Config} {startedAt : UInt64} {w : World}
    (h : Started p config startedAt w) (incoming : ProgramData) (childUuid : Uuid)
    (target : Target) (now : UInt64) :
    (∀ entry ∈ emittedBy p config w.node (.forward incoming childUuid target now),
      ∀ d, sourceOf entry.1 = some d → ValidAt d entry.2) ↔
    Current p moment config startedAt w (.forward incoming childUuid target now) := by
  simp only [emittedBy, Current, List.mem_map]
  constructor
  · intro hvalid hidentity hskips
    obtain ⟨d, hd⟩ := Option.isSome_iff_exists.mp hidentity
    rw [h.identityData] at hd
    rw [← validAt_generated_iff p hd]
    apply hvalid (.executeRequest (w.node.subRequest d incoming childUuid target), now)
      ⟨(target, _), ?_, rfl⟩ d rfl
    rw [ServeNode.mem_discoveryForward_iff]
    exact ⟨d, h.identityData.trans hd, List.mem_singleton_self _, hskips, rfl⟩
  · rintro hwindow entry ⟨⟨target', sub⟩, hmem, rfl⟩ d hsource
    obtain ⟨ourIdentity, hidentity, htarget, hskips, rfl⟩ :=
      (ServeNode.mem_discoveryForward_iff _ _ _ _ _ _).mp hmem
    obtain rfl := List.mem_singleton.mp htarget
    obtain rfl := Option.some.inj hsource
    have hgenerated := h.identityData.symm.trans hidentity
    exact (validAt_generated_iff p hgenerated).mpr
      (hwindow (by rw [hidentity, Option.isSome_some]) hskips)

theorem messagesSend_valid_iff (moment : Moment) {config : Config} {startedAt : UInt64} {w : World}
    (h : Started p config startedAt w) (sinkOpen : Option Bool) (nonce : Vector UInt8 16)
    (payload : Bytes) (now : UInt64) :
    (∀ entry ∈ emittedBy p config w.node (.messagesSend sinkOpen nonce payload now),
      ∀ d, sourceOf entry.1 = some d → ValidAt d entry.2) ↔
    Current p moment config startedAt w (.messagesSend sinkOpen nonce payload now) := by
  simp only [emittedBy, Current, List.mem_map, Option.mem_toList,
    Executor.messagesSend_eq_some_iff]
  constructor
  · intro hvalid hmajor hidentity hkey hopen
    obtain ⟨d, hd⟩ := Option.isSome_iff_exists.mp hidentity
    obtain ⟨key, hkey⟩ := Option.isSome_iff_exists.mp hkey
    rw [h.identityData] at hd
    rw [← validAt_generated_iff p hd]
    exact hvalid _ ⟨_, ⟨hmajor, hopen, d, key, h.identityData.trans hd, hkey, rfl⟩, rfl⟩ d rfl
  · rintro hwindow entry ⟨message, ⟨hmajor, hopen, source, key, hidentity, hkey, rfl⟩, rfl⟩ d
      hsource
    obtain rfl := Option.some.inj hsource
    have hgenerated := h.identityData.symm.trans hidentity
    exact (validAt_generated_iff p hgenerated).mpr (hwindow hmajor
      (by rw [hidentity, Option.isSome_some]) (by rw [hkey, Option.isSome_some]) hopen)

/-- The request of a command is valid when it leaves in the command's window. -/
theorem command_valid_iff {config : Config} {startedAt now : UInt64}
    (request : IdentityData → ProgramData) (hrequest : ∀ source, (request source).source = source) :
    (∀ entry ∈ (generateFromConfig p config startedAt).toList.map fun source =>
        (NetworkMessage.executeRequest (request source), now),
      ∀ d, sourceOf entry.1 = some d → ValidAt d entry.2) ↔
    ((generateFromConfig p config startedAt).isSome = true → InWindow startedAt now) := by
  cases hgenerated : generateFromConfig p config startedAt with
  | none => simp
  | some source =>
    simp only [Option.toList_some, List.map_cons, List.map_nil, List.mem_singleton, forall_eq,
      sourceOf, hrequest, Option.some.injEq, forall_eq', Option.isSome_some, forall_const]
    exact validAt_generated_iff p hgenerated

/-- A step adds to what is valid exactly when it meets the condition. -/
theorem allValid_step_iff (moment : Moment) (config : Config) (startedAt : UInt64) (w : World)
    (action : Action) (hstarted : Started p config startedAt w) (h : AllValid moment w) :
    AllValid moment (step p compiles config w action) ↔
      Current p moment config startedAt w action := by
  have hnew : AllValid moment (step p compiles config w action) ↔
      (∀ entry ∈ honouredBy p compiles w action, entry.ValidWhen moment) ∧
        ∀ entry ∈ emittedBy p config w.node action, ∀ d, sourceOf entry.1 = some d →
          ValidAt d entry.2 := by
    constructor
    · intro hall
      exact ⟨(List.forall_mem_append.mp hall.honoured).2,
        (List.forall_mem_append.mp hall.emitted).2⟩
    · intro hentries
      exact ⟨List.forall_mem_append.mpr ⟨h.honoured, hentries.1⟩,
        List.forall_mem_append.mpr ⟨h.emitted, hentries.2⟩⟩
  have hnone : ∀ {P : Prop}, (∀ entry ∈ honouredBy p compiles w action,
      entry.ValidWhen moment) → ((∀ entry ∈ emittedBy p config w.node action, ∀ d,
        sourceOf entry.1 = some d → ValidAt d entry.2) ↔ P) →
      (AllValid moment (step p compiles config w action) ↔ P) := by
    intro P hhonoured hemitted
    rw [hnew, and_iff_right hhonoured, hemitted]
  cases action with
  | node event =>
    have hsilent : ∀ entry ∈ emittedBy p config w.node (.node event), ∀ d,
        sourceOf entry.1 = some d → ValidAt d entry.2 := by simp [emittedBy]
    rw [hnew, and_iff_left hsilent]
    match event with
    | .startup name key => exact iff_of_true (by simp [honouredBy]) trivial
    | .messagesPush pid id text now =>
      exact push_valid_iff p compiles moment hstarted pid id text now
    | .datagram addr now none => exact iff_of_true (by simp [honouredBy]) trivial
    | .datagram addr now (some message) =>
      exact datagram_valid_iff p compiles moment hstarted.nextSeq_ne_zero addr now message
  | forward incoming childUuid target now =>
    exact hnone (by simp [honouredBy])
      (forward_valid_iff p moment hstarted incoming childUuid target now)
  | messagesSend sinkOpen nonce payload now =>
    exact hnone (by simp [honouredBy])
      (messagesSend_valid_iff p moment hstarted sinkOpen nonce payload now)
  | netmap config' startedAt' wasmBytes requestUuid depth now =>
    exact hnone (by simp [honouredBy]) (command_valid_iff p
      (fun source => makeRequest p config' source wasmBytes requestUuid depth) fun _ => rfl)
  | run config' startedAt' fileName wasmBytes argList argMap now =>
    exact hnone (by simp [honouredBy]) (command_valid_iff p
      (fun source => runRequest source fileName wasmBytes argList argMap) fun _ => rfl)

/-- Over the whole life of a node, whatever it honours and sends is valid exactly
when it never accepts a datagram that is out of its window, no program records a
message under a source that is out of its own, and nothing is sent 65536 seconds or
more after the sender started, or before. -/
theorem only_valid_honoured_iff (moment : Moment) (config : Config) (startedAt : UInt64)
    (actions : List Action) :
    EveryState (step p compiles config) (AllValid moment) (start p config startedAt) actions ↔
      EachStep (step p compiles config) (Current p moment config startedAt)
        (start p config startedAt) actions := by
  have hfirst : Started p config startedAt (start p config startedAt) :=
    ⟨rfl, by simp [start, ServeNode.new, Executor.new, MessageStore.new],
      by simp [start, ServeNode.new, Executor.new]⟩
  have hvalid : AllValid moment (start p config startedAt) := ⟨by simp [start], by simp [start]⟩
  exact everyState_iff_eachStep_of_inv (step p compiles config)
    (started_step p compiles config startedAt)
    (allValid_step_iff p compiles moment config startedAt) hfirst hvalid actions

/-- The server's platform, where the signatures of a chat line are on record. -/
def linePlatform : Platform :=
  { serverPlatform with verify := (idealCrypto (aliceIssued (List.replicate 16 7))).verify }

/-- The chat line arrives three years after its identity was made. -/
def lateLine : Action :=
  .node (.datagram (.v4 0xC0A8010A 2240) 1860000000 (some (aliceLine (List.replicate 16 7))))

/-- A message leaves 65536 seconds after the node started. -/
def lateSend : Action :=
  .messagesSend (some true) (Vector.replicate 16 9) [0x81, 0x62, 0x68, 0x69] 1760065536

/-- The same identity asks for a program, as late; no rule trusts its key. -/
def lateRequest : Action :=
  .node (.datagram (.v4 0xC0A8010A 2240) 1860000000 (some (.executeRequest
    (runRequest (idealIdentity "alice" aliceKey 1760000000) none [] [] []))))

/-- That program records `hi`. -/
def latePush : Action := .node (.messagesPush 0 [] [0x68, 0x69] 1860000001)

/-- An honoured identity that was out of its window at the moment asked for. -/
theorem not_everyState_of_honoured {moment : Moment} {config : Config} {w : World}
    {actions : List Action} {entry : Honoured}
    (hmem : entry ∈ (actions.foldl (step p compiles config) w).honoured)
    (hlate : ¬ entry.ValidWhen moment) :
    ¬ EveryState (step p compiles config) (AllValid moment) w actions :=
  fun h => hlate (h.last.honoured _ hmem)

theorem late_line_recorded_late_send_emitted :
    (∀ moment, ¬ EveryState (step linePlatform (fun _ => true) laptopTrusted) (AllValid moment)
        (start linePlatform laptopTrusted 1760000000) [lateLine]) ∧
      (∀ moment, ¬ EveryState (step linePlatform (fun _ => true) laptopTrusted) (AllValid moment)
        (start linePlatform laptopTrusted 1760000000) [lateSend]) ∧
      ∀ moment, ¬ EveryState (step linePlatform (fun _ => true) laptopTrusted) (AllValid moment)
        (start linePlatform laptopTrusted 1760000000) [lateRequest, latePush] := by
  refine ⟨fun moment => ?_, fun moment h => ?_, fun moment => ?_⟩
  · have hhonoured : (⟨idealIdentity "alice" aliceKey 1760000000, 1860000000, 1860000000⟩ :
        Honoured) ∈ ([lateLine].foldl (step linePlatform (fun _ => true) laptopTrusted)
          (start linePlatform laptopTrusted 1760000000)).honoured := by
      decide +kernel
    refine not_everyState_of_honoured _ _ hhonoured ?_
    have hlate : ¬ ValidAt (idealIdentity "alice" aliceKey 1760000000) 1860000000 := by decide
    cases moment
    · exact hlate
    · exact hlate
  · have hemitted : ∃ entry ∈ ([lateSend].foldl (step linePlatform (fun _ => true) laptopTrusted)
        (start linePlatform laptopTrusted 1760000000)).emitted,
          ∃ d ∈ sourceOf entry.1, ¬ ValidAt d entry.2 := by
      decide +kernel
    obtain ⟨entry, hmem, d, hd, hlate⟩ := hemitted
    exact hlate (h.last.emitted entry hmem d hd)
  · have hhonoured : (⟨idealIdentity "alice" aliceKey 1760000000, 1860000000, 1860000001⟩ :
        Honoured) ∈ ([lateRequest, latePush].foldl (step linePlatform (fun _ => true) laptopTrusted)
          (start linePlatform laptopTrusted 1760000000)).honoured := by
      decide +kernel
    refine not_everyState_of_honoured _ _ hhonoured ?_
    cases moment
    · exact (by decide : ¬ ValidAt (idealIdentity "alice" aliceKey 1760000000) 1860000000)
    · exact (by decide : ¬ ValidAt (idealIdentity "alice" aliceKey 1760000000) 1860000001)

end Weverywhere.IdentityValidity
