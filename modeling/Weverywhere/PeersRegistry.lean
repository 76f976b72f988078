import Weverywhere.Node

/-!
Who wrote the entries of the peers registry. A fabric message reaches
`note_peer` only with both of its signatures verified, an execution request
reaches it unconditionally, so the registry holds verified identities exactly
in the runs whose execution requests all carry one.
-/
namespace Weverywhere.PeersRegistry

open ByteStrings Identity Messages Node

variable (c : Crypto) (compiles : Bytes → Bool)

/-- The source of the datagram passed its self check and, for a fabric message,
the payload check. -/
def SourceVerified : Option NetworkMessage → Prop
  | some (.executeRequest program) => program.source.checkSelfSignature c = .ok ()
  | some (.signedFabricMessage source id cborData signature) =>
      FabricVerified c source id cborData signature
  | _ => False

/-- The datagram handled when each registry key was last written. -/
def lastWriter (events : List Event) : String → Option NetworkMessage :=
  events.foldl
    (fun writer event =>
      match event with
      | .datagram _ _ received =>
          match notedSource c received with
          | some source => Function.update writer (hex source.encodedPublicKey) received
          | none => writer
      | _ => writer)
    (fun _ => none)

theorem lastWriter_append_datagram (events : List Event) (addr : SocketAddr) (now : UInt64)
    (received : Option NetworkMessage) :
    lastWriter c (events ++ [.datagram addr now received]) =
      match notedSource c received with
      | some source =>
          Function.update (lastWriter c events) (hex source.encodedPublicKey) received
      | none => lastWriter c events := by
  simp only [lastWriter, List.foldl_append, List.foldl_cons, List.foldl_nil]

/-- An entry says what `message` said about the identity it is filed under. -/
def EntryFrom (key : String) (info : PeerInfo) (message : NetworkMessage) : Prop :=
  ∃ source, notedSource c (some message) = some source ∧ key = hex source.encodedPublicKey ∧
    info.pubkey = source.encodedPublicKey ∧ info.humanName = source.humanName

/-- Every entry was last written by a datagram with a verified source. -/
def EntriesVerified (events : List Event) : Prop :=
  ∀ key info, (Executor.new.run c compiles events).peers.lookup key = some info →
    ∃ message, lastWriter c events key = some message ∧ EntryFrom c key info message ∧
      SourceVerified c (some message)

/-- In every state of the run the entries are verified, and no datagram without
a verified source changes the registry. -/
def OnlyVerifiedEnter (events : List Event) : Prop :=
  (∀ n, EntriesVerified c compiles (events.take n)) ∧
  ∀ n addr now received, events[n]? = some (.datagram addr now received) →
    ¬ SourceVerified c received →
      (Executor.new.run c compiles (events.take (n + 1))).peers =
        (Executor.new.run c compiles (events.take n)).peers

/-- Every execution request of the run carries a source that passes its check. -/
def RequestsVerified (events : List Event) : Prop :=
  ∀ addr now program, Event.datagram addr now (some (.executeRequest program)) ∈ events →
    program.source.checkSelfSignature c = .ok ()

@[simp] theorem step_startup_peers (e : Executor) (name : String) (key : Bytes) :
    (e.step c compiles (.startup name key)).peers = e.peers := rfl

@[simp] theorem step_messagesPush_peers (e : Executor) (pid : ℕ) (id text : Bytes)
    (now : UInt64) : (e.step c compiles (.messagesPush pid id text now)).peers = e.peers :=
  Executor.messagesPush_peers e pid id text now

@[simp] theorem step_datagram_peers (e : Executor) (addr : SocketAddr) (now : UInt64)
    (received : Option NetworkMessage) :
    (e.step c compiles (.datagram addr now received)).peers =
      match notedSource c received with
      | none => e.peers
      | some source => (e.notePeer addr source now).peers :=
  Executor.serveGroup_peers c compiles e addr now received

/-- Each entry repeats what its last writer claimed, verified or not. -/
theorem entryFrom_run (events : List Event) (key : String) (info : PeerInfo)
    (h : (Executor.new.run c compiles events).peers.lookup key = some info) :
    ∃ message, lastWriter c events key = some message ∧ EntryFrom c key info message := by
  induction events using List.reverseRecOn generalizing info with
  | nil => simp [Executor.new] at h
  | append_singleton events event ih =>
    rw [Executor.run_append_singleton] at h
    cases event with
    | startup name key' => simpa [lastWriter] using ih info h
    | messagesPush pid id text now => simpa [lastWriter] using ih info (by simpa using h)
    | datagram addr now received =>
      rw [lastWriter_append_datagram]
      rw [step_datagram_peers] at h
      cases hnoted : notedSource c received with
      | none =>
        simp only [hnoted] at h ⊢
        exact ih info h
      | some source =>
        simp only [hnoted, Executor.notePeer] at h ⊢
        by_cases hkey : key = hex source.encodedPublicKey
        · subst hkey
          rw [AList.lookup_insert, Option.some.injEq] at h
          subst h
          cases received with
          | none => simp [notedSource] at hnoted
          | some message =>
            exact ⟨message, by simp, source, hnoted, rfl, rfl, rfl⟩
        · rw [AList.lookup_insert_ne hkey] at h
          rw [Function.update_of_ne hkey]
          exact ih info h

/-- A noted source comes from a verified datagram or an execution request. -/
theorem sourceVerified_of_noted {message : NetworkMessage} {source : IdentityData}
    (hnoted : notedSource c (some message) = some source)
    (hrequest : ∀ program, message = .executeRequest program →
      program.source.checkSelfSignature c = .ok ()) : SourceVerified c (some message) := by
  cases message with
  | executeRequest program => exact hrequest program rfl
  | signedFabricMessage src id cborData signature =>
    simp only [notedSource, Option.ite_none_right_eq_some] at hnoted
    exact hnoted.1
  | basicInsecureProgramStdout _ _ => simp [notedSource] at hnoted
  | basicInsecureProgramExit _ _ => simp [notedSource] at hnoted
  | basicReturnMap _ _ _ => simp [notedSource] at hnoted
  | basicReturnList _ _ _ => simp [notedSource] at hnoted

theorem lastWriter_mem (events : List Event) (key : String) (message : NetworkMessage)
    (h : lastWriter c events key = some message) :
    ∃ addr now, Event.datagram addr now (some message) ∈ events := by
  induction events using List.reverseRecOn with
  | nil => simp [lastWriter] at h
  | append_singleton events event ih =>
    cases event with
    | startup name key' =>
      obtain ⟨addr, now, hmem⟩ := ih (by simpa [lastWriter] using h)
      exact ⟨addr, now, List.mem_append_left _ hmem⟩
    | messagesPush pid id text now' =>
      obtain ⟨addr, now, hmem⟩ := ih (by simpa [lastWriter] using h)
      exact ⟨addr, now, List.mem_append_left _ hmem⟩
    | datagram addr now received =>
      rw [lastWriter_append_datagram] at h
      split at h
      · next source hnoted =>
        by_cases hkey : key = hex source.encodedPublicKey
        · subst hkey
          rw [Function.update_self] at h
          subst h
          exact ⟨addr, now, by simp⟩
        · rw [Function.update_of_ne hkey] at h
          obtain ⟨addr', now', hmem⟩ := ih h
          exact ⟨addr', now', List.mem_append_left _ hmem⟩
      · obtain ⟨addr', now', hmem⟩ := ih h
        exact ⟨addr', now', List.mem_append_left _ hmem⟩

theorem entriesVerified_of_requests (events : List Event) (h : RequestsVerified c events) :
    EntriesVerified c compiles events := by
  intro key info hlookup
  obtain ⟨message, hwriter, hentry⟩ := entryFrom_run c compiles events key info hlookup
  refine ⟨message, hwriter, hentry, ?_⟩
  obtain ⟨source, hnoted, -⟩ := hentry
  apply sourceVerified_of_noted c hnoted
  rintro program rfl
  obtain ⟨addr, now, hmem⟩ := lastWriter_mem c events key _ hwriter
  exact h addr now program hmem

/-- A datagram that is not an execution request and has no verified source is
not noted. -/
theorem notedSource_of_unverified {received : Option NetworkMessage}
    (hver : ¬ SourceVerified c received)
    (hrequest : ∀ program, received ≠ some (.executeRequest program)) :
    notedSource c received = none := by
  match received with
  | none => rfl
  | some (.executeRequest program) => exact absurd rfl (hrequest program)
  | some (.signedFabricMessage source id cborData signature) =>
    have hnot : ¬ FabricVerified c source id cborData signature := hver
    simp [notedSource, hnot]
  | some (.basicInsecureProgramStdout _ _) => rfl
  | some (.basicInsecureProgramExit _ _) => rfl
  | some (.basicReturnMap _ _ _) => rfl
  | some (.basicReturnList _ _ _) => rfl

theorem take_succ_run (events : List Event) (n : ℕ) (event : Event)
    (h : events[n]? = some event) :
    Executor.new.run c compiles (events.take (n + 1)) =
      (Executor.new.run c compiles (events.take n)).step c compiles event := by
  rw [List.take_add_one, h, Option.toList_some, Executor.run_append_singleton]

/-- The registry holds only verified identities, in every state of a run and
against every unverified datagram, exactly when every execution request of the
run has a source that passes its self-signature check. -/
theorem only_verified_enter_iff (events : List Event) :
    OnlyVerifiedEnter c compiles events ↔ RequestsVerified c events := by
  constructor
  · rintro ⟨hentries, -⟩ addr now program hmem
    obtain ⟨n, hn⟩ := List.mem_iff_getElem?.mp hmem
    have hrun := take_succ_run c compiles events n _ hn
    have hlookup : (Executor.new.run c compiles (events.take (n + 1))).peers.lookup
        (hex program.source.encodedPublicKey) =
          some ((Executor.new.run c compiles (events.take n)).peerInfo addr program.source
            now) := by
      rw [hrun, step_datagram_peers]
      simp only [notedSource, Executor.notePeer, AList.lookup_insert]
    obtain ⟨message, hwriter, -, hver⟩ := hentries (n + 1) _ _ hlookup
    rw [List.take_add_one, hn, Option.toList_some, lastWriter_append_datagram] at hwriter
    simp only [notedSource, Function.update_self, Option.some.injEq] at hwriter
    subst hwriter
    exact hver
  · intro hrequests
    refine ⟨fun n => ?_, ?_⟩
    · apply entriesVerified_of_requests
      intro addr now program hmem
      exact hrequests addr now program (List.mem_of_mem_take hmem)
    · intro n addr now received hn hver
      rw [take_succ_run c compiles events n _ hn, step_datagram_peers]
      rw [notedSource_of_unverified c hver]
      rintro program rfl
      exact hver (hrequests addr now program (List.mem_of_getElem? hn))

/-- A request under an honest key with another name: its self-signature does not
check out. -/
def forgedRequest : ProgramData where
  source := { idealIdentity "alice" aliceKey 1760000000 with humanName := "mallory" }
  humanName := "hello"
  wasmProgramBytes := []
  signature := []
  requestUuid := Vector.replicate 16 0
  depthBudget := 0
  visited := []
  argList := []
  argMap := []

def forgedAfterGenuine : List Event :=
  [.datagram (.v4 1 2240) 1 (some (aliceLine [1])),
    .datagram (.v4 2 2240) 2 (some (.executeRequest forgedRequest))]

/-- What `host::peer_report` has on the honest key after `n` of these datagrams. -/
def reported (n : ℕ) : Option (String × SocketAddr) :=
  ((Executor.new.run (idealCrypto (aliceIssued [1])) (fun _ => false)
    (forgedAfterGenuine.take n)).peers.lookup (hex aliceKey)).map
      fun info => (info.humanName, info.lastAddr)

/-- A forged request replaces the name and the address of a genuine neighbour. -/
theorem forged_request_rewrites_peer :
    forgedRequest.source.checkSelfSignature (idealCrypto (aliceIssued [1])) = .error .mismatch ∧
    reported 1 = some ("alice", .v4 1 2240) ∧ reported 2 = some ("mallory", .v4 2 2240) ∧
    ¬ OnlyVerifiedEnter (idealCrypto (aliceIssued [1])) (fun _ => false) forgedAfterGenuine := by
  refine ⟨by decide, by decide, by decide, fun h => ?_⟩
  have hunchanged := h.2 1 (.v4 2 2240) 2 (some (.executeRequest forgedRequest)) rfl
    (fun hver => absurd hver (by decide : forgedRequest.source.checkSelfSignature
      (idealCrypto (aliceIssued [1])) ≠ .ok ()))
  have hnames := congrArg
    (fun peers : AList fun _ : String => PeerInfo =>
      (peers.lookup (hex aliceKey)).map PeerInfo.humanName) hunchanged
  exact absurd hnames (by decide)

end Weverywhere.PeersRegistry
