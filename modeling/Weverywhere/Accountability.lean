import Weverywhere.SecurityAudit
import Weverywhere.MessagesRead

/-!
What the audit trail of a node is good for. A reader who has nothing but the text of the
log can say who started every program that ever ran, who is behind every message in the
store and every entry of the peers registry: nothing comes into the node without its
line. What else the node logs may pass for such a line; where none does, the registry can
be put together again.
-/
namespace Weverywhere.Accountability

open ByteStrings BoundedQueue Identity MessageLog MessagesRead Messages Node PeerReports
  PeersRegistry SecurityAudit

variable (plain : Char → Bool) (explain : NetworkMessage → SignatureError → List Char) (c : Crypto)
  (compiles : Bytes → Bool)

/-! The log of a run. -/

/-- Something comes into the node, or it logs something for another reason. -/
inductive Happening
  | event (event : Event)
  | logged (text : List Char)

def logEvent : Happening → Option LogEvent
  | .event (.datagram addr _ message) => some (.datagram addr message)
  | .event _ => none
  | .logged text => some (.other text)

def eventsOf (history : List Happening) : List Event :=
  history.filterMap fun happening =>
    match happening with
    | .event event => some event
    | .logged _ => none

def runLog (history : List Happening) : List Char :=
  auditText plain explain c (history.filterMap logEvent)

/-- What is to be read of an event. -/
def eventEntry (event : Event) : Option Entry :=
  (logEvent (.event event)).bind (ownEntry explain c)

theorem filterMap_ownEntry (history : List Happening) :
    (history.filterMap logEvent).filterMap (ownEntry explain c) =
      (eventsOf history).filterMap (eventEntry explain c) := by
  rw [eventsOf, List.filterMap_filterMap, List.filterMap_filterMap]
  congr 1
  funext happening
  cases happening with
  | event event => rfl
  | logged text => rfl

/-! What a reader makes of the entries. -/

/-- Who had a program started, under which name, and the name of the program. -/
def startedRow (entry : Entry) : Option (List Char × List Char × List Char) :=
  match entry.kind, entry.ok, entry.program with
  | .executeReq, true, some program => some (entry.pubkey, entry.name, program)
  | _, _, _ => none

/-- The key that is noted as a peer, its name and its address. -/
def notedRow (entry : Entry) : Option (List Char × List Char × List Char) :=
  if entry.kind = .executeReq ∨ entry.ok = true then some (entry.pubkey, entry.name, entry.addr)
  else none

/-- The registry as it was left by the entries, the later ones over the earlier ones. -/
def registry (entries : List Entry) : List Char → Option (List Char × List Char) :=
  entries.foldl
    (fun known entry =>
      match notedRow entry with
      | some (key, row) => Function.update known key (some row)
      | none => known)
    (fun _ => none)

theorem registry_append (entries : List Entry) (entry : Entry) :
    registry (entries ++ [entry]) =
      match notedRow entry with
      | some (key, row) => Function.update (registry entries) key (some row)
      | none => registry entries := by
  simp only [registry, List.foldl_append, List.foldl_cons, List.foldl_nil]

/-! What is in the node. -/

/-- Whatever the registry has is of one of the entries. -/
theorem exists_of_registry {entries : List Entry} {key : List Char}
    {row : List Char × List Char} (h : registry entries key = some row) :
    ∃ entry ∈ entries, notedRow entry = some (key, row) := by
  induction entries using List.reverseRecOn with
  | nil => cases h
  | append_singleton entries entry ih =>
    have hold : registry entries key = some row →
        ∃ entry' ∈ entries ++ [entry], notedRow entry' = some (key, row) := by
      intro hrow
      obtain ⟨entry', hmem, hnoted⟩ := ih hrow
      exact ⟨entry', List.mem_append_left _ hmem, hnoted⟩
    rw [registry_append] at h
    cases hnoted : notedRow entry with
    | none =>
      simp only [hnoted] at h
      exact hold h
    | some noted =>
      obtain ⟨key', row'⟩ := noted
      simp only [hnoted] at h
      by_cases hkey : key = key'
      · subst hkey
        rw [Function.update_self, Option.some.injEq] at h
        exact ⟨entry, List.mem_append_right _ (List.mem_singleton_self _), by rw [hnoted, h]⟩
      · rw [Function.update_of_ne hkey] at h
        exact hold h

def programRow (program : RunningProgram) : List Char × List Char × List Char :=
  ((hex program.callerPubkey).toList, program.callerName.toList, program.data.humanName.toList)

def peerRow (info : PeerInfo) : List Char × List Char :=
  (info.humanName.toList, socketAddrChars info.lastAddr)

/-- Every program, message and peer of the node has an entry. -/
structure Explained (entries : List Entry) (e : Executor) : Prop where
  programs : (e.programs.map programRow).Sublist (entries.filterMap startedRow)
  messages : ∀ m ∈ e.messages.msgs, ∃ entry ∈ entries, entry.ok = true ∧
    entry.pubkey = (hex m.fromPubkey).toList ∧ entry.name = m.fromName.toList
  peers : ∀ key, ∀ info ∈ e.peers.lookup key, ∃ entry ∈ entries,
    notedRow entry = some (key.toList, peerRow info)

/-- The entries account for all that came into the node, and the registry is what they
leave. -/
structure Accounted (entries : List Entry) (e : Executor) : Prop where
  programs : (e.programs.map programRow).Sublist (entries.filterMap startedRow)
  messages : ∀ m ∈ e.messages.msgs, ∃ entry ∈ entries, entry.ok = true ∧
    entry.pubkey = (hex m.fromPubkey).toList ∧ entry.name = m.fromName.toList
  peers : ∀ key, (e.peers.lookup key).map peerRow = registry entries key.toList

/-- Other entries between them take nothing away. -/
theorem Accounted.explained {entries more : List Entry} {e : Executor}
    (h : Accounted entries e) (hsub : entries.Sublist more) : Explained more e where
  programs := h.programs.trans (hsub.filterMap _)
  messages := by
    intro m hm
    obtain ⟨entry, hentry, hsays⟩ := h.messages m hm
    exact ⟨entry, hsub.subset hentry, hsays⟩
  peers := by
    intro key info hinfo
    have hrow := h.peers key
    rw [Option.mem_def.mp hinfo, Option.map_some] at hrow
    obtain ⟨entry, hentry, hnoted⟩ := exists_of_registry hrow.symm
    exact ⟨entry, hsub.subset hentry, hnoted⟩

/-! One event. -/

section Step

variable {explain c compiles} {e : Executor} {event : Event}

theorem eventEntry_datagram (addr : SocketAddr) (now : UInt64) (message : NetworkMessage) :
    eventEntry explain c (.datagram addr now (some message)) = entryOf explain c addr message := rfl

variable (explain c) in
/-- What a handler notes is what its line says. -/
theorem notedRow_entry (addr : SocketAddr) (message : NetworkMessage) :
    (entryOf explain c addr message).bind notedRow = (notedSource c (some message)).map
      fun source => ((hex source.encodedPublicKey).toList, source.humanName.toList,
        socketAddrChars addr) := by
  cases message with
  | executeRequest program => simp [entryOf, signedBy, notedRow, notedSource]
  | signedFabricMessage source id cborData signature =>
    have hok : (faultOf c (.signedFabricMessage source id cborData signature)).isNone =
        decide (FabricVerified c source id cborData signature) := by
      cases hcheck : source.checkSelfSignature c with
      | error e => simp [faultOf, FabricVerified, hcheck]
      | ok u =>
        cases hverify : source.verifyPayload c id cborData signature with
        | error e => simp [faultOf, FabricVerified, hcheck, hverify]
        | ok u => simp [faultOf, FabricVerified, hcheck, hverify]
    simp only [entryOf, signedBy, Option.map_some, Option.bind_some, notedRow, hok, notedSource,
      decide_eq_true_eq, reduceCtorEq, false_or]
    split_ifs <;> rfl
  | _ => rfl

variable (explain) in
/-- A program starts with a line of its own. -/
theorem startedRow_of_startedBy {program : RunningProgram}
    (h : startedBy c compiles e event = some program) :
    (eventEntry explain c event).bind startedRow = some (programRow program) := by
  unfold startedBy at h
  split at h
  · rename_i addr now request
    split_ifs at h with hstart
    obtain rfl := Option.some.inj h
    simp [eventEntry_datagram, entryOf, signedBy, faultOf, hstart.1, startedRow, programRow]
  · cases h

/-- A message that goes to the store has a good line for its key and name: its own, or
that of the program that pushes it. -/
theorem entry_of_pushedBy {entries : List Entry} (h : Accounted entries e) {p : Push}
    (hpushed : pushedBy c e event = some p) :
    ∃ entry ∈ entries ++ (eventEntry explain c event).toList, entry.ok = true ∧
      entry.pubkey = (hex p.fromPubkey).toList ∧ entry.name = p.fromName.toList := by
  unfold pushedBy at hpushed
  split at hpushed
  · rename_i addr now source id cborData signature
    split_ifs at hpushed with hver
    obtain rfl := Option.some.inj hpushed
    refine ⟨_, List.mem_append_right _ (Option.mem_toList.mpr
      (eventEntry_datagram addr now (.signedFabricMessage source id cborData signature))), ?_⟩
    simp [faultOf, hver.1, hver.2]
  · rename_i pid id text now
    obtain ⟨program, hprogram, rfl⟩ := Option.map_eq_some_iff.mp hpushed
    have hrow : programRow program ∈ entries.filterMap startedRow :=
      h.programs.subset (List.mem_map_of_mem (List.mem_of_getElem? hprogram))
    obtain ⟨entry, hentry, hstarted⟩ := List.mem_filterMap.mp hrow
    refine ⟨entry, List.mem_append_left _ hentry, ?_⟩
    unfold startedRow at hstarted
    split at hstarted
    · rename_i name hkind hok hname
      simp only [programRow, Option.some.injEq, Prod.mk.injEq] at hstarted
      exact ⟨hok, hstarted.1, hstarted.2.1⟩
    · cases hstarted
  · cases hpushed

theorem messages_step {entries : List Entry} (h : Accounted entries e) {m : StoredMessage}
    (hm : m ∈ (e.step c compiles event).messages.msgs) :
    ∃ entry ∈ entries ++ (eventEntry explain c event).toList, entry.ok = true ∧
      entry.pubkey = (hex m.fromPubkey).toList ∧ entry.name = m.fromName.toList := by
  have hold : m ∈ e.messages.msgs → ∃ entry ∈ entries ++ (eventEntry explain c event).toList,
      entry.ok = true ∧ entry.pubkey = (hex m.fromPubkey).toList ∧
        entry.name = m.fromName.toList := by
    intro hm
    obtain ⟨entry, hentry, hsays⟩ := h.messages m hm
    exact ⟨entry, List.mem_append_left _ hentry, hsays⟩
  rw [step_messages] at hm
  cases hpushed : pushedBy c e event with
  | none =>
    simp only [hpushed] at hm
    exact hold hm
  | some p =>
    simp only [hpushed] at hm
    rcases pushOf_cases e.messages p with ⟨hmsgs, -⟩ | ⟨hmsgs, -⟩
    · exact hold (hmsgs ▸ hm)
    · rw [hmsgs] at hm
      rcases List.mem_append.mp ((rtake_sublist _ _).subset hm) with hm | hm
      · exact hold hm
      · obtain rfl := List.mem_singleton.mp hm
        exact entry_of_pushedBy h hpushed

/-- An event that notes nobody has no line a reader would note. -/
theorem registry_of_not_noted {message : NetworkMessage}
    (hnoted : notedSource c (some message) = none) (addr : SocketAddr) (entries : List Entry) :
    registry (entries ++ (entryOf explain c addr message).toList) = registry entries := by
  have hrow := notedRow_entry explain c addr message
  rw [hnoted, Option.map_none] at hrow
  cases hentry : entryOf explain c addr message with
  | none => rw [Option.toList_none, List.append_nil]
  | some entry =>
    rw [hentry, Option.bind_some] at hrow
    rw [Option.toList_some, registry_append, hrow]

theorem registry_of_noted {message : NetworkMessage} {source : IdentityData}
    (hnoted : notedSource c (some message) = some source) (addr : SocketAddr)
    (entries : List Entry) :
    registry (entries ++ (entryOf explain c addr message).toList) =
      Function.update (registry entries) (hex source.encodedPublicKey).toList
        (some (source.humanName.toList, socketAddrChars addr)) := by
  have hrow := notedRow_entry explain c addr message
  rw [hnoted, Option.map_some] at hrow
  obtain ⟨entry, hentry, hentryRow⟩ := Option.bind_eq_some_iff.mp hrow
  rw [hentry, Option.toList_some, registry_append, hentryRow]

theorem peers_step {entries : List Entry} (h : Accounted entries e) (key : String) :
    ((e.step c compiles event).peers.lookup key).map peerRow =
      registry (entries ++ (eventEntry explain c event).toList) key.toList := by
  cases event with
  | startup name key' => simpa [eventEntry, logEvent] using h.peers key
  | messagesPush pid id text now => simpa [eventEntry, logEvent] using h.peers key
  | datagram addr now message =>
    rw [step_datagram_peers]
    cases message with
    | none => simpa [eventEntry, logEvent, ownEntry, notedSource] using h.peers key
    | some message =>
      rw [eventEntry_datagram]
      cases hnoted : notedSource c (some message) with
      | none =>
        rw [registry_of_not_noted hnoted]
        exact h.peers key
      | some source =>
        rw [registry_of_noted hnoted]
        simp only [Executor.notePeer]
        by_cases hkey : key = hex source.encodedPublicKey
        · rw [hkey, AList.lookup_insert, Function.update_self]
          rfl
        · have hne : key.toList ≠ (hex source.encodedPublicKey).toList :=
            fun heq => hkey (String.toList_injective heq)
          rw [AList.lookup_insert_ne hkey, Function.update_of_ne hne]
          exact h.peers key

variable (explain c compiles) in
/-- Step lemma: what an event brings into the node, its line accounts for. -/
theorem accounted_step {entries : List Entry} (h : Accounted entries e) (event : Event) :
    Accounted (entries ++ (eventEntry explain c event).toList) (e.step c compiles event) where
  programs := by
    rw [step_programs, List.map_append, List.filterMap_append]
    apply h.programs.append
    cases hstarted : startedBy c compiles e event with
    | none => exact List.nil_sublist _
    | some program =>
      have hrow := startedRow_of_startedBy explain hstarted
      obtain ⟨entry, hentry, hentryRow⟩ := Option.bind_eq_some_iff.mp hrow
      simp [hentry, hentryRow]
  messages := fun _ hm => messages_step h hm
  peers := peers_step h

end Step

/-- Run lemma. -/
theorem accounted_run (events : List Event) :
    Accounted (events.filterMap (eventEntry explain c)) (Executor.new.run c compiles events) := by
  induction events using List.reverseRecOn with
  | nil =>
    exact {
      programs := List.nil_sublist _
      messages := by
        intro m hm
        cases hm
      peers := fun key => rfl }
  | append_singleton events event ih =>
    have hentries : (events ++ [event]).filterMap (eventEntry explain c) =
        events.filterMap (eventEntry explain c) ++ (eventEntry explain c event).toList := by
      rw [List.filterMap_append]
      cases hentry : eventEntry explain c event with
      | none => simp [hentry]
      | some entry => simp [hentry]
    rw [hentries, Executor.run_append_singleton]
    exact accounted_step explain c compiles ih event

/-- From the text of the log alone a reader can account for the node: the programs that
ever ran are among the accepted requests, in their order, each message in the store is of
an accepted key and name, and each peer of the registry was noted under that name and from
that address. The registry can be put together again when nothing else in the log passes
for an entry. -/
theorem log_accounts (hexplain : OneLine explain) (history : List Happening) :
    Explained (readLog (runLog plain explain c history))
        (Executor.new.run c compiles (eventsOf history)) ∧
      ((∀ event ∈ history.filterMap logEvent, Unread event) →
        Accounted (readLog (runLog plain explain c history))
          (Executor.new.run c compiles (eventsOf history))) := by
  have haccounted := accounted_run explain c compiles (eventsOf history)
  rw [← filterMap_ownEntry] at haccounted
  have hread := readLog_auditText plain c hexplain (history.filterMap logEvent)
  constructor
  · apply haccounted.explained
    rw [runLog, hread]
    exact filterMap_sublist_flatMap (ownEntry_sublist explain c) _
  · intro hunread
    rw [runLog, hread, (flatMap_eq_filterMap_iff (ownEntry_sublist explain c) _).mpr]
    · exact haccounted
    · intro event hevent
      exact (filterMap_readings_eq_iff explain c event).mpr (hunread event hevent)

/-- A line of alice's and a request under her key, and what the node logs of the program. -/
def forgedHistory : List Happening :=
  forgedAfterGenuine.map Happening.event ++ [.logged "Spawned PID 0".toList]

/-- The log of a node that hears a line of alice's and then a request under her key tells
that the registry has her under the forged name. -/
theorem log_accounts_forged :
    registry (readLog (runLog (fun _ => true) shortExplanation (idealCrypto (aliceIssued [1]))
      forgedHistory)) (hex aliceKey).toList = some ("mallory".toList, "0.0.0.2:2240".toList) := by
  have hplain : ∀ line ∈ "Spawned PID 0".toList.splitOn '\n', readEntry line = none := by decide
  obtain ⟨-, haccounted⟩ := log_accounts (fun _ => true) shortExplanation
    (idealCrypto (aliceIssued [1])) (fun _ => false) oneLine_shortExplanation forgedHistory
  have hunread : ∀ event ∈ forgedHistory.filterMap logEvent, Unread event := by
    intro event hevent
    obtain ⟨happening, hmem, hevent⟩ := List.mem_filterMap.mp hevent
    rcases List.mem_append.mp hmem with hmem | hmem
    · obtain ⟨nodeEvent, -, rfl⟩ := List.mem_map.mp hmem
      cases nodeEvent with
      | datagram addr now message =>
        obtain rfl := Option.some.inj hevent
        trivial
      | _ => cases hevent
    · obtain rfl := List.mem_singleton.mp hmem
      obtain rfl := Option.some.inj hevent
      exact hplain
  rw [← (haccounted hunread).peers (hex aliceKey)]
  decide

end Weverywhere.Accountability
