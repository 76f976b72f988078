import Weverywhere.Node

/-!
Copies of one datagram at the message store. The handler of signed fabric
messages passes the received id on as the deduplication key, so a copy is
dropped while the key of the recorded one is remembered, and is recorded again
whenever the id is empty.
-/
namespace Weverywhere.ReplayedDatagrams

open ByteStrings BoundedQueue DedupLog Identity MessageLog Messages Node

variable (c : Crypto) (compiles : Bytes → Bool)

/-- The log of accepted messages after one more event. -/
def logStep (e : Executor) (log : List Push) (event : Event) : List Push :=
  match pushedBy c e event with
  | none => log
  | some p => accept Push.key seenWindow log p

/-- The log of accepted messages after a run that starts at `e` with `log`. -/
def logAfter (e : Executor) (log : List Push) : List Event → List Push
  | [] => log
  | event :: rest => logAfter (e.step c compiles event) (logStep c e log event) rest

/-- The store represents the log, and the programs running are checked ones. -/
structure Tracks (e : Executor) (log : List Push) : Prop where
  keys : KeysAre32 log
  represents : Represents 4096 e.messages log
  callers : CallersChecked e

theorem tracks_new : Tracks Executor.new [] where
  keys := by simp [KeysAre32]
  represents := represents_new 4096
  callers := by simp [CallersChecked, Executor.new]

/-- Step lemma: every event keeps the store on its log. -/
theorem tracks_step {e : Executor} {log : List Push} (h : Tracks e log) (event : Event) :
    Tracks (e.step c compiles event) (logStep c e log event) := by
  unfold logStep
  cases hpushed : pushedBy c e event with
  | none =>
    refine ⟨h.keys, ?_, callersChecked_step c compiles h.callers event⟩
    rw [step_messages, hpushed]
    exact h.represents
  | some p =>
    have hp := pushedBy_key_length c h.callers hpushed
    refine ⟨keysAre32_accept h.keys p hp, ?_, callersChecked_step c compiles h.callers event⟩
    rw [step_messages, hpushed]
    exact represents_pushOf h.represents h.keys p hp

/-- Run lemma: the store stays on the log of the run. -/
theorem tracks_run {e : Executor} {log : List Push} (h : Tracks e log) (events : List Event) :
    Tracks (e.run c compiles events) (logAfter c compiles e log events) := by
  induction events generalizing e log with
  | nil => exact h
  | cons event rest ih => exact ih (tracks_step c compiles h event)

theorem logAfter_prefix (e : Executor) (log : List Push) (events : List Event) :
    log <+: logAfter c compiles e log events := by
  induction events generalizing e log with
  | nil => exact List.prefix_rfl
  | cons event rest ih =>
    refine List.IsPrefix.trans ?_ (ih (e.step c compiles event) (logStep c e log event))
    unfold logStep
    split
    · exact List.prefix_rfl
    · exact prefix_foldl_accept Push.key seenWindow log [_]

/-- A message that was accepted and has since seen fewer than 4096 keyed
messages accepted is still remembered. -/
theorem repeats_of_accepted (log between : List Push) (p : Push) (hid : p.id ≠ [])
    (hbetween : (between.filterMap Push.key).length < 4096) :
    Repeats ((log ++ [p]) ++ between) p := by
  rw [List.append_assoc, List.singleton_append]
  exact isRepeat_of_recent Push.key seenWindow log between p _
    ((Push.key_eq_some_iff p _).mpr ⟨hid, rfl⟩) hbetween

theorem repeats_key_only {log : List Push} {p q : Push} (hkey : p.key = q.key)
    (h : Repeats log p) : Repeats log q := by
  obtain ⟨k, hk, hmem⟩ := h
  exact ⟨k, hkey ▸ hk, hmem⟩

theorem logAfter_append (e : Executor) (log : List Push) (front back : List Event) :
    logAfter c compiles e log (front ++ back) =
      logAfter c compiles (e.run c compiles front) (logAfter c compiles e log front) back := by
  induction front generalizing e log with
  | nil => rfl
  | cons event rest ih => exact ih (e.step c compiles event) (logStep c e log event)

/-- The node after a run from its start. -/
def nodeAfter (events : List Event) : Executor := Executor.new.run c compiles events

/-- All messages accepted in a run from the node's start, oldest first. -/
def acceptedIn (events : List Event) : List Push := logAfter c compiles Executor.new [] events

/-- The messages with a non-empty id accepted during `later`, after `earlier`. -/
def keyedAcceptedDuring (earlier later : List Event) : List Push :=
  ((acceptedIn c compiles (earlier ++ later)).drop (acceptedIn c compiles earlier).length).filter
    fun p => !p.id.isEmpty

/-- `event` delivers this very datagram, from any address at any time. -/
def IsCopyOf (message : NetworkMessage) (event : Event) : Prop :=
  ∃ addr now, event = .datagram addr now (some message)

theorem filterMap_key_length (log : List Push) :
    (log.filterMap Push.key).length = (log.filter fun p => !p.id.isEmpty).length := by
  induction log with
  | nil => rfl
  | cons p log ih =>
    by_cases hid : p.id = []
    · simp [Push.key, hid, ih]
    · simp [Push.key, List.isEmpty_iff, hid, ih]

/-- A datagram that changed the store was verified, and its message is the
newest of the log. -/
theorem accepted_of_recorded {e : Executor} {log : List Push} (h : Tracks e log)
    {addr : SocketAddr} {now : UInt64} {source : IdentityData} {id cborData signature : Bytes}
    (hrecorded : (e.step c compiles (.datagram addr now
      (some (.signedFabricMessage source id cborData signature)))).messages ≠ e.messages) :
    FabricVerified c source id cborData signature ∧
      logStep c e log (.datagram addr now
        (some (.signedFabricMessage source id cborData signature))) =
          log ++ [⟨source.humanName, source.encodedPublicKey, id, cborData, now⟩] := by
  by_cases hver : FabricVerified c source id cborData signature
  · refine ⟨hver, ?_⟩
    rw [step_messages] at hrecorded
    simp only [pushedBy, hver, if_true] at hrecorded
    simp only [logStep, pushedBy, hver, if_true, accept]
    rw [if_neg]
    intro hrepeat
    refine hrecorded (congrArg Prod.fst (pushOf_repeat h.represents h.keys _ ?_ hrepeat))
    exact IdentityData.checkSelfSignature_key_length hver.1
  · rw [step_messages] at hrecorded
    simp [pushedBy, hver] at hrecorded

/-- Once a copy of a datagram with a non-empty id has been recorded, every later
copy leaves the store unchanged, as long as fewer than 4096 other messages with
a non-empty id were accepted since the recorded copy. -/
theorem later_copy_ignored (before between : List Event) (source : IdentityData)
    (id cborData signature : Bytes) (hid : id ≠ []) (first later : Event)
    (hfirst : IsCopyOf (.signedFabricMessage source id cborData signature) first)
    (hlater : IsCopyOf (.signedFabricMessage source id cborData signature) later)
    (hrecorded : (nodeAfter c compiles (before ++ [first])).messages ≠
      (nodeAfter c compiles before).messages)
    (hbetween : (keyedAcceptedDuring c compiles (before ++ [first]) between).length < 4096) :
    (nodeAfter c compiles (before ++ [first] ++ between ++ [later])).messages =
      (nodeAfter c compiles (before ++ [first] ++ between)).messages := by
  obtain ⟨addr, now, rfl⟩ := hfirst
  obtain ⟨addr', now', rfl⟩ := hlater
  have hbefore := tracks_run c compiles tracks_new before
  rw [nodeAfter, Executor.run_append_singleton] at hrecorded
  obtain ⟨hver, hlog⟩ := accepted_of_recorded c compiles hbefore hrecorded
  set copy := Event.datagram addr now (some (.signedFabricMessage source id cborData signature))
  have haccepted : acceptedIn c compiles (before ++ [copy]) =
      acceptedIn c compiles before ++
        [⟨source.humanName, source.encodedPublicKey, id, cborData, now⟩] := by
    rw [acceptedIn, logAfter_append]
    exact hlog
  obtain ⟨rest, hrest⟩ : acceptedIn c compiles (before ++ [copy]) <+:
      acceptedIn c compiles (before ++ [copy] ++ between) := by
    rw [acceptedIn, acceptedIn, logAfter_append c compiles _ _ (before ++ [copy])]
    exact logAfter_prefix c compiles _ _ _
  have hfew : (rest.filterMap Push.key).length < 4096 := by
    rw [filterMap_key_length]
    rw [keyedAcceptedDuring, ← hrest, List.drop_left] at hbetween
    exact hbetween
  have hrepeat := repeats_of_accepted (acceptedIn c compiles before) rest
    ⟨source.humanName, source.encodedPublicKey, id, cborData, now⟩ hid hfew
  rw [← haccepted, hrest] at hrepeat
  have htracks := tracks_run c compiles tracks_new (before ++ [copy] ++ between)
  have hlast : nodeAfter c compiles (before ++ [copy] ++ between ++
        [.datagram addr' now' (some (.signedFabricMessage source id cborData signature))]) =
      (nodeAfter c compiles (before ++ [copy] ++ between)).step c compiles
        (.datagram addr' now' (some (.signedFabricMessage source id cborData signature))) :=
    Executor.run_append_singleton c compiles _ _ _
  rw [hlast, step_messages]
  simp only [pushedBy, hver, if_true]
  have hkey : (⟨source.humanName, source.encodedPublicKey, id, cborData, now⟩ : Push).key =
      (⟨source.humanName, source.encodedPublicKey, id, cborData, now'⟩ : Push).key := rfl
  exact congrArg Prod.fst (pushOf_repeat htracks.represents htracks.keys _
    (IdentityData.checkSelfSignature_key_length hver.1) (repeats_key_only hkey hrepeat))

theorem later_copy_ignored_line :
    (nodeAfter (idealCrypto (aliceIssued [1])) (fun _ => false)
      ([] ++ [.datagram (.v4 1 2240) 1 (some (aliceLine [1]))] ++ [] ++
        [.datagram (.v4 2 2240) 2 (some (aliceLine [1]))])).messages =
    (nodeAfter (idealCrypto (aliceIssued [1])) (fun _ => false)
      ([] ++ [.datagram (.v4 1 2240) 1 (some (aliceLine [1]))] ++ [])).messages := by
  refine later_copy_ignored _ _ [] [] _ [1] _ _ (by decide) _ _ ⟨_, _, rfl⟩ ⟨_, _, rfl⟩ ?_
    (by decide)
  intro h
  exact absurd (congrArg MessageStore.nextSeq h) (by decide)

/-- A verified datagram with an empty id is recorded again on its next copy. -/
theorem empty_id_recorded_twice :
    ((nodeAfter (idealCrypto (aliceIssued [])) (fun _ => false)
      [.datagram (.v4 1 2240) 1 (some (aliceLine [])),
        .datagram (.v4 2 2240) 2 (some (aliceLine []))]).messages.msgs.map (·.seq)) = [1, 2] ∧
    (nodeAfter (idealCrypto (aliceIssued [])) (fun _ => false)
      [.datagram (.v4 1 2240) 1 (some (aliceLine [])),
        .datagram (.v4 2 2240) 2 (some (aliceLine []))]).messages ≠
    (nodeAfter (idealCrypto (aliceIssued [])) (fun _ => false)
      [.datagram (.v4 1 2240) 1 (some (aliceLine []))]).messages := by
  refine ⟨by decide, fun h => ?_⟩
  exact absurd (congrArg MessageStore.nextSeq h) (by decide)

end Weverywhere.ReplayedDatagrams
