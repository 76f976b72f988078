import Weverywhere.RelayWorld

/-!
Discovery sessions stay apart. A relay takes whatever comes to its endpoint for
a reply of its own subtree, so a reply that is late for an earlier holder of the
endpoint changes sessions there. Along runs in which no socket reads such a
reply, whatever a collector accepts was returned in its own session.
-/
namespace Weverywhere.RelaySessions

open ByteStrings Identity Weverywhere.Configuration Messages Node Discovery RelayWorld Runs

variable {ι ε : Type}

/-- Some node returned exactly this while executing a request of that session. -/
def Returned (l : Log ι ε) (a : Accepted) : Prop :=
  ∃ map ∈ l.produced, map.session = a.session ∧ map.fromPid = a.fromPid ∧
    map.cborData = a.cborData

def SessionsKept (w : World ι ε) : Prop := ∀ a ∈ w.log.accepted, Returned w.log a

def requestUuidOf : NetworkMessage → Option Uuid
  | .basicReturnMap _ requestUuid _ => some requestUuid
  | .basicReturnList _ requestUuid _ => some requestUuid
  | _ => none

/-- A collector refuses a UUID that is not its own. -/
def Refuses (message : NetworkMessage) : Role → Prop
  | .collector requestUuid => requestUuidOf message ≠ some requestUuid
  | .relay _ _ _ => False

instance (message : NetworkMessage) : (role : Role) → Decidable (Refuses message role)
  | .collector _ => inferInstanceAs (Decidable (_ ≠ _))
  | .relay _ _ _ => .isFalse id

/-- The condition on a step: what an open socket reads was sent to it or to an
earlier socket of its session, or it is a collector and the UUID is not its own. -/
def ReadsOwn (endpointOf : SocketAddr → ε) (w : World ι ε) : Action ι ε → Prop
  | .read s n => ∀ sock ∈ w.log.sockets[s]?, ∀ reply ∈ w.log.replies[n]?,
      w.log.Holds s (endpointOf reply.dest) →
        w.log.sessionOf reply.addressee = some sock.session ∨ Refuses reply.message sock.role
  | _ => True

instance [DecidableEq ε] (endpointOf : SocketAddr → ε) (w : World ι ε) :
    (action : Action ι ε) → Decidable (ReadsOwn endpointOf w action)
  | .read s n => inferInstanceAs (Decidable (∀ sock ∈ w.log.sockets[s]?,
      ∀ reply ∈ w.log.replies[n]?, w.log.Holds s (endpointOf reply.dest) → _ ∨ _))
  | .traffic _ _ | .begin _ | .collect _ _ | .ask _ _ _ | .execute _ _ _ _ _
  | .forward _ _ _ _ | .bind _ _ | .close _ => .isTrue trivial

/-! Every entry of the log knows its session. -/

def RoleLabelled (l : Log ι ε) (session : ℕ) : Role → Prop
  | .collector _ => True
  | .relay _ _ caller => l.sessionOf caller = some session

/-- The reply carries a map of the session of the socket it is sent to. -/
def ReplyLabelled (l : Log ι ε) (reply : Reply) : Prop :=
  ∃ map requestUuid, l.produced[reply.produced]? = some map ∧
    l.sessionOf reply.addressee = some map.session ∧
    reply.message = .basicReturnMap map.fromPid requestUuid map.cborData

/-- The entries of `new` are labelled in `l`. -/
structure LabelledIn (l new : Log ι ε) : Prop where
  sockets : ∀ sock ∈ new.sockets, RoleLabelled l sock.session sock.role
  executed : ∀ x ∈ new.executed, l.sessionOf x.caller = some x.session
  tasks : ∀ task ∈ new.tasks, l.sessionOf task.caller = some task.session
  replies : ∀ reply ∈ new.replies, ReplyLabelled l reply
  accepted : ∀ a ∈ new.accepted, Returned l a

theorem RoleLabelled.append {l l' : Log ι ε} {session : ℕ} {role : Role}
    (h : RoleLabelled l session role) : RoleLabelled (l ++ l') session role := by
  cases role with
  | collector requestUuid => trivial
  | relay callerAddr callerUuid caller => exact Log.sessionOf_append h

theorem Returned.append {l l' : Log ι ε} {a : Accepted} (h : Returned l a) :
    Returned (l ++ l') a := by
  obtain ⟨map, hmem, hmap⟩ := h
  exact ⟨map, List.mem_append_left _ hmem, hmap⟩

theorem ReplyLabelled.append {l l' : Log ι ε} {reply : Reply} (h : ReplyLabelled l reply) :
    ReplyLabelled (l ++ l') reply := by
  obtain ⟨map, requestUuid, hmap, hsession, hmessage⟩ := h
  refine ⟨map, requestUuid, ?_, Log.sessionOf_append hsession, hmessage⟩
  change (l.produced ++ l'.produced)[reply.produced]? = some map
  rw [List.getElem?_append_left (List.getElem?_eq_some_iff.mp hmap).1, hmap]

/-- Old entries stay labelled, so only the new ones need a look. -/
theorem LabelledIn.append {l new : Log ι ε} (h : LabelledIn l l)
    (hnew : LabelledIn (l ++ new) new) : LabelledIn (l ++ new) (l ++ new) where
  sockets := by
    intro sock hmem
    rcases List.mem_append.mp hmem with hmem | hmem
    · exact (h.sockets sock hmem).append
    · exact hnew.sockets sock hmem
  executed := by
    intro x hmem
    rcases List.mem_append.mp hmem with hmem | hmem
    · exact Log.sessionOf_append (h.executed x hmem)
    · exact hnew.executed x hmem
  tasks := by
    intro task hmem
    rcases List.mem_append.mp hmem with hmem | hmem
    · exact Log.sessionOf_append (h.tasks task hmem)
    · exact hnew.tasks task hmem
  replies := by
    intro reply hmem
    rcases List.mem_append.mp hmem with hmem | hmem
    · exact (h.replies reply hmem).append
    · exact hnew.replies reply hmem
  accepted := by
    intro a hmem
    rcases List.mem_append.mp hmem with hmem | hmem
    · exact (h.accepted a hmem).append
    · exact hnew.accepted a hmem

/-- An effect without labelled entries. -/
theorem labelledIn_empty {l new : Log ι ε} (hsockets : new.sockets = [])
    (hexecuted : new.executed = []) (htasks : new.tasks = []) (hreplies : new.replies = [])
    (haccepted : new.accepted = []) : LabelledIn l new := by
  refine ⟨?_, ?_, ?_, ?_, ?_⟩
  · simp [hsockets]
  · simp [hexecuted]
  · simp [htasks]
  · simp [hreplies]
  · simp [haccepted]

section Effects

variable (p : Platform)

theorem labelledIn_forward (w : World ι ε) (h : LabelledIn w.log w.log) (k : ℕ)
    (resolve : PeerMetadata → Option SocketAddr) (observed : List (SocketAddr × Bytes))
    (freshUuid : Uuid) :
    LabelledIn (w.log ++ forwardEffect p w k resolve observed freshUuid)
      (forwardEffect p w k resolve observed freshUuid) := by
  unfold forwardEffect
  cases hx : w.log.executed[k]? with
  | none => exact labelledIn_empty rfl rfl rfl rfl rfl
  | some x =>
    simp only
    split_ifs
    · refine ⟨by simp, by simp, ?_, by simp, by simp⟩
      intro task hmem
      obtain ⟨⟨target, sub⟩, -, rfl⟩ := List.mem_map.mp hmem
      exact Log.sessionOf_append (h.executed x (List.mem_of_getElem? hx))
    · exact labelledIn_empty rfl rfl rfl rfl rfl

variable [DecidableEq ε] (compiles : Bytes → Bool) (endpointOf : SocketAddr → ε)

theorem arriving_eq_some {l : Log ι ε} {n : ℕ} {addr : SocketAddr} {request : Request}
    {sock : Socket ε} (h : arriving endpointOf l n addr = some (request, sock)) :
    l.sessionOf request.sender = some sock.session := by
  simp only [arriving, Option.bind_eq_bind, Option.bind_eq_some_iff] at h
  obtain ⟨request', -, sock', hsock, h⟩ := h
  split_ifs at h
  obtain ⟨rfl, rfl⟩ := Prod.mk.inj (Option.some.inj h)
  rw [Log.sessionOf, hsock, Option.map_some]

theorem labelledIn_execute (w : World ι ε) (i : ι) (n : ℕ) (addr : SocketAddr) (now : UInt64)
    (returned : Option ExecReturn) :
    LabelledIn (w.log ++ executeEffect p compiles endpointOf w i n addr now returned)
      (executeEffect p compiles endpointOf w i n addr now returned) := by
  unfold executeEffect
  cases harriving : arriving endpointOf w.log n addr with
  | none => exact labelledIn_empty rfl rfl rfl rfl rfl
  | some arrived =>
    obtain ⟨request, sock⟩ := arrived
    have hsession := arriving_eq_some endpointOf harriving
    simp only
    cases startedBy p.toCrypto compiles (w.node i).executor
        (.datagram addr now (some (.executeRequest request.program))) with
    | none => exact labelledIn_empty rfl rfl rfl rfl rfl
    | some running =>
      refine ⟨by simp, ?_, by simp, ?_, by simp⟩
      · intro x hmem
        rw [List.mem_singleton.mp hmem]
        exact Log.sessionOf_append hsession
      · intro reply hmem
        simp only [List.mem_map, Option.mem_toList] at hmem
        obtain ⟨cbor, hcbor, rfl⟩ := hmem
        -- the map is appended in the same step, right behind the old ones
        refine ⟨⟨sock.session, i, _, cbor⟩, request.program.requestUuid, ?_,
          Log.sessionOf_append hsession, rfl⟩
        change (w.log.produced ++ _)[w.log.produced.length]? = _
        rw [List.getElem?_append_right (Nat.le_refl _), Nat.sub_self, hcbor]
        rfl

theorem labelledIn_bind (w : World ι ε) (h : LabelledIn w.log w.log) (t : ℕ) (endpoint : ε) :
    LabelledIn (w.log ++ bindEffect w t endpoint) (bindEffect w t endpoint) := by
  unfold bindEffect
  cases htask : w.log.tasks[t]? with
  | none => exact labelledIn_empty rfl rfl rfl rfl rfl
  | some task =>
    simp only
    split_ifs
    · refine ⟨?_, by simp, by simp, by simp, by simp⟩
      intro sock hmem
      rw [List.mem_singleton.mp hmem]
      exact Log.sessionOf_append (h.tasks task (List.mem_of_getElem? htask))
    · exact labelledIn_empty rfl rfl rfl rfl rfl

/-- A socket that reads replies of its own session passes on and accepts what is
labelled with it. -/
theorem labelledIn_read (w : World ι ε) (h : LabelledIn w.log w.log) (s n : ℕ)
    (hreads : ReadsOwn endpointOf w (.read s n)) :
    LabelledIn (w.log ++ readEffect endpointOf w s n) (readEffect endpointOf w s n) := by
  unfold readEffect
  cases hsock : w.log.sockets[s]? with
  | none => exact labelledIn_empty rfl rfl rfl rfl rfl
  | some sock =>
    cases hreply : w.log.replies[n]? with
    | none => exact labelledIn_empty rfl rfl rfl rfl rfl
    | some reply =>
      simp only
      split_ifs with hholds
      · obtain ⟨map, requestUuid, hmap, hsession, hmessage⟩ :=
          h.replies reply (List.mem_of_getElem? hreply)
        have hown := hreads sock hsock reply hreply hholds
        have hrole := h.sockets sock (List.mem_of_getElem? hsock)
        cases hkind : sock.role with
        | collector ownUuid =>
          refine ⟨by simp, by simp, by simp, by simp, ?_⟩
          intro a hmem
          simp only [hmessage, collected, List.mem_map, Option.mem_toList,
            Option.ite_none_right_eq_some, Option.some.injEq, Prod.exists, Prod.mk.injEq] at hmem
          obtain ⟨fromPid, cborData, ⟨huuid, rfl, rfl⟩, rfl⟩ := hmem
          rcases hown with hown | hrefuses
          · have hsame : map.session = sock.session :=
              Option.some.inj (hsession.symm.trans hown)
            exact ⟨map, List.mem_append_left _ (List.mem_of_getElem? hmap), hsame, rfl, rfl⟩
          · rw [hkind, Refuses, hmessage, requestUuidOf, huuid] at hrefuses
            exact absurd rfl hrefuses
        | relay callerAddr callerUuid caller =>
          rw [hkind] at hrole hown
          have hsame : map.session = sock.session := by
            rcases hown with hown | hrefuses
            · exact Option.some.inj (hsession.symm.trans hown)
            · exact hrefuses.elim
          refine ⟨by simp, by simp, by simp, ?_, by simp⟩
          intro out hmem
          simp only [hmessage, rewritten, Option.toList_some, List.map_cons, List.map_nil,
            List.mem_singleton] at hmem
          subst hmem
          refine ⟨map, callerUuid, ?_, ?_, rfl⟩
          · exact (List.getElem?_append_left (List.getElem?_eq_some_iff.mp hmap).1).trans hmap
          · rw [hsame]
            exact Log.sessionOf_append hrole
      · exact labelledIn_empty rfl rfl rfl rfl rfl

/-- Outside the condition a map of another session is accepted, or is sent on to a
caller of another session. -/
theorem mixed_of_not_readsOwn (w : World ι ε) (h : LabelledIn w.log w.log) (s n : ℕ)
    (hreads : ¬ ReadsOwn endpointOf w (.read s n)) :
    ∃ map ∈ w.log.produced,
      (∃ a ∈ (readEffect endpointOf w s n).accepted, a.session ≠ map.session ∧
        a.fromPid = map.fromPid ∧ a.cborData = map.cborData) ∨
      ∃ out ∈ (readEffect endpointOf w s n).replies,
        w.log.produced[out.produced]? = some map ∧
        w.log.sessionOf out.addressee ≠ some map.session := by
  simp only [ReadsOwn] at hreads
  push Not at hreads
  obtain ⟨sock, hsock, reply, hreply, hholds, hforeign, hnot⟩ := hreads
  have hsockets : w.log.sockets[s]? = some sock := hsock
  have hreplies : w.log.replies[n]? = some reply := hreply
  obtain ⟨map, requestUuid, hmap, hsession, hmessage⟩ :=
    h.replies reply (List.mem_of_getElem? hreplies)
  have hother : sock.session ≠ map.session := by
    intro hsame
    exact hforeign (hsession.trans (by rw [hsame]))
  have hrole := h.sockets sock (List.mem_of_getElem? hsockets)
  refine ⟨map, List.mem_of_getElem? hmap, ?_⟩
  unfold readEffect
  simp only [hsockets, hreplies, hholds, if_true, hmessage]
  cases hkind : sock.role with
  | collector ownUuid =>
    left
    rw [hkind, hmessage, Refuses, requestUuidOf] at hnot
    have hown : requestUuid = ownUuid := Option.some.inj (not_not.mp hnot)
    refine ⟨⟨sock.session, map.fromPid, map.cborData⟩, ?_, hother, rfl, rfl⟩
    simp [collected, hown]
  | relay callerAddr callerUuid caller =>
    right
    rw [hkind] at hrole
    refine ⟨⟨callerAddr, .basicReturnMap map.fromPid callerUuid map.cborData, caller,
      reply.produced⟩, ?_, hmap, ?_⟩
    · simp [rewritten]
    · intro hsame
      exact hother (Option.some.inj (hrole.symm.trans hsame))

theorem labelledIn_collect (w : World ι ε) (session : ℕ) (endpoint : ε) :
    LabelledIn (w.log ++ effect p compiles endpointOf w (.collect session endpoint))
      (effect p compiles endpointOf w (.collect session endpoint)) := by
  simp only [effect]
  cases w.log.sessions[session]? with
  | none => exact labelledIn_empty rfl rfl rfl rfl rfl
  | some requestUuid =>
    simp only
    split_ifs
    · refine ⟨?_, by simp, by simp, by simp, by simp⟩
      intro sock hmem
      rw [List.mem_singleton.mp hmem]
      trivial
    · exact labelledIn_empty rfl rfl rfl rfl rfl

theorem labelledIn_ask (w : World ι ε) (s : ℕ) (dest : SocketAddr) (program : ProgramData) :
    LabelledIn (w.log ++ effect p compiles endpointOf w (.ask s dest program))
      (effect p compiles endpointOf w (.ask s dest program)) := by
  simp only [effect]
  split
  · split_ifs <;> exact labelledIn_empty rfl rfl rfl rfl rfl
  · exact labelledIn_empty rfl rfl rfl rfl rfl

end Effects

variable [DecidableEq ι] [DecidableEq ε] (p : Platform) (compiles : Bytes → Bool)
  (endpointOf : SocketAddr → ε)

theorem labelled_step {w : World ι ε} {action : Action ι ε}
    (hreads : ReadsOwn endpointOf w action) (h : LabelledIn w.log w.log) :
    LabelledIn (step p compiles endpointOf w action).log
      (step p compiles endpointOf w action).log := by
  apply h.append
  cases action with
  | traffic i event => exact labelledIn_empty rfl rfl rfl rfl rfl
  | begin requestUuid => exact labelledIn_empty rfl rfl rfl rfl rfl
  | collect session endpoint => exact labelledIn_collect p compiles endpointOf w session endpoint
  | ask s dest program => exact labelledIn_ask p compiles endpointOf w s dest program
  | execute i n addr now returned =>
    exact labelledIn_execute p compiles endpointOf w i n addr now returned
  | forward k resolve observed freshUuid =>
    exact labelledIn_forward p w h k resolve observed freshUuid
  | bind t endpoint => exact labelledIn_bind w h t endpoint
  | read s n => exact labelledIn_read endpointOf w h s n hreads
  | close s => exact labelledIn_empty rfl rfl rfl rfl rfl

/-- However datagrams travel and endpoints are reused, every map a collector
accepts was returned in its own session, with that PID and those bytes, as long
as no open socket reads a reply that was on its way to another session. -/
theorem sessions_kept (node : ι → ServeNode) {actions : List (Action ι ε)}
    (h : EachStep (step p compiles endpointOf) (ReadsOwn endpointOf) (start node) actions) :
    EveryState (step p compiles endpointOf) SessionsKept (start node) actions := by
  have hstep : ∀ (w : World ι ε) action, ReadsOwn endpointOf w action → LabelledIn w.log w.log →
      LabelledIn (step p compiles endpointOf w action).log
        (step p compiles endpointOf w action).log :=
    fun _ _ hreads hlabelled => labelled_step p compiles endpointOf hreads hlabelled
  have hkept : ∀ w : World ι ε, LabelledIn w.log w.log → SessionsKept w :=
    fun _ hlabelled => hlabelled.accepted
  exact everyState_of_eachStep (step p compiles endpointOf) hstep hkept h
    (labelledIn_empty rfl rfl rfl rfl rfl)

/-! Two discoveries through one machine. -/

def firstOrigin : SocketAddr := .v4 0xC0A80101 50000

def secondOrigin : SocketAddr := .v4 0xC0A80102 50000

/-- The port the laptop's relays get, one after the other. -/
def relayPort : SocketAddr := .v4 0xC0A8010A 50001

/-- The first origin asks the laptop, the laptop asks the server, and the server
returns its map to the laptop's relay. -/
def firstSession : List (Action Machine SocketAddr) :=
  [.begin (Vector.replicate 16 7),
    .collect 0 firstOrigin,
    .ask 0 (.v4 0xC0A8010A 2240) originRequest,
    .execute .laptop 0 firstOrigin 1760000000 (some ⟨none, none⟩),
    .forward 0 resolveIpv4 [(firstOrigin, aliceKey)] (Vector.replicate 16 8),
    .bind 0 relayPort,
    .execute .server 1 relayPort 1760000000 (some ⟨some [0xA0], none⟩)]

/-- The relay passes the map on and the first origin takes it. -/
def mapInTime : List (Action Machine SocketAddr) := firstSession ++ [.read 1 0, .read 0 1]

/-- The relay has given up before the map is there. A relay of the second origin's
discovery gets its port, and the map. -/
def mapTooLate : List (Action Machine SocketAddr) :=
  firstSession ++
    [.close 1,
      .begin (Vector.replicate 16 9),
      .collect 1 secondOrigin,
      .ask 2 (.v4 0xC0A8010A 2240) { originRequest with requestUuid := Vector.replicate 16 9 },
      .execute .laptop 2 secondOrigin 1760000003 (some ⟨none, none⟩),
      .forward 2 resolveIpv4 [(secondOrigin, aliceKey)] (Vector.replicate 16 10),
      .bind 1 relayPort,
      .read 3 0,
      .read 2 1]

theorem sessions_kept_in_time :
    EveryState (step machinePlatform (fun _ => true) id) SessionsKept (start (Machine.node none))
      mapInTime := by
  have hreads : EachStep (step machinePlatform (fun _ => true) id) (ReadsOwn id)
      (start (Machine.node none)) mapInTime := by
    decide +kernel
  exact sessions_kept machinePlatform (fun _ => true) id (Machine.node none) hreads

theorem late_map_changes_session :
    ¬ EveryState (step machinePlatform (fun _ => true) id) SessionsKept
      (start (Machine.node none)) mapTooLate := by
  intro h
  have haccepted : (⟨1, 0, [0xA0]⟩ : Accepted) ∈ (mapTooLate.foldl
      (step machinePlatform (fun _ => true) id) (start (Machine.node none))).log.accepted := by
    decide +kernel
  have hproduced : (mapTooLate.foldl (step machinePlatform (fun _ => true) id)
      (start (Machine.node none))).log.produced.all (fun map => map.session == 0) = true := by
    decide +kernel
  obtain ⟨map, hmem, hsession, -⟩ := h.last _ haccepted
  have hzero := List.all_eq_true.mp hproduced map hmem
  rw [hsession] at hzero
  cases hzero

end Weverywhere.RelaySessions
