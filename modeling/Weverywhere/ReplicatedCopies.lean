import Weverywhere.ArgsEcho
import Weverywhere.ReplyBuffers
import Weverywhere.Replication

/-!
What a program asks of `host::replicate` and what then runs on other nodes: the arguments
in the map that `decode_replicate_args` (`src/src/executor/mod.rs`) describes, the queue
that `run_local` drains, the request that `broadcast_program_to_fabric`
(`src/src/command/run.rs`) makes of each, and the copies of its datagram, any number of
them at any node and at any time.
-/
namespace Weverywhere.ReplicatedCopies

open ByteStrings Identity Messages Node Replication ReplyBuffers Runs WireFormat

/-! The arguments. -/

/-- A map from numbers to lists of texts. -/
def textsMap (m : List (ℕ × List String)) : Cbor.Value :=
  .map (m.map fun entry => (.integer entry.1, .array (entry.2.map .text)))

/-- The list, and the names and values of the map one after the other. -/
def packed (args : Arguments) : List (ℕ × List String) :=
  [(1, args.1), (2, args.2.flatMap fun kv => [kv.1, kv.2])]

/-- What the guest gives to `host::replicate`. -/
def argsCbor (args : Arguments) : Bytes := Cbor.encode (textsMap (packed args))

def Sized (args : Arguments) : Prop := Cbor.Serializable 3 (textsMap (packed args))

/-- A decoder that reads such maps if their numbers go up. -/
def ReadsTexts (fromSlice : Bytes → Option Value) : Prop :=
  ∀ m, (m.map Prod.fst).Pairwise (· < ·) → Cbor.Serializable 3 (textsMap m) →
    fromSlice (Cbor.encode (textsMap m)) =
      some (.map (m.map fun entry => (.integer entry.1, .array (entry.2.map .text))))

theorem pairs_flatMap (m : List (String × String)) :
    pairs (m.flatMap fun kv => [kv.1, kv.2]) = m := by
  induction m with
  | nil => rfl
  | cons kv rest ih =>
    rw [List.flatMap_cons, List.cons_append, List.cons_append, List.nil_append, pairs, ih]

theorem asTexts_texts (texts : List String) :
    asTexts (some (.array (texts.map .text))) = texts := by
  rw [asTexts, List.map_map]
  exact List.map_id texts

/-- The arguments come back as the guest packed them. -/
theorem decodeReplicateArgs_argsCbor {fromSlice : Bytes → Option Value}
    (hreads : ReadsTexts fromSlice) {args : Arguments} (hsized : Sized args) :
    decodeReplicateArgs fromSlice (argsCbor args) = args := by
  have hread := hreads (packed args) (by simp [packed]) hsized
  have hlist : getInteger 1 ((packed args).map fun entry =>
      (Value.integer entry.1, Value.array (entry.2.map .text))) =
        some (.array (args.1.map .text)) := by
    simp [packed, getInteger]
  have hmap : getInteger 2 ((packed args).map fun entry =>
      (Value.integer entry.1, Value.array (entry.2.map .text))) =
        some (.array ((args.2.flatMap fun kv => [kv.1, kv.2]).map .text)) := by
    simp [packed, getInteger]
  rw [decodeReplicateArgs, argsCbor, hread]
  simp only [hlist, hmap, asTexts_texts, pairs_flatMap]

/-! The fabric. -/

/-- The program that `run_local` runs, with the identity it runs it under. -/
structure Program where
  source : IdentityData
  humanName : String
  wasmBytes : Bytes

/-- The request of `broadcast_program_to_fabric`. -/
def Program.copy (p : Program) (args : Arguments) : ProgramData :=
  IdentityValidity.runRequest p.source (some p.humanName) p.wasmBytes args.1 args.2

def Program.datagram (p : Program) (args : Arguments) : Bytes :=
  toVec (.executeRequest (p.copy args))

/-- What a copy of the datagram with the given number came to: `trusted` is whether the
node trusted the program's source then. -/
structure Arrival (ι : Type) where
  node : ι
  number : ℕ
  trusted : Bool
  started : Option RunningProgram

/-- The machine and the nodes. `asked` has the arguments of the calls that returned 0. -/
structure World (ι : Type) where
  machine : Replication.State
  asked : List Arguments
  node : ι → Executor
  arrivals : List (Arrival ι)

inductive Action (ι : Type)
  | call (args : Arguments)
  | runner (outcome : PidTable.Outcome)
  | runLocal (ok : Bool)
  /-- A copy of the datagram with the number `k`. -/
  | arrive (j : ι) (addr : SocketAddr) (now : UInt64) (k : ℕ)
  | event (j : ι) (event : Node.Event)

variable {ι : Type}

/-- The step of the machine, if it is one. -/
def Action.onMachine : Action ι → Option Replication.Action
  | .call args => some (.replicate (argsCbor args))
  | .runner outcome => some (.runner outcome)
  | .runLocal ok => some (.runLocal ok)
  | .arrive _ _ _ _ => none
  | .event _ _ => none

def World.start : World ι := ⟨Replication.start, [], fun _ => Executor.new, []⟩

section Steps

variable [DecidableEq ι] (c : Crypto) (fromSlice : Bytes → Option Value) (p : Program)
  (compiles : ι → Bytes → Bool)

def World.onMachine (w : World ι) (action : Replication.Action) : World ι :=
  { w with machine := w.machine.step fromSlice action }

def World.atNode (w : World ι) (j : ι) (event : Node.Event) : World ι :=
  { w with node := Function.update w.node j ((w.node j).step c (compiles j) event) }

/-- Whether a call would return 0. -/
def World.accepts (w : World ι) (args : Arguments) : Prop :=
  (w.machine.table.tasks 0).runner = .running ∧
    (w.machine.replicate fromSlice (argsCbor args)).2 = 0

instance (w : World ι) (args : Arguments) : Decidable (w.accepts fromSlice args) :=
  inferInstanceAs (Decidable (_ ∧ _))

/-- A copy comes only of a datagram that could be sent. -/
def World.step (w : World ι) : Action ι → World ι
  | .call args =>
    { w.onMachine fromSlice (.replicate (argsCbor args)) with
      asked := if w.accepts fromSlice args then w.asked ++ [args] else w.asked }
  | .runner outcome => w.onMachine fromSlice (.runner outcome)
  | .runLocal ok => w.onMachine fromSlice (.runLocal ok)
  | .arrive j addr now k =>
    match w.machine.broadcasts[k]? with
    | none => w
    | some args =>
      if (p.datagram args).length ≤ maxDatagram then
        let event := .datagram addr now (WireFormat.fromSlice (p.datagram args))
        { w.atNode c compiles j event with
          arrivals := w.arrivals ++ [⟨j, k, (w.node j).trustsPubkey p.source.encodedPublicKey,
            startedBy c (compiles j) (w.node j) event⟩] }
      else w
  | .event j event => w.atNode c compiles j event

/-- The lengths of what the guest packs have 64 bits, and `begin_exec` checks the source. -/
def Possible (w : World ι) : Action ι → Prop
  | .call args => Sized args
  | .runLocal ok => w.machine.pc = .checkSource →
      (ok = true ↔ p.source.checkSelfSignature c = .ok ())
  | _ => True

/-- The wait of `run_local` neither ends with an error nor parks for good while anything is
queued. -/
def NothingLeft (w : World ι) (action : Action ι) : Prop :=
  ∀ a ∈ action.onMachine, LeavesNothingQueued w.machine a

/-- What runs for a copy of a request: the program, with its arguments and for whoever
started it. -/
def ranFor (arrival : Arrival ι) (args : Arguments) : Option RunningProgram :=
  if compiles arrival.node p.wasmBytes = true then
    some ⟨p.copy args, arrival.trusted, p.source.encodedPublicKey, p.source.humanName⟩
  else none

/-- A copy came of the request of some call, and started what that call asks for. -/
def FromCall (asked : List Arguments) (arrival : Arrival ι) : Prop :=
  ∃ args, asked[arrival.number]? = some args ∧ arrival.started = ranFor p compiles arrival args

/-- One request is made for each accepted call, in order and all of them by the end, and
each copy that arrives anywhere starts the program with the arguments of its call. -/
structure RunAsAsked (w : World ι) : Prop where
  inOrder : w.machine.broadcasts <+: w.asked
  all : w.machine.pc = .returned ∨ Stuck w.machine → w.machine.broadcasts = w.asked
  copies : ∀ arrival ∈ w.arrivals, FromCall p compiles w.asked arrival

end Steps

/-! The machine. -/

/-- `run_local` takes no calls. -/
theorem runLocal_accepted (s : Replication.State) (ok : Bool) :
    (s.runLocal ok).accepted = s.accepted := by
  rw [State.runLocal]
  cases hpc : s.pc with
  | checkSource =>
    dsimp only
    split_ifs <;> rfl
  | createPid =>
    dsimp only
    rw [State.createPid]
    split <;> rfl
  | wait =>
    dsimp only
    rcases wait_cases s with ⟨-, hwait⟩ | ⟨-, hwait⟩ | ⟨-, hwait⟩ <;> rw [hwait]
  | drain =>
    dsimp only
    rw [State.drain]
    split <;> rfl
  | returned => rfl

/-- A call is accepted when it returns 0. -/
theorem replicate_accepted (fromSlice : Bytes → Option Value) (w : World ι) (args : Arguments) :
    (w.machine.step fromSlice (.replicate (argsCbor args))).accepted =
      if w.accepts fromSlice args then w.machine.accepted ++ [argsCbor args]
      else w.machine.accepted := by
  rw [State.step]
  by_cases hrunning : (w.machine.table.tasks 0).runner = .running
  · rw [if_pos hrunning]
    by_cases hreturned : w.machine.pc = .returned
    · have hrefused : w.machine.replicate fromSlice (argsCbor args) = (w.machine, -1) :=
        if_pos hreturned
      have hnot : ¬ w.accepts fromSlice args := by
        rintro ⟨-, hzero⟩
        rw [hrefused] at hzero
        exact absurd hzero (show (-1 : Int32) ≠ 0 by decide)
      rw [if_neg hnot, hrefused]
    · have haccepts : w.accepts fromSlice args := by
        refine ⟨hrunning, ?_⟩
        rw [State.replicate, if_neg hreturned]
      rw [if_pos haccepts, State.replicate, if_neg hreturned]
  · rw [if_neg hrunning, if_neg fun h => hrunning h.1]

/-- No guest has been started. -/
structure Refused (s : Replication.State) : Prop where
  table : s.table = PidTable.init
  pc : s.pc = .checkSource ∨ s.pc = .drain ∨ s.pc = .returned
  queue : s.queue = []
  broadcasts : s.broadcasts = []

theorem refused_start : Refused Replication.start := ⟨rfl, .inl rfl, rfl, rfl⟩

theorem runner_init (outcome : PidTable.Outcome) :
    PidTable.init.runner 0 outcome = PidTable.init := by
  rfl

theorem refused_step {fromSlice : Bytes → Option Value} {s : Replication.State} (h : Refused s)
    (action : Replication.Action) (hcheck : ∀ ok, action = .runLocal ok → s.pc = .checkSource →
      ok = false) : Refused (s.step fromSlice action) := by
  obtain ⟨htable, hpc, hqueue, hbroadcasts⟩ := h
  cases action with
  | replicate args =>
    have hidle : (s.table.tasks 0).runner ≠ .running := by
      rw [htable]
      exact nofun
    rw [State.step, if_neg hidle]
    exact ⟨htable, hpc, hqueue, hbroadcasts⟩
  | runner outcome =>
    refine ⟨?_, hpc, hqueue, hbroadcasts⟩
    rw [State.step, htable, runner_init]
  | runLocal ok =>
    rcases hpc with hcheckSource | hdrain | hreturned
    · obtain rfl := hcheck ok rfl hcheckSource
      rw [State.step, State.runLocal, hcheckSource]
      exact ⟨htable, .inr (.inl rfl), hqueue, hbroadcasts⟩
    · rw [State.step, State.runLocal, hdrain]
      dsimp only
      rw [State.drain, hqueue]
      exact ⟨htable, .inr (.inr rfl), rfl, hbroadcasts⟩
    · rw [State.step, State.runLocal, hreturned]
      exact ⟨htable, .inr (.inr hreturned), hqueue, hbroadcasts⟩

/-! The run. -/

/-- `asked` is what the machine accepted, before it was packed; a source that fails its
check has never run. -/
structure Kept (c : Crypto) (fromSlice : Bytes → Option Value) (p : Program)
    (compiles : ι → Bytes → Bool) (w : World ι) : Prop where
  tally : Tally fromSlice w.machine
  accepted : w.machine.accepted = w.asked.map argsCbor
  sized : ∀ args ∈ w.asked, Sized args
  source : p.source.checkSelfSignature c = .ok () ∨ Refused w.machine
  copies : ∀ arrival ∈ w.arrivals, FromCall p compiles w.asked arrival

section Kept

variable {c : Crypto} {fromSlice : Bytes → Option Value} {p : Program}
  {compiles : ι → Bytes → Bool} {w : World ι}

theorem kept_start : Kept c fromSlice p compiles (World.start : World ι) where
  tally := tally_start fromSlice
  accepted := rfl
  sized := nofun
  source := .inr refused_start
  copies := nofun

/-- What was accepted is decoded to what was asked. -/
theorem Kept.decoded (h : Kept c fromSlice p compiles w) (hreads : ReadsTexts fromSlice) :
    w.machine.accepted.map (decodeReplicateArgs fromSlice) = w.asked := by
  have hback : ∀ args ∈ w.asked, (decodeReplicateArgs fromSlice ∘ argsCbor) args = id args :=
    fun args hargs => decodeReplicateArgs_argsCbor hreads (h.sized args hargs)
  rw [h.accepted, List.map_map, List.map_congr_left hback, List.map_id]

/-- A request that was sent is that of the call with its number. -/
theorem Kept.asked_of_broadcast (h : Kept c fromSlice p compiles w)
    (hreads : ReadsTexts fromSlice) {k : ℕ} {args : Arguments}
    (hsent : w.machine.broadcasts[k]? = some args) : w.asked[k]? = some args := by
  obtain ⟨hk, -⟩ := List.getElem?_eq_some_iff.mp hsent
  rw [← h.decoded hreads, h.tally.tally, List.getElem?_append_left hk]
  exact hsent

/-- Where that is kept, it runs as asked when all is sent. -/
theorem Kept.runAsAsked_iff (h : Kept c fromSlice p compiles w) (hreads : ReadsTexts fromSlice) :
    RunAsAsked p compiles w ↔ AllSent fromSlice w.machine := by
  have hdecoded := h.decoded hreads
  constructor
  · intro hrun
    refine ⟨?_, ?_⟩
    · rw [hdecoded]
      exact hrun.inOrder
    · rw [hdecoded]
      exact hrun.all
  · intro hsent
    have hinOrder := hsent.inOrder
    have hall := hsent.all
    rw [hdecoded] at hinOrder hall
    exact ⟨hinOrder, hall, h.copies⟩

/-- A call keeps its number when more are accepted. -/
theorem FromCall.of_longer {asked asked' : List Arguments} {arrival : Arrival ι}
    (h : FromCall p compiles asked arrival) (hlonger : asked <+: asked') :
    FromCall p compiles asked' arrival := by
  obtain ⟨args, hargs, hstarted⟩ := h
  obtain ⟨more, rfl⟩ := hlonger
  obtain ⟨hk, -⟩ := List.getElem?_eq_some_iff.mp hargs
  refine ⟨args, ?_, hstarted⟩
  rw [List.getElem?_append_left hk]
  exact hargs

/-- What a copy of a datagram starts, where the source passes its check. -/
theorem startedBy_datagram (hsource : p.source.checkSelfSignature c = .ok ()) (e : Executor)
    (j : ι) (addr : SocketAddr) (now : UInt64) (k : ℕ) {args : Arguments}
    (hlength : (p.datagram args).length ≤ maxDatagram) (started : Option RunningProgram) :
    startedBy c (compiles j) e (.datagram addr now (WireFormat.fromSlice (p.datagram args))) =
      ranFor p compiles ⟨j, k, e.trustsPubkey p.source.encodedPublicKey, started⟩ args := by
  have hread : WireFormat.fromSlice (p.datagram args) = some (.executeRequest (p.copy args)) := by
    refine ArgsEcho.fromSlice_of_length (Nat.le_trans hlength ?_)
    decide
  rw [hread, ranFor]
  simp only [startedBy]
  exact if_congr (and_iff_right hsource) rfl rfl

variable (fromSlice) in
/-- A machine that has not started its guest starts none for a source that fails its check. -/
theorem refused_machine_step (hsource : p.source.checkSelfSignature c = .ok () ∨ Refused w.machine)
    (action : Replication.Action) (hcheck : ∀ ok, action = .runLocal ok →
      w.machine.pc = .checkSource → ok = true → p.source.checkSelfSignature c = .ok ()) :
    p.source.checkSelfSignature c = .ok () ∨ Refused (w.machine.step fromSlice action) := by
  rcases hsource with hvalid | hrefused
  · exact .inl hvalid
  · by_cases hvalid : p.source.checkSelfSignature c = .ok ()
    · exact .inl hvalid
    · refine .inr (refused_step hrefused action fun ok hrun hpc => ?_)
      exact Bool.eq_false_iff.mpr fun hok => hvalid (hcheck ok hrun hpc hok)

variable [DecidableEq ι]

/-- The machine takes the step of an action or none. -/
theorem machine_step (w : World ι) (action : Action ι) :
    (w.step c fromSlice p compiles action).machine =
      action.onMachine.elim w.machine fun a => w.machine.step fromSlice a := by
  cases action with
  | arrive j addr now k =>
    rw [World.step]
    split
    · rfl
    · split_ifs <;> rfl
  | _ => rfl

/-- A call that is accepted is kept in both forms. -/
theorem kept_call (h : Kept c fromSlice p compiles w) {args : Arguments} (hsized : Sized args) :
    Kept c fromSlice p compiles (w.step c fromSlice p compiles (.call args)) := by
  have hmachine : (w.step c fromSlice p compiles (.call args)).machine =
      w.machine.step fromSlice (.replicate (argsCbor args)) := rfl
  have hasked : (w.step c fromSlice p compiles (.call args)).asked =
      if w.accepts fromSlice args then w.asked ++ [args] else w.asked := rfl
  refine ⟨?_, ?_, ?_, ?_, ?_⟩
  · rw [hmachine]
    exact tally_step _ _ h.tally
  · rw [hmachine, replicate_accepted, hasked, h.accepted]
    by_cases haccepts : w.accepts fromSlice args
    · rw [if_pos haccepts, if_pos haccepts, List.map_append, List.map_singleton]
    · rw [if_neg haccepts, if_neg haccepts]
  · rw [hasked]
    split_ifs
    · intro args' hmem
      rcases List.mem_append.mp hmem with hbefore | hnew
      · exact h.sized args' hbefore
      · obtain rfl := List.mem_singleton.mp hnew
        exact hsized
    · exact h.sized
  · exact refused_machine_step fromSlice h.source (.replicate (argsCbor args)) nofun
  · intro arrival harrival
    refine (h.copies arrival harrival).of_longer ?_
    rw [hasked]
    split_ifs
    · exact List.prefix_append _ _
    · exact List.prefix_refl _

/-- A copy is of a request that was sent, so of a call, and its source passed its check. -/
theorem kept_arrive (hreads : ReadsTexts fromSlice) (h : Kept c fromSlice p compiles w) (j : ι)
    (addr : SocketAddr) (now : UInt64) (k : ℕ) :
    Kept c fromSlice p compiles (w.step c fromSlice p compiles (.arrive j addr now k)) := by
  obtain ⟨htally, haccepted, hsized, hsource, hcopies⟩ := id h
  rw [World.step]
  split
  · exact h
  · next args hsent =>
    split_ifs with hlength
    · refine ⟨htally, haccepted, hsized, hsource, ?_⟩
      intro arrival harrival
      rcases List.mem_append.mp harrival with hbefore | hnew
      · exact hcopies arrival hbefore
      · obtain rfl := List.mem_singleton.mp hnew
        have hvalid : p.source.checkSelfSignature c = .ok () := by
          rcases hsource with hvalid | hrefused
          · exact hvalid
          · rw [hrefused.broadcasts] at hsent
            exact absurd hsent nofun
        exact ⟨args, h.asked_of_broadcast hreads hsent,
          startedBy_datagram hvalid (w.node j) j addr now k hlength _⟩
    · exact h

/-- Step lemma. -/
theorem kept_step (hreads : ReadsTexts fromSlice) (w : World ι) (action : Action ι)
    (hpossible : Possible c p w action) (h : Kept c fromSlice p compiles w) :
    Kept c fromSlice p compiles (w.step c fromSlice p compiles action) := by
  cases action with
  | call args => exact kept_call h hpossible
  | runner outcome =>
    exact ⟨tally_step w.machine (.runner outcome) h.tally, h.accepted, h.sized,
      refused_machine_step fromSlice h.source (.runner outcome) nofun, h.copies⟩
  | runLocal ok =>
    refine ⟨tally_step w.machine (.runLocal ok) h.tally, ?_, h.sized,
      refused_machine_step fromSlice h.source (.runLocal ok) ?_, h.copies⟩
    · exact (runLocal_accepted w.machine ok).trans h.accepted
    · intro ok' hrun hpc hok
      obtain rfl := Replication.Action.runLocal.inj hrun
      exact (hpossible hpc).mp hok
  | arrive j addr now k => exact kept_arrive hreads h j addr now k
  | event j event => exact ⟨h.tally, h.accepted, h.sized, h.source, h.copies⟩

/-- Step lemma. -/
theorem runAsAsked_step_iff (hreads : ReadsTexts fromSlice) (w : World ι) (action : Action ι)
    (hpossible : Possible c p w action) (h : Kept c fromSlice p compiles w)
    (hrun : RunAsAsked p compiles w) :
    RunAsAsked p compiles (w.step c fromSlice p compiles action) ↔ NothingLeft w action := by
  have hsent := (h.runAsAsked_iff hreads).mp hrun
  rw [(kept_step hreads w action hpossible h).runAsAsked_iff hreads, machine_step, NothingLeft]
  cases action.onMachine with
  | none => exact iff_of_true hsent nofun
  | some a =>
    rw [Option.elim_some, allSent_step_iff w.machine a h.tally hsent]
    exact ⟨fun hleaves b hb => Option.some.inj hb ▸ hleaves, fun hleaves => hleaves a rfl⟩

end Kept

/-- In every run of a program and of the fabric, the calls of `host::replicate` that
returned 0 run as they were asked, in every state, exactly when the wait of `run_local`
leaves nothing queued. -/
theorem replications_run_iff [DecidableEq ι] (c : Crypto) (fromSlice : Bytes → Option Value)
    (hreads : ReadsTexts fromSlice) (p : Program) (compiles : ι → Bytes → Bool)
    (actions : List (Action ι))
    (hpossible : EachStep (World.step c fromSlice p compiles) (Possible c p) World.start actions) :
    EveryState (World.step c fromSlice p compiles) (RunAsAsked p compiles) World.start actions ↔
      EachStep (World.step c fromSlice p compiles) NothingLeft World.start actions := by
  have hstart : RunAsAsked p compiles (World.start : World ι) :=
    ⟨List.prefix_refl _, fun _ => rfl, nofun⟩
  exact everyState_iff_eachStep _ (kept_step hreads) (runAsAsked_step_iff hreads) hpossible
    kept_start hstart


/-! An example. -/

def ofText : Cbor.Value → Value
  | .text s => .text s
  | .bytes b => .bytes b
  | .integer i => .integer i
  | _ => .other

def ofTexts : Cbor.Value → Value
  | .array items => .array (items.map ofText)
  | v => ofText v

/-- `serde_cbor::from_slice` for maps of texts. -/
def readTexts (bytes : Bytes) : Option Value :=
  match Cbor.decode 3 bytes with
  | some (.map entries) => some (.map (entries.map fun kv => (ofText kv.1, ofTexts kv.2)))
  | _ => none

theorem readsTexts_readTexts : ReadsTexts readTexts := by
  intro m _ hserializable
  rw [readTexts, Cbor.decode_encode 3 _ hserializable, textsMap]
  simp [ofText, ofTexts, Function.comp_def]

def hello : Program := ⟨idealIdentity "alice" aliceKey 1760000000, "hello.wasm", [0]⟩

def deliver : Arguments := (["deliver"], [("name", "bob")])

/-- It asks to be replicated and returns before the wait looks; the two nodes get a copy,
and the second cannot compile it. -/
def delivered : List (Action (Fin 2)) :=
  [.runLocal true, .runLocal true, .call deliver, .runLocal true, .runLocal true,
    .runner .returned, .runner .returned, .runner .returned, .runLocal true, .runLocal true,
    .runLocal true, .runLocal true, .arrive 0 (.v4 1 2240) 1 0, .arrive 1 (.v4 1 2240) 2 0,
    .runLocal true]

/-- It asks to be replicated and traps. -/
def dropped : List (Action (Fin 2)) :=
  [.runLocal true, .runLocal true, .call deliver, .runLocal true, .runLocal true,
    .runner .callFailed, .runner .callFailed, .runLocal true, .runLocal true, .runLocal true,
    .runLocal true]

def firstCompiles (j : Fin 2) (_ : Bytes) : Bool := j == 0

def ideal : Crypto := idealCrypto (aliceIssued [1])

def fabricStep : World (Fin 2) → Action (Fin 2) → World (Fin 2) :=
  World.step ideal readTexts hello firstCompiles

/-- Its source passes the check, and it calls with one set of arguments. -/
def Calm (w : World (Fin 2)) : Action (Fin 2) → Prop
  | .call args => args = deliver
  | .runLocal ok => w.machine.pc = .checkSource → ok = true
  | _ => True

instance (w : World (Fin 2)) (action : Action (Fin 2)) : Decidable (Calm w action) := by
  cases action <;> unfold Calm <;> infer_instance

theorem sized_deliver : Sized deliver := by
  have hlengths : (utf8 "deliver").length < 2 ^ 64 ∧ (utf8 "name").length < 2 ^ 64 ∧
      (utf8 "bob").length < 2 ^ 64 := by decide
  simpa [Sized, textsMap, packed, deliver, Cbor.Serializable] using hlengths

theorem possible_of_calm (w : World (Fin 2)) (action : Action (Fin 2)) (h : Calm w action) :
    Possible ideal hello w action := by
  have hvalid : hello.source.checkSelfSignature ideal = .ok () := by decide
  cases action with
  | call args =>
    obtain rfl : args = deliver := h
    exact sized_deliver
  | runLocal ok => exact fun hpc => iff_of_true (h hpc) hvalid
  | _ => trivial

/-- The wait looks neither for the PID nor for its error. -/
def Elsewhere (w : World (Fin 2)) (_ : Action (Fin 2)) : Prop :=
  (w.machine.table.waiters 0).pc ∈
    [PidTable.WaitPc.idle, .enlist, .containsKey, .readCode, .returned (.ok 0)]

instance (w : World (Fin 2)) (action : Action (Fin 2)) : Decidable (Elsewhere w action) :=
  inferInstanceAs (Decidable (_ ∈ _))

theorem nothingLeft_of_elsewhere (w : World (Fin 2)) (action : Action (Fin 2))
    (h : Elsewhere w action) : NothingLeft w action := by
  intro a _
  rw [Elsewhere] at h
  cases a with
  | runLocal ok =>
    intro _ hend
    rcases hend with ⟨t, hpc, -⟩ | ⟨⟨hpc, -⟩ | ⟨t, hpc, -⟩, -⟩ <;> simp [hpc] at h
  | _ => trivial

theorem replications_run_deliver :
    EveryState fabricStep (RunAsAsked hello firstCompiles) World.start delivered ∧
      (delivered.foldl fabricStep World.start).arrivals.map (·.started.isSome) = [true, false] ∧
      ¬ EachStep fabricStep NothingLeft World.start dropped := by
  have hdelivered : EachStep fabricStep Calm World.start delivered := by decide +kernel
  have hdropped : EachStep fabricStep Calm World.start dropped := by decide +kernel
  have helsewhere : EachStep fabricStep Elsewhere World.start delivered := by decide +kernel
  refine ⟨?_, by decide +kernel, ?_⟩
  · exact (replications_run_iff ideal readTexts readsTexts_readTexts hello firstCompiles delivered
      (hdelivered.imp possible_of_calm)).mpr (helsewhere.imp nothingLeft_of_elsewhere)
  · intro hleaves
    have hruns := (replications_run_iff ideal readTexts readsTexts_readTexts hello firstCompiles
      dropped (hdropped.imp possible_of_calm)).mpr hleaves
    have hlast := congrArg List.length (hruns.last.all (.inl (by decide +kernel)))
    exact absurd hlast (by decide +kernel)

end Weverywhere.ReplicatedCopies
