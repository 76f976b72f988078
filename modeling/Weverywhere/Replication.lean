import Weverywhere.NetworkMap
import Weverywhere.PidTable

/-!
What becomes of the requests a batch program makes with `host::replicate`
(`src/src/executor/mod.rs`, `src/src/command/run_local.rs`). They are queued while it
runs, and `run_local` sends them once its wait is over. A wait that ends with the
program's error ends `run_local` too, and what is queued is dropped.
-/
namespace Weverywhere.Replication

open ByteStrings NetworkMap PidTable Runs

/-! The request. -/

/-- `serde_cbor::Value`; the kinds a request has no use for are one. -/
inductive Value
  | integer (i : ℤ)
  | bytes (b : Bytes)
  | text (s : String)
  | array (items : List Value)
  | map (entries : List (Value × Value))
  | other

/-- The entry of a map under an integer. -/
def getInteger (key : ℤ) : List (Value × Value) → Option Value
  | [] => none
  | (.integer i, value) :: rest => if i = key then some value else getInteger key rest
  | _ :: rest => getInteger key rest

def asText : Value → String
  | .text s => s
  | .bytes b => fromUtf8Lossy b
  | _ => ""

def asTexts : Option Value → List String
  | some (.array items) => items.map asText
  | _ => []

/-- `chunks(2)` without a last chunk of one. -/
def pairs : List String → List (String × String)
  | key :: value :: rest => (key, value) :: pairs rest
  | _ => []

/-- `arg_list` and `arg_map`. -/
abbrev Arguments := List String × List (String × String)

variable (fromSlice : Bytes → Option Value)

def decodeReplicateArgs (bytes : Bytes) : Arguments :=
  match fromSlice bytes with
  | some (.map m) => (asTexts (getInteger 1 m), pairs (asTexts (getInteger 2 m)))
  | _ => ([], [])

inductive ReplicateScope
  | fabric

structure ReplicateRequest where
  scope : ReplicateScope
  argList : List String
  argMap : List (String × String)

/-- The request for a call; every scope is the fabric. -/
def request (args : Bytes) : ReplicateRequest :=
  let (argList, argMap) := decodeReplicateArgs fromSlice args
  ⟨.fabric, argList, argMap⟩

/-! The run. -/

/-- Where `run_local` is: `begin_exec` checks the source and then creates the PID. -/
inductive LocalPc
  | checkSource
  | createPid
  | wait
  | drain
  | returned
  deriving DecidableEq

/-- The program is the first of its executor and `run_local` its first waiter. `accepted`
has the arguments of the calls that returned 0, `broadcasts` those of the calls of
`broadcast_program_to_fabric`. -/
structure State where
  table : PidTable.State
  pc : LocalPc
  queue : List ReplicateRequest
  accepted : List Bytes
  broadcasts : List Arguments

def start : State := ⟨PidTable.init, .checkSource, [], [], []⟩

inductive Action
  | replicate (args : Bytes)
  | runner (outcome : Outcome)
  | runLocal (ok : Bool)

namespace State

/-- `host::replicate` for arguments it could read. The receiver goes away with
`run_local`. -/
def replicate (s : State) (args : Bytes) : State × Int32 :=
  if s.pc = .returned then (s, -1)
  else
    ({ s with queue := s.queue ++ [request fromSlice args], accepted := s.accepted ++ [args] }, 0)

/-- The next operation of `wait_for_pid_exit(running_pid).await?`. -/
def wait (s : State) : State :=
  let table := s.table.waiter 0
  match (table.waiters 0).pc with
  | .returned (.ok _) => { s with table, pc := .drain }
  | .returned .err => { s with table, pc := .returned }
  | _ => { s with table }

/-- One turn of `while let Ok(req) = replicate_rx.try_recv()`. -/
def drain (s : State) : State :=
  match s.queue with
  | [] => { s with pc := .returned }
  | req :: rest =>
    match req.scope with
    | .fabric => { s with queue := rest, broadcasts := s.broadcasts ++ [(req.argList, req.argMap)] }

/-- The rest of `begin_exec`, and the call of `wait_for_pid_exit` when it returns a PID. -/
def createPid (s : State) (ok : Bool) : State :=
  let table := s.table.creator 0 ok
  match (table.tasks 0).create with
  | .returned => { s with table := table.waitForPidExit 0 (pidOf 0), pc := .wait }
  | .failed => { s with table, pc := .drain }
  | _ => { s with table }

/-- The next operation of `run_local`; `ok` is whether a check of `begin_exec` is passed. -/
def runLocal (s : State) (ok : Bool) : State :=
  match s.pc with
  | .checkSource =>
    if ok then { s with table := s.table.createPid, pc := .createPid } else { s with pc := .drain }
  | .createPid => s.createPid ok
  | .wait => s.wait
  | .drain => s.drain
  | .returned => s

/-- The guest calls out while its runner runs it. -/
def step (s : State) : Action → State
  | .replicate args =>
      if (s.table.tasks 0).runner = .running then (s.replicate fromSlice args).1 else s
  | .runner outcome => { s with table := s.table.runner 0 outcome }
  | .runLocal ok => s.runLocal ok

end State

/-- The runner has finished and its notification has not reached the wait, which is parked:
nobody has a step left. -/
structure Stuck (s : State) : Prop where
  pc : s.pc = .wait
  parked : (s.table.waiters 0).pc = .parked
  notified : (s.table.waiters 0).notified = false
  runner : ∃ o, (s.table.tasks 0).runner = .done o

/-- Calls of `broadcast_program_to_fabric` are made for the accepted calls, one for each
in their order, and for all of them by the time `run_local` returns or can go no further. -/
structure AllSent (s : State) : Prop where
  inOrder : s.broadcasts <+: s.accepted.map (decodeReplicateArgs fromSlice)
  all : s.pc = .returned ∨ Stuck s → s.broadcasts = s.accepted.map (decodeReplicateArgs fromSlice)

/-- The wait is about to take the program's error. -/
def TakesError (table : PidTable.State) : Prop :=
  ∃ t, (table.waiters 0).pc = .takeError t ∧ (table.tasks t).spawnError = true

/-- The wait is about to park. -/
def Parks (table : PidTable.State) : Prop :=
  (table.waiters 0).pc = .get ∧ table.running (table.waiters 0).pid = none ∨
    ∃ t, (table.waiters 0).pc = .takeError t ∧ (table.tasks t).spawnError = false

/-- The wait is about to park, and nobody will wake it. -/
def ParksForGood (table : PidTable.State) : Prop :=
  Parks table ∧ (table.waiters 0).notified = false ∧ ∃ o, (table.tasks 0).runner = .done o

/-- The wait of `run_local` neither takes the program's error nor parks for good while
anything is queued. -/
def LeavesNothingQueued (s : State) : Action → Prop
  | .runLocal _ => s.pc = .wait → TakesError s.table ∨ ParksForGood s.table → s.queue = []
  | _ => True

/-! What the operations of the table do to the waiter of `run_local`. -/

variable {table : PidTable.State}

theorem runner_waiter_pc (table : PidTable.State) (outcome : Outcome) :
    ((table.runner 0 outcome).waiters 0).pc = (table.waiters 0).pc := by
  rcases runner_cases table 0 outcome with hsame | hmove
  · rw [hsame]
  · generalize table.runner 0 outcome = table' at hmove
    cases hmove <;> rfl

/-- A runner that is done has notified everybody. -/
theorem runner_done {outcome : Outcome}
    (hdone : ∃ o, ((table.runner 0 outcome).tasks 0).runner = .done o)
    (hmissed : ((table.runner 0 outcome).waiters 0).notified = false) :
    table.runner 0 outcome = table := by
  rcases runner_cases table 0 outcome with hsame | hmove
  · exact hsame
  · obtain ⟨o, hdone⟩ := hdone
    generalize table.runner 0 outcome = table' at hmove hdone hmissed
    cases hmove with
    | notify t o o' h => simp at hmissed
    | run t o h => simp at hdone; split_ifs at hdone
    | _ => simp at hdone

theorem creator_waiters (table : PidTable.State) (ok : Bool) (w : ℕ) :
    (table.creator 0 ok).waiters w = table.waiters w := by
  rcases creator_cases table 0 ok with hsame | hmove
  · rw [hsame]
  · generalize table.creator 0 ok = table' at hmove
    cases hmove <;> rfl

/-- A call of `wait_for_pid_exit` starts by enlisting. -/
theorem waitForPidExit_pc (h : (table.waiters 0).pc = .idle) :
    ((table.waitForPidExit 0 (pidOf 0)).waiters 0).pc = .enlist := by
  simp [PidTable.State.waitForPidExit, h]

theorem waiter_tasks_runner (table : PidTable.State) :
    ((table.waiter 0).tasks 0).runner = (table.tasks 0).runner := by
  rcases waiter_cases table 0 with hsame | hmove
  · rw [hsame]
  · generalize table.waiter 0 = table' at hmove
    cases hmove with
    | takeError w t h herror =>
      by_cases ht : 0 = t
      · simp [ht]
      · simp [ht]
    | _ => rfl

/-- It returns the error it takes. -/
theorem waiter_err_iff (hwaiting : ∀ result, (table.waiters 0).pc ≠ .returned result) :
    ((table.waiter 0).waiters 0).pc = .returned .err ↔ TakesError table := by
  constructor
  · intro herr
    rcases waiter_cases table 0 with hsame | hmove
    · rw [hsame] at herr
      exact absurd herr (hwaiting .err)
    · generalize table.waiter 0 = table' at hmove herr
      cases hmove with
      | takeError w t hpc herror => exact ⟨t, hpc, herror⟩
      | _ => simp at herr
  · intro htakes
    obtain ⟨t, hpc, herror⟩ := htakes
    simp [PidTable.State.waiter, hpc, herror]

/-- It is parked unnoticed when it parks so, or when it was and stays so. -/
theorem waiter_parked_iff :
    (((table.waiter 0).waiters 0).pc = .parked ∧ ((table.waiter 0).waiters 0).notified = false) ↔
      (Parks table ∨ (table.waiters 0).pc = .parked) ∧ (table.waiters 0).notified = false := by
  constructor
  · intro h
    rcases waiter_cases table 0 with hsame | hmove
    · rw [hsame] at h
      exact ⟨.inr h.1, h.2⟩
    · generalize table.waiter 0 = table' at hmove h
      cases hmove with
      | gone w hpc hrunning => exact ⟨.inl (.inl ⟨hpc, hrunning⟩), by simpa using h⟩
      | noError w t hpc herror => exact ⟨.inl (.inr ⟨t, hpc, herror⟩), by simpa using h⟩
      | _ => simp at h
  · intro h
    obtain ⟨(⟨hpc, hrunning⟩ | ⟨t, hpc, herror⟩) | hpc, hmissed⟩ := h
    · simp [PidTable.State.waiter, hpc, hrunning, hmissed]
    · simp [PidTable.State.waiter, hpc, herror, hmissed]
    · simp [PidTable.State.waiter, hpc, hmissed]

/-! The invariant. -/

def ReplicateRequest.arguments (req : ReplicateRequest) : Arguments := (req.argList, req.argMap)

/-- What was accepted has been sent or is queued. -/
structure Tally (s : State) : Prop where
  tally : s.accepted.map (decodeReplicateArgs fromSlice) =
    s.broadcasts ++ s.queue.map ReplicateRequest.arguments
  idle : s.pc = .checkSource ∨ s.pc = .createPid → (s.table.waiters 0).pc = .idle
  waiting : s.pc = .wait → ∀ result, (s.table.waiters 0).pc ≠ .returned result

theorem tally_start : Tally fromSlice start := ⟨rfl, fun _ => rfl, nofun⟩

variable {fromSlice} {s : State}

theorem tally_replicate (h : Tally fromSlice s) (args : Bytes) :
    Tally fromSlice (s.replicate fromSlice args).1 := by
  rw [State.replicate]
  split_ifs with hreturned
  · exact h
  · refine ⟨?_, h.idle, h.waiting⟩
    show (s.accepted ++ [args]).map _ = s.broadcasts ++ (s.queue ++ [request fromSlice args]).map _
    rw [List.map_append, h.tally, List.map_append, List.append_assoc]
    rfl

/-- What a turn of the wait comes to: a report is drained after, an error ends `run_local`,
and anything else leaves it waiting. -/
theorem wait_cases (s : State) :
    ((∃ code, ((s.table.waiter 0).waiters 0).pc = .returned (.ok code)) ∧
        s.wait = { s with table := s.table.waiter 0, pc := .drain }) ∨
      (((s.table.waiter 0).waiters 0).pc = .returned .err ∧
        s.wait = { s with table := s.table.waiter 0, pc := .returned }) ∨
      ((∀ result, ((s.table.waiter 0).waiters 0).pc ≠ .returned result) ∧
        s.wait = { s with table := s.table.waiter 0 }) := by
  unfold State.wait
  cases hpc : ((s.table.waiter 0).waiters 0).pc with
  | returned result =>
    cases result with
    | ok code =>
      refine .inl ⟨⟨code, rfl⟩, ?_⟩
      dsimp only
      rw [hpc]
    | err =>
      refine .inr (.inl ⟨rfl, ?_⟩)
      dsimp only
      rw [hpc]
  | _ =>
    refine .inr (.inr ⟨fun result => nofun, ?_⟩)
    dsimp only
    rw [hpc]

theorem tally_wait (h : Tally fromSlice s) (hpc : s.pc = .wait) : Tally fromSlice s.wait := by
  have htally := h.tally
  rcases wait_cases s with ⟨-, hwait⟩ | ⟨-, hwait⟩ | ⟨hwaiting, hwait⟩
  · rw [hwait]
    exact ⟨htally, nofun, nofun⟩
  · rw [hwait]
    exact ⟨htally, nofun, nofun⟩
  · rw [hwait]
    exact ⟨htally, fun hearly => absurd hearly (by rw [hpc]; exact nofun), fun _ => hwaiting⟩

theorem tally_drain (h : Tally fromSlice s) : Tally fromSlice s.drain := by
  have htally := h.tally
  have hidle := h.idle
  have hwaiting := h.waiting
  rw [State.drain]
  split
  · exact ⟨htally, nofun, nofun⟩
  · next req rest hqueue =>
    refine ⟨?_, hidle, hwaiting⟩
    rw [hqueue] at htally
    show s.accepted.map _ = (s.broadcasts ++ [req.arguments]) ++ _
    rw [htally, List.map_cons, List.append_assoc, List.singleton_append]

theorem tally_createPid (h : Tally fromSlice s) (hpc : s.pc = .createPid) (ok : Bool) :
    Tally fromSlice (s.createPid ok) := by
  have htally := h.tally
  have hidle : ((s.table.creator 0 ok).waiters 0).pc = .idle := by
    rw [creator_waiters]
    exact h.idle (.inr hpc)
  rw [State.createPid]
  split
  · refine ⟨htally, nofun, ?_⟩
    intro _ result
    rw [waitForPidExit_pc hidle]
    exact nofun
  · exact ⟨htally, nofun, nofun⟩
  · exact ⟨htally, fun _ => hidle, fun hwait => absurd (hpc.symm.trans hwait) nofun⟩

/-- Step lemma. -/
theorem tally_step (s : State) (action : Action) (h : Tally fromSlice s) :
    Tally fromSlice (s.step fromSlice action) := by
  cases action with
  | replicate args =>
    rw [State.step]
    split_ifs
    · exact tally_replicate h args
    · exact h
  | runner outcome =>
    refine ⟨h.tally, ?_, ?_⟩
    · intro hpc
      rw [State.step, runner_waiter_pc]
      exact h.idle hpc
    · intro hpc result
      rw [State.step, runner_waiter_pc]
      exact h.waiting hpc result
  | runLocal ok =>
    rw [State.step, State.runLocal]
    cases hpc : s.pc with
    | checkSource =>
      dsimp only
      split_ifs
      · exact ⟨h.tally, fun _ => h.idle (.inl hpc), nofun⟩
      · exact ⟨h.tally, nofun, nofun⟩
    | createPid => exact tally_createPid h hpc ok
    | wait => exact tally_wait h hpc
    | drain => exact tally_drain h
    | returned => exact h

/-- Where the tally is kept, only an end with something queued loses it. -/
theorem allSent_iff (h : Tally fromSlice s) :
    AllSent fromSlice s ↔ (s.pc = .returned ∨ Stuck s → s.queue = []) := by
  constructor
  · intro hsent hend
    have hall := hsent.all hend
    rw [h.tally, List.self_eq_append_right, List.map_eq_nil_iff] at hall
    exact hall
  · intro hempty
    refine ⟨?_, ?_⟩
    · rw [h.tally]
      exact List.prefix_append _ _
    · intro hend
      rw [h.tally, hempty hend, List.map_nil, List.append_nil]

theorem wait_queue (s : State) : s.wait.queue = s.queue := by
  rcases wait_cases s with ⟨-, hwait⟩ | ⟨-, hwait⟩ | ⟨-, hwait⟩ <;> rw [hwait]

theorem wait_table (s : State) : s.wait.table = s.table.waiter 0 := by
  rcases wait_cases s with ⟨-, hwait⟩ | ⟨-, hwait⟩ | ⟨-, hwait⟩ <;> rw [hwait]

theorem wait_returned_iff (h : Tally fromSlice s) (hpc : s.pc = .wait) :
    s.wait.pc = .returned ↔ TakesError s.table := by
  rw [← waiter_err_iff (h.waiting hpc)]
  rcases wait_cases s with ⟨⟨code, hok⟩, hwait⟩ | ⟨herr, hwait⟩ | ⟨hwaiting, hwait⟩
  · rw [hwait, hok]
    exact iff_of_false nofun nofun
  · rw [hwait]
    exact iff_of_true rfl herr
  · rw [hwait]
    exact iff_of_false (fun hreturned => absurd (hpc.symm.trans hreturned) nofun) (hwaiting .err)

theorem wait_stuck_iff (hpc : s.pc = .wait) :
    Stuck s.wait ↔ ParksForGood s.table ∨ Stuck s := by
  have hparked := @waiter_parked_iff s.table
  have hrunner := waiter_tasks_runner s.table
  have hstays : ((s.table.waiter 0).waiters 0).pc = .parked → s.wait.pc = .wait := by
    intro hpark
    rw [State.wait, hpark]
    exact hpc
  constructor
  · intro hstuck
    obtain ⟨-, hpark, hmissed, hdone⟩ := hstuck
    rw [wait_table] at hpark hmissed hdone
    rw [hrunner] at hdone
    obtain ⟨hparks | hbefore, hmissed'⟩ := hparked.mp ⟨hpark, hmissed⟩
    · exact .inl ⟨hparks, hmissed', hdone⟩
    · exact .inr ⟨hpc, hbefore, hmissed', hdone⟩
  · intro hparks
    have hbefore : (Parks s.table ∨ (s.table.waiters 0).pc = .parked) ∧
        (s.table.waiters 0).notified = false ∧ ∃ o, (s.table.tasks 0).runner = .done o := by
      rcases hparks with ⟨hparks, hmissed, hdone⟩ | ⟨-, hbefore, hmissed, hdone⟩
      · exact ⟨.inl hparks, hmissed, hdone⟩
      · exact ⟨.inr hbefore, hmissed, hdone⟩
    obtain ⟨hpark, hmissed⟩ := hparked.mpr ⟨hbefore.1, hbefore.2.1⟩
    refine ⟨hstays hpark, ?_, ?_, ?_⟩
    · rw [wait_table]
      exact hpark
    · rw [wait_table]
      exact hmissed
    · rw [wait_table, hrunner]
      exact hbefore.2.2

/-- The wait ends, or is stuck, when it takes the error or parks for good. -/
theorem end_wait_iff (h : Tally fromSlice s) (hpc : s.pc = .wait)
    (hsent : Stuck s → s.queue = []) :
    (s.wait.pc = .returned ∨ Stuck s.wait → s.wait.queue = []) ↔
      (TakesError s.table ∨ ParksForGood s.table → s.queue = []) := by
  rw [wait_queue, wait_returned_iff h hpc, wait_stuck_iff hpc]
  constructor
  · intro hempty hend
    exact hempty (hend.imp_right .inl)
  · intro hempty hend
    rcases hend with herror | hparks | hstuck
    · exact hempty (.inl herror)
    · exact hempty (.inr hparks)
    · exact hsent hstuck

theorem not_ended (hreturned : s.pc ≠ .returned) (hwait : s.pc ≠ .wait) :
    ¬ (s.pc = .returned ∨ Stuck s) := by
  intro hend
  rcases hend with hpc | hstuck
  · exact hreturned hpc
  · exact hwait hstuck.pc

theorem drain_empty (hpc : s.pc = .drain) (hend : s.drain.pc = .returned ∨ Stuck s.drain) :
    s.drain.queue = [] := by
  rw [State.drain] at hend ⊢
  split at hend
  · assumption
  · exact absurd hend (not_ended (by simp [hpc]) (by simp [hpc]))

theorem checkSource_not_ended (hpc : s.pc = .checkSource) (ok : Bool) :
    ¬ ((s.runLocal ok).pc = .returned ∨ Stuck (s.runLocal ok)) := by
  rw [State.runLocal, hpc]
  cases ok with
  | true => exact not_ended (by simp) (by simp)
  | false => exact not_ended (by simp) (by simp)

theorem createPid_not_ended (h : Tally fromSlice s) (hpc : s.pc = .createPid) (ok : Bool) :
    ¬ ((s.createPid ok).pc = .returned ∨ Stuck (s.createPid ok)) := by
  have hidle : ((s.table.creator 0 ok).waiters 0).pc = .idle := by
    rw [creator_waiters]
    exact h.idle (.inr hpc)
  intro hend
  rw [State.createPid] at hend
  split at hend
  · rcases hend with hreturned | hstuck
    · exact absurd hreturned nofun
    · exact absurd ((waitForPidExit_pc hidle).symm.trans hstuck.parked) nofun
  · exact not_ended (by simp) (by simp) hend
  · exact not_ended (by simp [hpc]) (by simp [hpc]) hend

/-- The runner's last step wakes whoever is parked. -/
theorem stuck_of_runner {outcome : Outcome}
    (hstuck : Stuck { s with table := s.table.runner 0 outcome }) : Stuck s := by
  have hsame := runner_done hstuck.runner hstuck.notified
  obtain ⟨hpc, hparked, hmissed, hdone⟩ := hstuck
  dsimp only at hparked hmissed hdone
  rw [hsame] at hparked hmissed hdone
  exact ⟨hpc, hparked, hmissed, hdone⟩

/-- A program that calls is still running, so nobody is stuck. -/
theorem sent_replicate (hsent : s.pc = .returned ∨ Stuck s → s.queue = []) (args : Bytes) :
    (s.step fromSlice (.replicate args)).pc = .returned ∨
      Stuck (s.step fromSlice (.replicate args)) →
        (s.step fromSlice (.replicate args)).queue = [] := by
  intro hend
  rw [State.step] at hend ⊢
  split_ifs at hend ⊢ with hrunning
  · rw [State.replicate] at hend ⊢
    split_ifs at hend ⊢ with hreturned
    · exact hsent (.inl hreturned)
    · rcases hend with hend | hstuck
      · exact absurd hend hreturned
      · obtain ⟨o, hdone⟩ := hstuck.runner
        exact absurd (hrunning.symm.trans hdone) nofun
  · exact hsent hend

/-- Step lemma: all stays sent exactly when the wait leaves nothing queued. -/
theorem allSent_step_iff (s : State) (action : Action) (h : Tally fromSlice s)
    (hsent : AllSent fromSlice s) :
    AllSent fromSlice (s.step fromSlice action) ↔ LeavesNothingQueued s action := by
  rw [allSent_iff (tally_step s action h)]
  rw [allSent_iff h] at hsent
  cases action with
  | replicate args => exact iff_of_true (sent_replicate hsent args) trivial
  | runner outcome =>
    refine iff_of_true ?_ trivial
    intro hend
    exact hsent (hend.imp_right stuck_of_runner)
  | runLocal ok =>
    rw [State.step, LeavesNothingQueued]
    cases hpc : s.pc with
    | wait =>
      rw [State.runLocal, hpc]
      dsimp only
      rw [end_wait_iff h hpc fun hstuck => hsent (.inr hstuck)]
      exact ⟨fun hempty _ => hempty, fun hempty => hempty rfl⟩
    | checkSource =>
      exact iff_of_true (fun hend => absurd hend (checkSource_not_ended hpc ok)) nofun
    | createPid =>
      rw [State.runLocal, hpc]
      exact iff_of_true (fun hend => absurd hend (createPid_not_ended h hpc ok)) nofun
    | drain =>
      rw [State.runLocal, hpc]
      exact iff_of_true (drain_empty hpc) nofun
    | returned =>
      rw [State.runLocal, hpc]
      exact iff_of_true hsent nofun

/-- In every run of a program, however it ends and in whatever order the processes take
their steps, the calls that returned 0 are sent in every state exactly when the wait
leaves nothing queued. -/
theorem queued_replications_sent_iff (fromSlice : Bytes → Option Value) (actions : List Action) :
    EveryState (State.step fromSlice) (AllSent fromSlice) start actions ↔
      EachStep (State.step fromSlice) LeavesNothingQueued start actions := by
  have hstart : AllSent fromSlice start := by
    rw [allSent_iff (tally_start fromSlice)]
    exact fun _ => rfl
  exact everyState_iff_eachStep_of_inv _ tally_step allSent_step_iff (tally_start fromSlice) hstart
    actions

/-- Stuck is for good. -/
theorem stuck_step (h : Stuck s) (action : Action) : s.step fromSlice action = s := by
  obtain ⟨hpc, hparked, hmissed, o, hdone⟩ := h
  cases action with
  | replicate args => simp [State.step, hdone]
  | runner outcome => simp [State.step, PidTable.State.runner, hdone]
  | runLocal ok =>
    have htable : s.table.waiter 0 = s.table := by
      simp [PidTable.State.waiter, hparked, hmissed]
    rw [State.step, State.runLocal, hpc]
    dsimp only
    rw [State.wait, htable, hparked]

/-- Once the wait is over, `run_local` returns in as many turns as it has to send. -/
theorem drain_returns (hpc : s.pc = .drain) :
    (State.drain^[s.queue.length + 1] s).pc = .returned := by
  generalize hqueue : s.queue = queue
  induction queue generalizing s with
  | nil =>
    rw [List.length_nil, Function.iterate_one, State.drain, hqueue]
  | cons req rest ih =>
    have hdrain : s.drain =
        { s with queue := rest, broadcasts := s.broadcasts ++ [(req.argList, req.argMap)] } := by
      rw [State.drain, hqueue]
    rw [List.length_cons, Function.iterate_succ_apply, hdrain]
    exact ih hpc rfl

/-- `serde_cbor::from_slice` on an empty map. -/
def emptyMap (bytes : Bytes) : Option Value := if bytes = [0xA0] then some (.map []) else none

/-- The guest asks to be replicated and traps; the wait finds its PID and its error. -/
def trapped : List Action :=
  [.runLocal true, .runLocal true, .replicate [0xA0], .runLocal true, .runLocal true,
    .runner .callFailed, .runner .callFailed, .runLocal true, .runLocal true, .runLocal true,
    .runLocal true]

theorem trapped_drops_request :
    ¬ EveryState (State.step emptyMap) (AllSent emptyMap) start trapped := by
  intro hsent
  have hlast := hsent.last.all (.inl rfl)
  exact absurd (congrArg List.length hlast) (by decide)

end Weverywhere.Replication
