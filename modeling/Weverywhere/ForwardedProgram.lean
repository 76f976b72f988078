import Weverywhere.DiscoveryWorld
import Weverywhere.MessagesRead
import Weverywhere.NetworkMap

/-!
Whether a program that is forwarded stays the same program (`discovery_forward` in
`src/src/command/serve.rs`): what a request carries besides its context, and what the
program it starts reads through `host::arg_len`, `arg_get`, `arg_map_len`,
`arg_map_key` and `arg_map_get` (`src/src/executor/mod.rs`).
-/
namespace Weverywhere.ForwardedProgram

open ByteStrings Messages Node NetworkMap MessagesRead Discovery DiscoveryWorld Runs
open Weverywhere.Configuration (PeerMetadata Platform)

/-! The arguments, as the host hands them out; `none` stands for the answer -1. -/

def argLen (running : RunningProgram) : Int32 := asI32 running.data.argList.length

def argGet (running : RunningProgram) (index cap : Int32) : Option Bytes :=
  (getIndex running.data.argList index).map (written cap)

def argMapLen (running : RunningProgram) : Int32 := asI32 running.data.argMap.length

def argMapKey (running : RunningProgram) (index cap : Int32) : Option Bytes :=
  (getIndex running.data.argMap index).map fun (key, _) => written cap key

def argMapGet (running : RunningProgram) (key : Bytes) (cap : Int32) : Option Bytes :=
  (running.data.argMap.find? fun kv => kv.1 == fromUtf8Lossy key).map fun (_, value) =>
    written cap value

/-- Two programs read the same arguments. -/
structure SameAnswers (a b : RunningProgram) : Prop where
  arg_len : argLen a = argLen b
  arg_get : ∀ index cap, argGet a index cap = argGet b index cap
  arg_map_len : argMapLen a = argMapLen b
  arg_map_key : ∀ index cap, argMapKey a index cap = argMapKey b index cap
  arg_map_get : ∀ key cap, argMapGet a key cap = argMapGet b key cap

theorem sameAnswers_of_args {a b : RunningProgram} (hlist : a.data.argList = b.data.argList)
    (hmap : a.data.argMap = b.data.argMap) : SameAnswers a b := by
  constructor
  · rw [argLen, argLen, hlist]
  · intro index cap
    rw [argGet, argGet, hlist]
  · rw [argMapLen, argMapLen, hmap]
  · intro index cap
    rw [argMapKey, argMapKey, hmap]
  · intro key cap
    rw [argMapGet, argMapGet, hmap]

/-! One forwarding. -/

/-- A sub-request has the incoming name and code and no arguments. -/
theorem subRequest_sameProgram_iff (n : ServeNode) (ourIdentity : Identity.IdentityData)
    (incoming : ProgramData) (childUuid : Uuid) (target : Target) :
    (n.subRequest ourIdentity incoming childUuid target).SameProgram incoming ↔
      incoming.argList = [] ∧ incoming.argMap = [] := by
  constructor
  · intro h
    exact ⟨h.2.2.1.symm, h.2.2.2.symm⟩
  · intro h
    exact ⟨rfl, rfl, h.1.symm, h.2.symm⟩

/-! A whole discovery. -/

variable {ι : Type}

/-- A network with one program sent to several places, each with a budget. -/
def startOne (node : ι → ServeNode) (origin : ProgramData) (sends : List (SocketAddr × UInt8)) :
    World ι :=
  start node (sends.map fun (dest, budget) => (dest, { origin with depthBudget := budget }))

/-- The program that would run at the first hop. -/
def running (program : ProgramData) : RunningProgram := ⟨program, false, [], ""⟩

/-- Every request carries the program of the origin, and whatever it starts is told
the origin's arguments. -/
structure OneProgram (origin : ProgramData) (w : World ι) : Prop where
  sent : ∀ r ∈ w.sent, r.program.SameProgram origin
  executed : ∀ x ∈ w.executed, SameAnswers x.running (running origin)

variable (p : Platform) (compiles : Bytes → Bool)

/-- A forwarding that has somewhere to send to forwards a program without arguments. -/
def ForwardsNoArguments (w : World ι) : Action ι → Prop
  | .forward k resolve observed _ => ∀ x, w.executed[k]? = some x → Forwarding w k x observed →
      (w.node x.node).identityData.isSome = true →
      (∃ target ∈ targetsOf p w x resolve observed,
        (w.node x.node).skips x.request.program target = false) →
      x.request.program.argList = [] ∧ x.request.program.argMap = []
  | _ => True

theorem oneProgram_startOne (node : ι → ServeNode) (origin : ProgramData)
    (sends : List (SocketAddr × UInt8)) : OneProgram origin (startOne node origin sends) where
  sent := by
    intro r hr
    obtain ⟨root, hroot, rfl⟩ := List.mem_map.mp hr
    obtain ⟨send, -, rfl⟩ := List.mem_map.mp hroot
    exact ⟨rfl, rfl, rfl, rfl⟩
  executed := by simp [startOne, start]

variable [DecidableEq ι]

/-- An execution answers like the origin because its request carried the origin's
program. -/
theorem executed_step {w : World ι} {origin : ProgramData} (h : OneProgram origin w)
    (action : Action ι) :
    ∀ x ∈ (step p compiles w action).executed, SameAnswers x.running (running origin) := by
  intro x hx
  rcases mem_executed_step p compiles hx with hold | hnew
  · exact h.executed x hold
  · obtain ⟨i, index, addr, now, returned, request, started, -, hsent, hstarted, rfl⟩ := hnew
    have hsame := h.sent request (List.mem_of_getElem? hsent)
    have hdata := (startedAt_eq_some p compiles hstarted).1
    apply sameAnswers_of_args
    · exact (congrArg ProgramData.argList hdata).trans hsame.2.2.1
    · exact (congrArg ProgramData.argMap hdata).trans hsame.2.2.2

/-- What a forwarding sends is the origin's program when what it forwards has no
arguments. -/
theorem oneProgram_step {w : World ι} {origin : ProgramData} (hrecorded : Recorded w)
    (h : OneProgram origin w) {action : Action ι} (hok : ForwardsNoArguments p w action) :
    OneProgram origin (step p compiles w action) where
  sent := by
    intro r hr
    rcases mem_sent_step p compiles hr with hold | hnew
    · exact h.sent r hold
    · obtain ⟨k, resolve, observed, freshUuid, x, target, rfl, hx, hforwarding, hsub⟩ := hnew
      obtain ⟨ourIdentity, childUuid, hidentity, hprogram⟩ := hsub.program
      have hincoming := h.sent x.request (hrecorded.mem_sent (List.mem_of_getElem? hx))
      have hargs := hok x hx hforwarding (by rw [hidentity]; rfl)
        ⟨target, hsub.target_mem, hsub.not_skipped⟩
      rw [hprogram]
      exact ((subRequest_sameProgram_iff _ _ _ _ _).mpr hargs).trans hincoming
  executed := executed_step p compiles h action

/-- A forwarding with arguments and somewhere to go sends another program. -/
theorem forwardsNoArguments_of_oneProgram {w : World ι} {origin : ProgramData}
    (hrecorded : Recorded w) (h : OneProgram origin w) {action : Action ι}
    (hnext : OneProgram origin (step p compiles w action)) : ForwardsNoArguments p w action := by
  cases action with
  | traffic i event => trivial
  | deliver i index addr now returned => trivial
  | forward k resolve observed freshUuid =>
    intro x hx hforwarding hidentity htarget
    obtain ⟨target, htarget, hskips⟩ := htarget
    obtain ⟨ourIdentity, hidentity⟩ := Option.isSome_iff_exists.mp hidentity
    have hstep : step p compiles w (.forward k resolve observed freshUuid) =
        { w with
          sent := w.sent ++ forwardedBy p w x resolve observed freshUuid
          forwarded := w.forwarded ++ [k] } := by
      simp only [step, hx]
      exact if_pos hforwarding
    have hmem := (ServeNode.mem_discoveryForward_iff (w.node x.node)
      (targetsOf p w x resolve observed) x.request.program ((x.returned.getD none).getD freshUuid)
      target _).mpr ⟨ourIdentity, hidentity, htarget, hskips, rfl⟩
    have hincoming := h.sent x.request (hrecorded.mem_sent (List.mem_of_getElem? hx))
    rw [hstep] at hnext
    have hsub := hnext.sent _ (List.mem_append_right _ (List.mem_map_of_mem hmem))
    exact (subRequest_sameProgram_iff _ _ _ _ _).mp (hsub.trans hincoming.symm)

/-- At every hop the program is the origin's exactly when no program with arguments is
ever forwarded to a target. -/
theorem one_program_iff (node : ι → ServeNode) (origin : ProgramData)
    (sends : List (SocketAddr × UInt8)) (actions : List (Action ι)) :
    EveryState (step p compiles) (OneProgram origin) (startOne node origin sends) actions ↔
      EachStep (step p compiles) (ForwardsNoArguments p) (startOne node origin sends) actions := by
  have hrecorded : Recorded (startOne node origin sends) := recorded_start node _
  have hinv : ∀ (w : World ι) action, Recorded w → Recorded (step p compiles w action) :=
    fun _ action hw => recorded_step p compiles hw action
  have hstep : ∀ (w : World ι) action, Recorded w → OneProgram origin w →
      (OneProgram origin (step p compiles w action) ↔ ForwardsNoArguments p w action) := by
    intro w action hw h
    constructor
    · exact forwardsNoArguments_of_oneProgram p compiles hw h
    · exact oneProgram_step p compiles hw h
  exact everyState_iff_eachStep_of_inv (step p compiles) hinv hstep hrecorded
    (oneProgram_startOne node origin sends) actions

/-- A program that is told its mode. -/
def modeRequest : ProgramData := { originRequest with argMap := [("mode", "observe")] }

/-- The laptop forwards it to the server without that. -/
theorem mode_not_forwarded :
    ¬ ∀ sub ∈ (Machine.node none .laptop).discoveryForward
        (targets machinePlatform resolveIpv4 (Machine.node none .laptop).peer []) modeRequest
        modeRequest.requestUuid, sub.2.SameProgram modeRequest := by
  intro h
  let target : Target := (.v4 Machine.server.ip 2240, none)
  let sub := (Machine.node none .laptop).subRequest Machine.laptop.identity modeRequest
    modeRequest.requestUuid target
  have hmem := (ServeNode.mem_discoveryForward_iff (Machine.node none .laptop)
    (targets machinePlatform resolveIpv4 (Machine.node none .laptop).peer []) modeRequest
    modeRequest.requestUuid target sub).mpr
    ⟨_, rfl, List.mem_singleton_self _, rfl, rfl⟩
  have hargs := (subRequest_sameProgram_iff _ _ _ _ _).mp (h _ hmem)
  cases hargs.2

end Weverywhere.ForwardedProgram
