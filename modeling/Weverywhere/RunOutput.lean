import Weverywhere.ArgsEcho
import Weverywhere.ReplyBuffers
import Weverywhere.StdoutForwarder
import Weverywhere.WaitBudget

/-!
What the user of `run` gets to see: a program on the local daemon prints, each
`host::print` writes to a forwarder of its own, the datagrams go over the loopback
interface, and `read_daemon_replies` shows what it receives while it still waits
(`src/src/executor/mod.rs`, `src/src/executor/wasi_adapters.rs`,
`src/src/command/serve.rs`, `src/src/command/run.rs`).
-/
namespace Weverywhere.RunOutput

open ByteStrings Cbor Messages WireFormat Discovery StdoutForwarder ReplyLoops ReplyBuffers
  WaitBudget ArgsEcho

/-! The daemon. -/

/-- What `poll_send_to` of a UDP socket comes back with: a datagram is taken as a whole. -/
inductive SendPoll
  | taken
  | busy
  | failed
  deriving DecidableEq

def answersTo (frame : Bytes) : SendPoll → Answers Unit
  | .taken => .ok frame.length .pending
  | .busy => .pending
  | .failed => .err ()

/-- `write_all`: the writer is polled until everything is written or it fails. -/
def writeAll {Socket : Type} : WasiStdioSimpleForwarder Socket → Bytes → List SendPoll →
    List (Datagram Socket)
  | _, [], _ => []
  | _, _ :: _, [] => []
  | f, b :: data, poll :: polls =>
    let outcome := f.pollWrite (b :: data) (answersTo (frameOf f.ourPid (b :: data)) poll)
    outcome.2.1 ++
      match outcome.2.2 with
      | .pending => writeAll outcome.1 (b :: data) polls
      | .ready (.error _) => []
      | .ready (.ok n) => if n = 0 then [] else writeAll outcome.1 ((b :: data).drop n) polls

/-- A text a program prints, and how the socket answers meanwhile. -/
structure Printing where
  text : Bytes
  polls : List SendPoll

/-- `host::print` writes to a clone of the forwarder it was linked with. -/
def Printing.datagrams (pid : UInt64) (caller : SocketAddr) (p : Printing) : List Bytes :=
  (writeAll (Session.start pid caller ()).forwarder p.text p.polls).map Datagram.bytes

/-- What the caller is sent for one run: the output, the returned map if there is one, and
the exit code. -/
def serveReplies (pid : UInt64) (caller : SocketAddr) (requestUuid : Uuid)
    (printings : List Printing) (returned : Option Bytes) (exitCode : UInt32) : List Bytes :=
  printings.flatMap (Printing.datagrams pid caller) ++
    (returned.toList.map fun cborData => toVec (.basicReturnMap pid requestUuid cborData)) ++
    [toVec (.basicInsecureProgramExit pid exitCode)]

/-! The client. -/

structure Arrival where
  time : ℕ
  bytes : Bytes

variable (overlong : Overlong)

def Arrival.reply (a : Arrival) : Option NetworkMessage := readDaemonReply overlong a.bytes

/-- `read_daemon_replies`: what it makes of each datagram it receives, and when it
returns. -/
def readDaemonReplies (arrivals : List Arrival) : List (Option NetworkMessage) × ℕ :=
  let heard := listen Arrival.time (fun a => (a.reply overlong).isSome) 100 moreChecks
    remaining100msChecks 0 arrivals
  (heard.1.map (Arrival.reply overlong), heard.2)

/-! What there is to see. -/

/-- What the program said, from its first text to its exit. -/
def said (pid : UInt64) (requestUuid : Uuid) (texts : List Bytes) (returned : Option Bytes)
    (exitCode : UInt32) : List NetworkMessage :=
  ((texts.filter (· ≠ [])).map fun text => .basicInsecureProgramStdout pid text) ++
    (returned.toList.map fun cborData => .basicReturnMap pid requestUuid cborData) ++
    [.basicInsecureProgramExit pid exitCode]

/-- Before each datagram the client has waited less often for nothing than it was
prepared to. -/
def Prompt (arrivals : List Arrival) : Prop :=
  ∀ front a back, arrivals = front ++ a :: back →
    waited Arrival.time 100 0 (front ++ [a]) < 24 + 9 * front.length

/-! What is sent. -/

/-- A text is sent when the socket takes it at once: a write that has to wait is not taken
up again. -/
def Printing.sent (p : Printing) : Bool := decide (p.text ≠ []) && p.polls.head? == some .taken

theorem sendLoop_taken {frame : Bytes} (hframe : 0 < frame.length) :
    sendLoop frame 0 (answersTo frame .taken) = ⟨frame.length, [frame], none⟩ := by
  simp only [answersTo, sendLoop, hframe, if_true, Nat.zero_add, lt_irrefl, if_false,
    List.drop_zero, List.take_length]

theorem sendLoop_busy {frame : Bytes} (hframe : 0 < frame.length) :
    sendLoop frame 0 (answersTo frame .busy) = ⟨0, [], some .pending⟩ := by
  simp only [answersTo, sendLoop, hframe, if_true]

theorem sendLoop_failed {frame : Bytes} (hframe : 0 < frame.length) :
    sendLoop frame 0 (answersTo frame .failed) = ⟨0, [], some (.ready (.error ()))⟩ := by
  simp only [answersTo, sendLoop, hframe, if_true]

/-- With a frame left over, the write is over at the next poll, and nothing goes out. -/
theorem writeAll_leftOver {Socket : Type} (f : WasiStdioSimpleForwarder Socket)
    {replyTo : SocketAddr} {replyFrom : Socket} {frame : Bytes} (hto : f.replyTo = some replyTo)
    (hfrom : f.replyFrom = some replyFrom) (hmsg : f.currentEncodedMsg = some frame)
    (data : Bytes) (polls : List SendPoll) : writeAll f data polls = [] := by
  cases data with
  | nil => cases polls <;> rfl
  | cons b data =>
    cases polls with
    | nil => rfl
    | cons poll polls =>
      simp only [writeAll, WasiStdioSimpleForwarder.pollWrite, hto, hfrom, hmsg,
        List.drop_length, List.nil_append, ite_self]

theorem datagrams_eq (pid : UInt64) (caller : SocketAddr) (p : Printing) :
    p.datagrams pid caller = if p.sent then [frameOf pid p.text] else [] := by
  obtain ⟨text, polls⟩ := p
  cases text with
  | nil => cases polls <;> rfl
  | cons b data =>
    have hframe := frameOf_pos pid (b :: data)
    rw [frameOf] at hframe
    cases polls with
    | nil => rfl
    | cons poll polls =>
      simp only [Printing.datagrams, writeAll, WasiStdioSimpleForwarder.pollWrite, Session.start,
        WasiStdioSimpleForwarder.newUdp, WasiStdioSimpleForwarder.setPid, frameOf]
      cases poll with
      | taken =>
        simp only [sendLoop_taken hframe, List.drop_length, writeAll, ite_self, List.append_nil]
        rfl
      | busy =>
        simp only [sendLoop_busy hframe, List.map_nil, List.nil_append]
        rw [writeAll_leftOver _ rfl rfl rfl]
        rfl
      | failed =>
        simp only [sendLoop_failed hframe]
        rfl

variable {pid : UInt64} {caller : SocketAddr} {requestUuid : Uuid} {printings : List Printing}
  {returned : Option Bytes} {exitCode : UInt32}

/-- The datagrams are the messages of the texts that were taken. -/
theorem serveReplies_eq :
    serveReplies pid caller requestUuid printings returned exitCode =
      (said pid requestUuid ((printings.filter Printing.sent).map Printing.text) returned
        exitCode).map toVec := by
  have houtput : printings.flatMap (Printing.datagrams pid caller) =
      (printings.filter Printing.sent).map fun p => frameOf pid p.text := by
    induction printings with
    | nil => rfl
    | cons p printings ih =>
      rw [List.flatMap_cons, ih, datagrams_eq, List.filter_cons]
      split_ifs <;> rfl
  have hnonempty : ((printings.filter Printing.sent).map Printing.text).filter (· ≠ []) =
      (printings.filter Printing.sent).map Printing.text := by
    rw [List.filter_eq_self]
    intro text htext
    obtain ⟨p, hp, rfl⟩ := List.mem_map.mp htext
    have hsent := (List.mem_filter.mp hp).2
    rw [Printing.sent, Bool.and_eq_true] at hsent
    exact hsent.1
  rw [serveReplies, said, houtput, hnonempty]
  simp [Function.comp_def, frameOf]

/-- All of what was said is sent exactly when every text is taken at once. -/
theorem length_said_sent_iff :
    (said pid requestUuid ((printings.filter Printing.sent).map Printing.text) returned
        exitCode).length =
        (said pid requestUuid (printings.map Printing.text) returned exitCode).length ↔
      ∀ p ∈ printings, p.text ≠ [] → p.polls.head? = some .taken := by
  let texts := printings.filter fun p => decide (p.text ≠ [])
  have hsent : printings.filter Printing.sent =
      texts.filter fun p => p.polls.head? == some .taken := by
    rw [List.filter_filter]
    congr 1
    funext p
    rw [Printing.sent, Bool.and_comm]
  have hnonempty : ∀ ps : List Printing, ((ps.map Printing.text).filter (· ≠ [])).length =
      (ps.filter fun p => decide (p.text ≠ [])).length := by
    intro ps
    rw [List.filter_map, List.length_map]
    rfl
  have hall : (printings.filter Printing.sent).filter (fun p => decide (p.text ≠ [])) =
      printings.filter Printing.sent := by
    rw [List.filter_eq_self]
    intro p hp
    have hp := (List.mem_filter.mp hp).2
    rw [Printing.sent, Bool.and_eq_true] at hp
    exact hp.1
  have hlength : (printings.filter Printing.sent).length = texts.length ↔
      ∀ p ∈ texts, (p.polls.head? == some .taken) = true := by
    rw [hsent]
    exact List.length_filter_eq_length_iff
  simp only [said, List.length_append, List.length_map, hnonempty, hall]
  rw [Nat.add_right_cancel_iff, Nat.add_right_cancel_iff]
  refine hlength.trans ?_
  simp [texts]

/-! What is received. -/

theorem readDaemonReply_toVec_iff (message : NetworkMessage) :
    readDaemonReply overlong (toVec message) = some message ↔
      (toVec message).length ≤ 16 * 1024 := by
  constructor
  · intro h
    obtain ⟨input, hinput, hread⟩ := Option.bind_eq_some_iff.mp h
    by_cases hfits : (toVec message).length ≤ readDaemonRepliesBuffer
    · exact hfits
    · cases overlong with
      | clipped =>
        rw [recv_clipped] at hinput
        have hlength : input.length ≤ readDaemonRepliesBuffer :=
          Option.some.inj hinput ▸ List.length_take_le _ _
        exact Nat.le_trans (toVec_length_le hread) hlength
      | refused =>
        rw [recv_refused hfits] at hinput
        cases hinput
  · intro h
    exact (decodeReply_toVec_iff (fits_of_length (by omega)) _ overlong).mpr h

theorem inTime_iff_prompt {arrivals : List Arrival}
    (hgood : ∀ a ∈ arrivals, (a.reply overlong).isSome = true) :
    InTime Arrival.time (fun a => (a.reply overlong).isSome) 100 moreChecks remaining100msChecks 0
      arrivals ↔ Prompt arrivals := by
  have hcount : ∀ front a back, arrivals = front ++ a :: back →
      front.countP (fun a => (a.reply overlong).isSome) = front.length := by
    rintro front a back rfl
    rw [List.countP_eq_length]
    exact fun x hx => hgood x (List.mem_append_left _ hx)
  constructor
  · intro h front a back hsplit
    have hfront := h front a back hsplit
    rw [hcount front a back hsplit, moreChecks, remaining100msChecks] at hfront
    omega
  · intro h front a back hsplit
    have hfront := h front a back hsplit
    rw [hcount front a back hsplit, moreChecks, remaining100msChecks]
    omega

theorem sent_of_taken (h : ∀ p ∈ printings, p.text ≠ [] → p.polls.head? = some .taken) :
    said pid requestUuid ((printings.filter Printing.sent).map Printing.text) returned exitCode =
      said pid requestUuid (printings.map Printing.text) returned exitCode := by
  have hsent : printings.filter Printing.sent =
      printings.filter fun p => decide (p.text ≠ []) := by
    apply List.filter_congr
    intro p hp
    by_cases htext : p.text = []
    · simp [Printing.sent, htext]
    · simp [Printing.sent, htext, h p hp htext]
  have htwice : ((printings.filter fun p => decide (p.text ≠ [])).map Printing.text).filter
      (· ≠ []) = (printings.map Printing.text).filter (· ≠ []) := by
    rw [List.filter_map, List.filter_map, List.filter_filter]
    congr 2
    funext p
    simp
  rw [said, said, hsent, htwice]

/-- Everything got through. -/
structure GotThrough (pid : UInt64) (requestUuid : Uuid) (printings : List Printing)
    (returned : Option Bytes) (exitCode : UInt32) (arrivals : List Arrival) : Prop where
  taken : ∀ p ∈ printings, p.text ≠ [] → p.polls.head? = some .taken
  short : ∀ m ∈ said pid requestUuid (printings.map Printing.text) returned exitCode,
    (toVec m).length ≤ 16 * 1024
  prompt : Prompt arrivals

/-- The user is shown everything the program printed, in its order, and how it ended,
exactly when the socket took each text at once, each message goes into the client's
buffer, and none came when the client had stopped waiting; and then the command returns
2.4 s after the last message, later by 0.9 s for each message and earlier by what it has
waited before. -/
theorem run_shows_all_iff {arrivals : List Arrival}
    (harrivals : arrivals.map Arrival.bytes =
      serveReplies pid caller requestUuid printings returned exitCode) :
    ((readDaemonReplies overlong arrivals).1 =
        (said pid requestUuid (printings.map Printing.text) returned exitCode).map some ↔
      GotThrough pid requestUuid printings returned exitCode arrivals) ∧
    (GotThrough pid requestUuid printings returned exitCode arrivals →
      (readDaemonReplies overlong arrivals).2 = momentAfter Arrival.time 0 arrivals +
        100 * (24 + 9 * arrivals.length - waited Arrival.time 100 0 arrivals)) := by
  have hslice : 0 < 100 := by omega
  rw [serveReplies_eq] at harrivals
  have hreplies : arrivals.map (Arrival.reply overlong) =
      (said pid requestUuid ((printings.filter Printing.sent).map Printing.text) returned
        exitCode).map fun m => readDaemonReply overlong (toVec m) := by
    have hmapped := congrArg (List.map (readDaemonReply overlong)) harrivals
    rwa [List.map_map, List.map_map] at hmapped
  have hgood : GotThrough pid requestUuid printings returned exitCode arrivals →
      arrivals.map (Arrival.reply overlong) =
        (said pid requestUuid (printings.map Printing.text) returned exitCode).map some := by
    intro h
    rw [hreplies, sent_of_taken h.taken]
    apply List.map_congr_left
    exact fun m hm => (readDaemonReply_toVec_iff overlong m).mpr (h.short m hm)
  have hsome : ∀ {messages : List NetworkMessage},
      arrivals.map (Arrival.reply overlong) = messages.map some →
        ∀ a ∈ arrivals, (a.reply overlong).isSome = true := by
    intro messages h a ha
    have hmem : a.reply overlong ∈ messages.map some := h ▸ List.mem_map_of_mem ha
    obtain ⟨m, -, hm⟩ := List.mem_map.mp hmem
    rw [← hm, Option.isSome_some]
  refine ⟨⟨?_, ?_⟩, ?_⟩
  · intro hshown
    let heard := (listen Arrival.time (fun a => (a.reply overlong).isSome) 100 moreChecks
      remaining100msChecks 0 arrivals).1
    have hprefix : heard <+: arrivals := listen_prefix hslice arrivals
    have hlength : heard.length =
        (said pid requestUuid (printings.map Printing.text) returned exitCode).length := by
      have hmaps := congrArg List.length hshown
      rwa [readDaemonReplies, List.length_map, List.length_map] at hmaps
    have harrived : arrivals.length = (said pid requestUuid
        ((printings.filter Printing.sent).map Printing.text) returned exitCode).length := by
      rw [← List.length_map (f := Arrival.bytes), harrivals, List.length_map]
    have hfewer : (said pid requestUuid ((printings.filter Printing.sent).map Printing.text)
        returned exitCode).length ≤
          (said pid requestUuid (printings.map Printing.text) returned exitCode).length := by
      have hless := ((List.filter_sublist (p := Printing.sent) (l := printings)).map
        Printing.text).filter (· ≠ []) |>.length_le
      simp only [said, List.length_append, List.length_map]
      omega
    have heq : heard = arrivals := hprefix.eq_of_length_le (by omega)
    have hheard := hprefix.length_le
    have htaken := length_said_sent_iff.mp (Nat.le_antisymm hfewer (by omega))
    have hmaps : arrivals.map (Arrival.reply overlong) =
        (said pid requestUuid (printings.map Printing.text) returned exitCode).map some := by
      rw [← hshown, readDaemonReplies]
      exact congrArg (List.map (Arrival.reply overlong)) heq.symm
    have hprompt := (listen_all_iff hslice arrivals).mp heq
    rw [inTime_iff_prompt overlong (hsome hmaps)] at hprompt
    rw [hreplies, sent_of_taken htaken] at hmaps
    exact {
      taken := htaken
      short := fun m hm =>
        (readDaemonReply_toVec_iff overlong m).mp (List.map_inj_left.mp hmaps m hm)
      prompt := hprompt }
  · intro h
    have hprompt := (inTime_iff_prompt overlong (hsome (hgood h))).mpr h.prompt
    rw [readDaemonReplies, (listen_all_iff hslice arrivals).mpr hprompt]
    exact hgood h
  · intro h
    have hall := hsome (hgood h)
    have hprompt := (inTime_iff_prompt overlong hall).mpr h.prompt
    have hcount : arrivals.countP (fun a => (a.reply overlong).isSome) = arrivals.length :=
      List.countP_eq_length.mpr hall
    rw [readDaemonReplies, listen_end hslice hprompt, hcount, moreChecks, remaining100msChecks]
    congr 2
    omega

/-- A program that says "hi" and exits. -/
def hiPrinting : List Printing := [⟨[0x68, 0x69], [.taken]⟩]

def hiArrivals : List Arrival :=
  [⟨3, toVec (.basicInsecureProgramStdout 7 [0x68, 0x69])⟩,
    ⟨5, toVec (.basicInsecureProgramExit 7 0)⟩]

/-- It is shown, and the command returns four seconds after it has exited. -/
theorem run_shows_all_hi :
    readDaemonReplies .clipped hiArrivals =
      ([some (.basicInsecureProgramStdout 7 [0x68, 0x69]), some (.basicInsecureProgramExit 7 0)],
        4205) := by
  have hthrough : GotThrough 7 (Vector.replicate 16 0) hiPrinting none 0 hiArrivals := {
    taken := by simp [hiPrinting]
    short := by decide +kernel
    prompt := by
      intro front a back hsplit
      have hshort := congrArg List.length hsplit
      have hnoWait : waited Arrival.time 100 0 (front ++ [a]) = 0 := by
        rcases front with _ | ⟨first, _ | ⟨second, front⟩⟩
        · obtain ⟨rfl, -⟩ := List.cons.inj hsplit
          decide
        · obtain ⟨rfl, hrest⟩ := List.cons.inj hsplit
          obtain ⟨rfl, -⟩ := List.cons.inj hrest
          decide
        · simp [hiArrivals] at hshort
      omega }
  have harrivals : hiArrivals.map Arrival.bytes =
      serveReplies 7 (.v4 0x7F000001#32 2240) (Vector.replicate 16 0) hiPrinting none 0 := by
    decide +kernel
  obtain ⟨hiff, htime⟩ := run_shows_all_iff .clipped harrivals
  exact Prod.ext (hiff.mpr hthrough) (htime hthrough)

end Weverywhere.RunOutput
