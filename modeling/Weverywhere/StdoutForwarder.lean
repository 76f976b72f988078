import Weverywhere.Runs
import Weverywhere.WireFormat

/-!
How a program's output leaves the server: `poll_write` of
`WasiStdioSimpleForwarder` (`src/src/executor/wasi_adapters.rs`). The frame of a
write that was interrupted is kept, but the loop that sends it is entered only when
a new frame is made, so the next call reports success for a frame that was not
sent.
-/
namespace Weverywhere.StdoutForwarder

open ByteStrings Messages WireFormat Runs

inductive Poll (α : Type*)
  | ready (x : α)
  | pending

/-- What `poll_send_to` returns within one call, in order. -/
inductive Answers (ε : Type*)
  | pending
  | err (e : ε)
  | ok (n : ℕ) (rest : Answers ε)

/-- The socket is a handle that the forwarder passes on. -/
structure WasiStdioSimpleForwarder (Socket : Type*) where
  ourPid : UInt64
  replyTo : Option SocketAddr
  replyFrom : Option Socket
  currentEncodedMsg : Option Bytes
  currentEncodedSent : ℕ

/-- A datagram the socket has accepted. -/
structure Datagram (Socket : Type*) where
  socket : Socket
  dest : SocketAddr
  bytes : Bytes

/-- Where the loop of `poll_write` ends; `stop` is the value of a `return` in it. -/
structure LoopEnd (ε : Type*) where
  sent : ℕ
  accepted : List Bytes
  stop : Option (Poll (Except ε ℕ))

/-- `while current_encoded_sent < frame.len()`, entered at `sent`. -/
def sendLoop {ε : Type*} (frame : Bytes) (sent : ℕ) : Answers ε → LoopEnd ε
  | .pending => if sent < frame.length then ⟨sent, [], some .pending⟩ else ⟨sent, [], none⟩
  | .err e =>
      if sent < frame.length then ⟨sent, [], some (.ready (.error e))⟩ else ⟨sent, [], none⟩
  | .ok n rest =>
      if sent < frame.length then
        let later := sendLoop frame (sent + n) rest
        ⟨later.sent, (frame.drop sent).take n :: later.accepted, later.stop⟩
      else ⟨sent, [], none⟩

namespace WasiStdioSimpleForwarder

def newUdp {Socket : Type*} (replyTo : SocketAddr) (replyFrom : Socket) :
    WasiStdioSimpleForwarder Socket := ⟨0, some replyTo, some replyFrom, none, 0⟩

def setPid {Socket : Type*} (f : WasiStdioSimpleForwarder Socket) (pid : UInt64) :
    WasiStdioSimpleForwarder Socket := { f with ourPid := pid }

/-- The forwarder after the call, the datagrams accepted in it and what it returns.
Encoding into a vector does not fail for this message. -/
def pollWrite {Socket ε : Type*} (f : WasiStdioSimpleForwarder Socket) (buf : Bytes)
    (answers : Answers ε) :
    WasiStdioSimpleForwarder Socket × List (Datagram Socket) × Poll (Except ε ℕ) :=
  match f.replyTo, f.replyFrom with
  | some replyTo, some replyFrom =>
      match f.currentEncodedMsg with
      | none =>
          let frame := toVec (.basicInsecureProgramStdout f.ourPid buf)
          let loop := sendLoop frame 0 answers
          let datagrams := loop.accepted.map (Datagram.mk replyFrom replyTo)
          match loop.stop with
          | some result =>
              ({ f with currentEncodedMsg := some frame, currentEncodedSent := loop.sent },
                datagrams, result)
          | none =>
              ({ f with currentEncodedMsg := none, currentEncodedSent := loop.sent },
                datagrams, .ready (.ok buf.length))
      | some _ => ({ f with currentEncodedMsg := none }, [], .ready (.ok buf.length))
  | _, _ => (f, [], .ready (.ok buf.length))

end WasiStdioSimpleForwarder

/-! A sequence of calls. -/

/-- A write that has returned `Ok(reported)`, with the datagrams accepted since it
was first polled. -/
structure Write (Socket : Type*) where
  buf : Bytes
  reported : ℕ
  datagrams : List (Datagram Socket)

structure Session (Socket : Type*) where
  forwarder : WasiStdioSimpleForwarder Socket
  waiting : Option Bytes
  accepted : List (Datagram Socket)
  done : List (Write Socket)

/-- One call, and the answers the socket has for it. -/
structure Call (ε : Type*) where
  buf : Bytes
  answers : Answers ε

variable {Socket ε : Type*}

def Session.start (pid : UInt64) (replyTo : SocketAddr) (replyFrom : Socket) : Session Socket :=
  ⟨(WasiStdioSimpleForwarder.newUdp replyTo replyFrom).setPid pid, none, [], []⟩

def Session.call (s : Session Socket) (c : Call ε) : Session Socket :=
  let outcome := s.forwarder.pollWrite c.buf c.answers
  match outcome.2.2 with
  | .pending => ⟨outcome.1, some c.buf, s.accepted ++ outcome.2.1, s.done⟩
  | .ready (.error _) => ⟨outcome.1, none, [], s.done⟩
  | .ready (.ok n) =>
      ⟨outcome.1, none, [], s.done ++ [⟨c.buf, n, s.accepted ++ outcome.2.1⟩]⟩

/-- As `AsyncWrite` prescribes: after `Pending` the same buffer again. -/
def Prescribed (s : Session Socket) (c : Call ε) : Prop := ∀ buf, s.waiting = some buf → c.buf = buf

def frameOf (pid : UInt64) (buf : Bytes) : Bytes := toVec (.basicInsecureProgramStdout pid buf)

/-- The whole buffer was reported, and its frame accepted as one datagram. -/
def Delivered (pid : UInt64) (replyTo : SocketAddr) (replyFrom : Socket) (w : Write Socket) :
    Prop :=
  w.reported = w.buf.length ∧ w.datagrams = [⟨replyFrom, replyTo, frameOf pid w.buf⟩]

def AllDelivered (pid : UInt64) (replyTo : SocketAddr) (replyFrom : Socket)
    (s : Session Socket) : Prop := ∀ w ∈ s.done, Delivered pid replyTo replyFrom w

/-- The bytes the socket takes before it stops the call. -/
def Answers.taken : Answers ε → ℕ
  | .pending => 0
  | .err _ => 0
  | .ok n rest => n + rest.taken

/-- The bytes it takes at the first send. -/
def Answers.first : Answers ε → ℕ
  | .pending => 0
  | .err _ => 0
  | .ok n _ => n

/-- No frame is left over, and if the socket takes all of this one it does so at
once. -/
def Undisturbed (s : Session Socket) (c : Call ε) : Prop :=
  s.forwarder.currentEncodedMsg = none ∧
    ((frameOf s.forwarder.ourPid c.buf).length ≤ c.answers.taken →
      (frameOf s.forwarder.ourPid c.buf).length ≤ c.answers.first)

/-! The loop. -/

theorem frameOf_pos (pid : UInt64) (buf : Bytes) : 0 < (frameOf pid buf).length := by
  rw [frameOf, toVec, List.length_append]
  have htag : 0 < (Bare.uvarint 1).length := by decide
  omega

/-- The loop runs to its end when the socket takes what is left. -/
theorem sendLoop_stop_eq_none_iff (frame : Bytes) (sent : ℕ) (answers : Answers ε) :
    (sendLoop frame sent answers).stop = none ↔ frame.length ≤ sent + answers.taken := by
  induction answers generalizing sent with
  | pending =>
    rw [sendLoop, Answers.taken]
    split_ifs with hmore
    · simp only [false_iff]
      omega
    · simp only [true_iff]
      omega
  | err e =>
    rw [sendLoop, Answers.taken]
    split_ifs with hmore
    · simp only [false_iff]
      omega
    · simp only [true_iff]
      omega
  | ok n rest ih =>
    rw [sendLoop, Answers.taken]
    split_ifs with hmore
    · rw [ih]
      omega
    · simp only [true_iff]
      omega

/-- A loop that is stopped has sent less than was left. -/
theorem sendLoop_stopped {frame : Bytes} {sent : ℕ} {answers : Answers ε}
    (hstop : (sendLoop frame sent answers).stop ≠ none) :
    ((sendLoop frame sent answers).accepted.map List.length).sum + sent < frame.length ∧
      ∀ n, (sendLoop frame sent answers).stop ≠ some (.ready (.ok n)) := by
  induction answers generalizing sent with
  | pending =>
    rw [sendLoop] at hstop ⊢
    split_ifs at hstop ⊢ with hmore
    · simpa using hmore
    · exact absurd rfl hstop
  | err e =>
    rw [sendLoop] at hstop ⊢
    split_ifs at hstop ⊢ with hmore
    · simpa using hmore
    · exact absurd rfl hstop
  | ok n rest ih =>
    rw [sendLoop] at hstop ⊢
    split_ifs at hstop ⊢ with hmore
    · obtain ⟨hsum, hresult⟩ := ih hstop
      refine ⟨?_, hresult⟩
      rw [List.map_cons, List.sum_cons, List.length_take, List.length_drop]
      omega
    · exact absurd rfl hstop

/-- The whole frame goes out as one datagram exactly when the first send takes it. -/
theorem sendLoop_whole_iff {frame : Bytes} (hframe : 0 < frame.length) (answers : Answers ε) :
    (sendLoop frame 0 answers).accepted = [frame] ↔ frame.length ≤ answers.first := by
  cases answers with
  | pending =>
    rw [sendLoop, if_pos hframe, Answers.first]
    simp only [List.nil_eq, reduceCtorEq, false_iff]
    omega
  | err e =>
    rw [sendLoop, if_pos hframe, Answers.first]
    simp only [List.nil_eq, reduceCtorEq, false_iff]
    omega
  | ok n rest =>
    rw [sendLoop, if_pos hframe, Answers.first, List.drop_zero]
    dsimp only
    constructor
    · intro h
      have hfront := (List.cons.inj h).1
      rw [← hfront, List.length_take]
      exact Nat.min_le_left n _
    · intro h
      have hlast : (sendLoop frame (0 + n) rest).accepted = [] := by
        cases rest <;> rw [sendLoop, if_neg (by omega)]
      rw [List.take_of_length_le h, hlast]

/-! One call. -/

/-- What a session keeps: the destination, and short of a whole frame while a write
waits to be polled again. -/
structure Kept (pid : UInt64) (replyTo : SocketAddr) (replyFrom : Socket) (s : Session Socket) :
    Prop where
  ourPid : s.forwarder.ourPid = pid
  replyTo : s.forwarder.replyTo = some replyTo
  replyFrom : s.forwarder.replyFrom = some replyFrom
  fresh : s.waiting = none → s.accepted = []
  short : ∀ buf, s.waiting = some buf → s.forwarder.currentEncodedMsg ≠ none ∧
    (s.accepted.map (·.bytes.length)).sum < (frameOf pid buf).length

section Call

variable {pid : UInt64} {replyTo : SocketAddr} {replyFrom : Socket} {s : Session Socket}
  (h : Kept pid replyTo replyFrom s) (c : Call ε)

include h

/-- With a frame left over, the call sends nothing and reports the buffer as written. -/
theorem call_leftOver (hleft : s.forwarder.currentEncodedMsg ≠ none) :
    s.call c = ⟨{ s.forwarder with currentEncodedMsg := none }, none, [],
      s.done ++ [⟨c.buf, c.buf.length, s.accepted⟩]⟩ := by
  obtain ⟨msg, hmsg⟩ := Option.ne_none_iff_exists'.mp hleft
  simp only [Session.call, WasiStdioSimpleForwarder.pollWrite, h.replyTo, h.replyFrom, hmsg,
    List.append_nil]

/-- Otherwise the loop decides. -/
theorem call_fresh (hnone : s.forwarder.currentEncodedMsg = none) :
    let loop := sendLoop (frameOf pid c.buf) 0 c.answers
    let datagrams := loop.accepted.map (Datagram.mk replyFrom replyTo)
    (loop.stop = none → s.call c = ⟨{ s.forwarder with currentEncodedSent := loop.sent }, none, [],
      s.done ++ [⟨c.buf, c.buf.length, s.accepted ++ datagrams⟩]⟩) ∧
    (loop.stop ≠ none → (s.call c).done = s.done ∧
      (s.call c).forwarder = { s.forwarder with
        currentEncodedMsg := some (frameOf pid c.buf), currentEncodedSent := loop.sent } ∧
      ((s.call c).waiting = none ∧ (s.call c).accepted = [] ∨
        (s.call c).waiting = some c.buf ∧ (s.call c).accepted = s.accepted ++ datagrams)) := by
  intro loop datagrams
  have hpoll : s.forwarder.pollWrite c.buf c.answers = match loop.stop with
      | some result => ({ s.forwarder with
          currentEncodedMsg := some (frameOf pid c.buf), currentEncodedSent := loop.sent },
          datagrams, result)
      | none => ({ s.forwarder with
          currentEncodedMsg := none, currentEncodedSent := loop.sent },
          datagrams, .ready (.ok c.buf.length)) := by
    simp only [WasiStdioSimpleForwarder.pollWrite, h.replyTo, h.replyFrom, hnone, h.ourPid]
    rfl
  constructor
  · intro hstop
    rw [hstop] at hpoll
    simp only [Session.call, hpoll, ← hnone]
  · intro hstop
    have hresult := (sendLoop_stopped hstop).2
    obtain ⟨result, hsome⟩ := Option.ne_none_iff_exists'.mp hstop
    have hsome' : loop.stop = some result := hsome
    rw [hsome'] at hpoll
    cases result with
    | pending => simp [Session.call, hpoll]
    | ready r =>
      cases r with
      | error e => simp [Session.call, hpoll]
      | ok n => exact absurd hsome (hresult n)

/-- No write waits while no frame is left over. -/
theorem accepted_eq_nil (hnone : s.forwarder.currentEncodedMsg = none) : s.accepted = [] := by
  apply h.fresh
  by_contra hwaiting
  obtain ⟨buf, hbuf⟩ := Option.ne_none_iff_exists'.mp hwaiting
  exact (h.short buf hbuf).1 hnone

theorem kept_call : Kept pid replyTo replyFrom (s.call c) := by
  by_cases hnone : s.forwarder.currentEncodedMsg = none
  · obtain ⟨hwhole, hstopped⟩ := call_fresh h c hnone
    by_cases hstop : (sendLoop (frameOf pid c.buf) 0 c.answers).stop = none
    · rw [hwhole hstop]
      exact ⟨h.ourPid, h.replyTo, h.replyFrom, fun _ => rfl, fun buf hbuf => by cases hbuf⟩
    · obtain ⟨-, hforwarder, hwaiting⟩ := hstopped hstop
      have hless := (sendLoop_stopped hstop).1
      rw [accepted_eq_nil h hnone, List.nil_append] at hwaiting
      refine ⟨?_, ?_, ?_, ?_, ?_⟩
      · rw [hforwarder]
        exact h.ourPid
      · rw [hforwarder]
        exact h.replyTo
      · rw [hforwarder]
        exact h.replyFrom
      · intro hnot
        rcases hwaiting with ⟨-, hempty⟩ | ⟨hsome, -⟩
        · exact hempty
        · rw [hsome] at hnot
          cases hnot
      · intro buf hbuf
        rcases hwaiting with ⟨hnot, -⟩ | ⟨hsome, haccepted⟩
        · rw [hnot] at hbuf
          cases hbuf
        · rw [hsome] at hbuf
          obtain rfl := Option.some.inj hbuf
          refine ⟨by rw [hforwarder]; exact Option.some_ne_none _, ?_⟩
          rw [haccepted, List.map_map]
          exact hless
  · rw [call_leftOver h c hnone]
    exact ⟨h.ourPid, h.replyTo, h.replyFrom, fun _ => rfl, fun buf hbuf => by cases hbuf⟩

/-- Step lemma: a prescribed call adds no undelivered write exactly when it is
undisturbed. -/
theorem allDelivered_call_iff (hprescribed : Prescribed s c)
    (hall : AllDelivered pid replyTo replyFrom s) :
    AllDelivered pid replyTo replyFrom (s.call c) ↔ Undisturbed s c := by
  have hadded : ∀ w : Write Socket, (∀ w' ∈ s.done ++ [w], Delivered pid replyTo replyFrom w') ↔
      Delivered pid replyTo replyFrom w := by
    intro w
    rw [List.forall_mem_append, List.forall_mem_singleton]
    exact and_iff_right hall
  by_cases hnone : s.forwarder.currentEncodedMsg = none
  · obtain ⟨hwhole, hstopped⟩ := call_fresh h c hnone
    have hiff := sendLoop_stop_eq_none_iff (frameOf pid c.buf) 0 c.answers
    rw [Nat.zero_add] at hiff
    rw [Undisturbed, h.ourPid]
    by_cases hstop : (sendLoop (frameOf pid c.buf) 0 c.answers).stop = none
    · have honce := sendLoop_whole_iff (frameOf_pos pid c.buf) c.answers
      have hmap : Function.Injective (Datagram.mk replyFrom replyTo) :=
        fun a b hab => (Datagram.mk.inj hab).2.2
      rw [AllDelivered, hwhole hstop, hadded, Delivered, accepted_eq_nil h hnone, List.nil_append,
        ← List.map_singleton, hmap.list_map.eq_iff, honce]
      have htaken := hiff.mp hstop
      constructor
      · rintro ⟨-, hfirst⟩
        exact ⟨hnone, fun _ => hfirst⟩
      · rintro ⟨-, hfirst⟩
        exact ⟨rfl, hfirst htaken⟩
    · have hdone := (hstopped hstop).1
      rw [AllDelivered, hdone]
      apply iff_of_true hall
      exact ⟨hnone, fun htaken => absurd (hiff.mpr htaken) hstop⟩
  · rw [AllDelivered, call_leftOver h c hnone, hadded]
    apply iff_of_false
    · rintro ⟨-, hdatagrams⟩
      dsimp only at hdatagrams
      by_cases hwaiting : s.waiting = none
      · rw [h.fresh hwaiting] at hdatagrams
        cases hdatagrams
      · obtain ⟨buf, hbuf⟩ := Option.ne_none_iff_exists'.mp hwaiting
        have hshort := (h.short buf hbuf).2
        rw [← hprescribed buf hbuf, hdatagrams] at hshort
        simp at hshort
    · rintro ⟨hmsg, -⟩
      exact hnone hmsg

end Call

theorem kept_start (pid : UInt64) (replyTo : SocketAddr) (replyFrom : Socket) :
    Kept pid replyTo replyFrom (Session.start pid replyTo replyFrom) :=
  ⟨rfl, rfl, rfl, fun _ => rfl, fun buf hbuf => by cases hbuf⟩

/-- Along every sequence of calls and of answers: every write that is reported has
been delivered exactly when no call is disturbed. -/
theorem delivered_iff_undisturbed (pid : UInt64) (replyTo : SocketAddr) (replyFrom : Socket)
    (calls : List (Call ε))
    (hcalls : EachStep Session.call Prescribed (Session.start pid replyTo replyFrom) calls) :
    EveryState Session.call (AllDelivered pid replyTo replyFrom)
        (Session.start pid replyTo replyFrom) calls ↔
      EachStep Session.call Undisturbed (Session.start pid replyTo replyFrom) calls := by
  have hinv : ∀ (s : Session Socket) (c : Call ε), Prescribed s c →
      Kept pid replyTo replyFrom s → Kept pid replyTo replyFrom (s.call c) :=
    fun s c _ hkept => kept_call hkept c
  have hstep : ∀ (s : Session Socket) (c : Call ε), Prescribed s c →
      Kept pid replyTo replyFrom s → AllDelivered pid replyTo replyFrom s →
        (AllDelivered pid replyTo replyFrom (s.call c) ↔ Undisturbed s c) :=
    fun s c hprescribed hkept hall => allDelivered_call_iff hkept c hprescribed hall
  apply everyState_iff_eachStep Session.call hinv hstep hcalls (kept_start pid replyTo replyFrom)
  intro w hw
  cases hw

/-- "hi", with a socket that is busy at first. -/
def busyThenReady : List (Call Empty) :=
  [⟨[0x68, 0x69], .pending⟩, ⟨[0x68, 0x69], .ok 65507 .pending⟩]

theorem prescribed_busyThenReady : EachStep Session.call Prescribed
    (Session.start 7 (.v4 0x7F000001#32 2240) ()) busyThenReady := by
  refine ⟨?_, ?_, trivial⟩
  · intro buf hbuf
    cases hbuf
  · intro buf hbuf
    exact Option.some.inj hbuf

/-- The equivalence on these two calls. -/
theorem delivered_iff_undisturbed_busy :
    EveryState Session.call (AllDelivered 7 (.v4 0x7F000001#32 2240) ())
        (Session.start 7 (.v4 0x7F000001#32 2240) ()) busyThenReady ↔
      EachStep Session.call Undisturbed (Session.start 7 (.v4 0x7F000001#32 2240) ())
        busyThenReady :=
  delivered_iff_undisturbed 7 (.v4 0x7F000001#32 2240) () busyThenReady prescribed_busyThenReady

/-- The second call reports two bytes written and nothing has been sent. -/
theorem busy_output_lost :
    (busyThenReady.foldl Session.call (Session.start 7 (.v4 0x7F000001#32 2240) ())).done =
        [⟨[0x68, 0x69], 2, []⟩] ∧
      ¬ EveryState Session.call (AllDelivered 7 (.v4 0x7F000001#32 2240) ())
        (Session.start 7 (.v4 0x7F000001#32 2240) ()) busyThenReady := by
  have hdone : (busyThenReady.foldl Session.call
      (Session.start 7 (.v4 0x7F000001#32 2240) ())).done = [⟨[0x68, 0x69], 2, []⟩] := rfl
  refine ⟨hdone, ?_⟩
  intro hstates
  have hlast := hstates.last
  rw [AllDelivered, hdone] at hlast
  cases (hlast _ (List.mem_singleton_self _)).2

end Weverywhere.StdoutForwarder
