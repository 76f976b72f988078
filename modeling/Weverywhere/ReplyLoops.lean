import Weverywhere.Countdown
import Weverywhere.WireFormat

/-!
The two loops of the client that wait for replies (`src/src/command/run.rs`): the one
of `run_one_iface` and that of `read_daemon_replies`. Both wait 100 ms at a time, 24
times, and ten times more for every message they get.
-/
namespace Weverywhere.ReplyLoops

open ByteStrings Messages WireFormat Countdown

/-- What one `timeout(td, sock.recv(&mut buf))` comes back with. -/
inductive Receipt
  | datagram (bytes : Bytes)
  | socketError
  | timeout
  deriving DecidableEq

variable (decode : Bytes → Option NetworkMessage)

/-- Whether a message was received; the buffer holds the start of a datagram that is
longer. -/
def gotMessage (bufLen : ℕ) : Receipt → Bool
  | .datagram bytes => (decode (bytes.take bufLen)).isSome
  | .socketError => false
  | .timeout => false

def remaining100msChecks : ℕ := 24

def moreChecks : ℕ := 10

/-- A reply loop after `n` of its turns; `usize` has `usizeBits` bits. -/
def replyLoop (bufLen usizeBits : ℕ) (receipts : ℕ → Receipt) (n : ℕ) : Countdown.State :=
  after (2 ^ usizeBits) moreChecks (gotMessage decode bufLen) remaining100msChecks receipts n

def runOneIfaceBuffer : ℕ := 64 * 1024

def readDaemonRepliesBuffer : ℕ := 16 * 1024

/-- The loop of `run_one_iface`. -/
def runOneIface : ℕ → (ℕ → Receipt) → ℕ → Countdown.State := replyLoop decode runOneIfaceBuffer

/-- The loop of `read_daemon_replies`. -/
def readDaemonReplies : ℕ → (ℕ → Receipt) → ℕ → Countdown.State :=
  replyLoop decode readDaemonRepliesBuffer

/-- How many messages the first `n` turns got. -/
def messagesIn (bufLen : ℕ) (receipts : ℕ → Receipt) (n : ℕ) : ℕ :=
  refillsIn (gotMessage decode bufLen) receipts n

/-- What a wait promises while no more than `messages` messages come. -/
structure WaitEnds (messages : ℕ) (messagesIn : ℕ → ℕ) (loop : ℕ → Countdown.State) : Prop where
  no_underflow : ∀ n, loop n ≠ .underflow
  no_overflow : ∀ n, messagesIn n ≤ messages → loop n ≠ .overflow
  /-- It stops at the first turn whose number has caught up with all checks granted. -/
  stopped_iff : ∀ n, messagesIn n ≤ messages →
    (loop n = .stopped ↔ ∃ m ≤ n, remaining100msChecks + moreChecks * messagesIn m ≤ m)
  stops : messagesIn (remaining100msChecks + moreChecks * messages) ≤ messages →
    loop (remaining100msChecks + moreChecks * messages) = .stopped

theorem waitEnds_replyLoop {bufLen usizeBits messages : ℕ}
    (hrange : remaining100msChecks + (moreChecks - 1) * messages < 2 ^ usizeBits)
    (receipts : ℕ → Receipt) :
    WaitEnds messages (messagesIn decode bufLen receipts)
      (replyLoop decode bufLen usizeBits receipts) := by
  have hlimit : ∀ n, messagesIn decode bufLen receipts n ≤ messages →
      remaining100msChecks + (moreChecks - 1) * messagesIn decode bufLen receipts n <
        2 ^ usizeBits := by
    intro n hn
    have hmul := Nat.mul_le_mul_left (moreChecks - 1) hn
    omega
  constructor
  · exact after_ne_underflow _ _ _ _ receipts
  · intro n hn
    exact after_ne_overflow _ _ _ (hlimit n hn)
  · intro n hn
    exact after_stopped_iff _ _ _ (hlimit n hn)
  · intro hn
    apply (after_stopped_iff _ _ _ (hlimit _ hn)).mpr
    refine ⟨_, le_rfl, ?_⟩
    have hmul := Nat.mul_le_mul_left moreChecks hn
    exact Nat.add_le_add_left hmul _

/-- Both waits end within 24 turns and ten more for every message: nothing else the
remote side sends prolongs them. -/
theorem waiting_ends (usizeBits messages : ℕ)
    (hrange : remaining100msChecks + (moreChecks - 1) * messages < 2 ^ usizeBits)
    (receipts : ℕ → Receipt) :
    WaitEnds messages (messagesIn decode runOneIfaceBuffer receipts)
        (runOneIface decode usizeBits receipts) ∧
      WaitEnds messages (messagesIn decode readDaemonRepliesBuffer receipts)
        (readDaemonReplies decode usizeBits receipts) :=
  ⟨waitEnds_replyLoop decode hrange receipts, waitEnds_replyLoop decode hrange receipts⟩

/-- A program that has exited says so once, and then nobody says anything. -/
def oneReply : ℕ → Receipt
  | 0 => .datagram (toVec (.basicInsecureProgramExit 7 0))
  | _ + 1 => .timeout

theorem waiting_ends_one_reply :
    remaining100msChecks + (moreChecks - 1) * 1 < 2 ^ 64 ∧
      WaitEnds 1 (messagesIn fromSlice runOneIfaceBuffer oneReply)
        (runOneIface fromSlice 64 oneReply) ∧
      WaitEnds 1 (messagesIn fromSlice readDaemonRepliesBuffer oneReply)
        (readDaemonReplies fromSlice 64 oneReply) := by
  have hrange : remaining100msChecks + (moreChecks - 1) * 1 < 2 ^ 64 := by decide
  exact ⟨hrange, waiting_ends fromSlice 64 1 hrange oneReply⟩

/-- A sender that says the same thing over and over. -/
def replyForever (_ : ℕ) : Receipt := .datagram (toVec (.basicInsecureProgramExit 7 0))

theorem exit_message_received {bufLen : ℕ} (hlen : 16 ≤ bufLen) (n : ℕ) :
    gotMessage fromSlice bufLen (replyForever n) = true := by
  have hwhole : (toVec (.basicInsecureProgramExit 7 0)).length ≤ 16 := by decide +kernel
  rw [replyForever, gotMessage, List.take_of_length_le (Nat.le_trans hwhole hlen), fromSlice_toVec]
  · rfl
  · exact ⟨trivial, trivial⟩

/-- No number of turns is enough for whatever is received, for either loop. -/
theorem waiting_unbounded :
    ¬ ∃ bound, ∀ receipts, runOneIface fromSlice 64 receipts bound = .stopped ∨
      readDaemonReplies fromSlice 64 receipts bound = .stopped := by
  intro hbounded
  obtain ⟨bound, hbounded⟩ := hbounded
  have hloop : ∀ bufLen, 16 ≤ bufLen →
      replyLoop fromSlice bufLen 64 replyForever bound ≠ .stopped := by
    intro bufLen hlen
    exact after_ne_stopped _ _ _ (by decide) (by decide) (exit_message_received hlen) bound
  rcases hbounded replyForever with hstopped | hstopped
  · exact hloop runOneIfaceBuffer (by decide) hstopped
  · exact hloop readDaemonRepliesBuffer (by decide) hstopped

end Weverywhere.ReplyLoops
