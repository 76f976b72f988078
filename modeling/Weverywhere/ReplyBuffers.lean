import Weverywhere.RelaySessions
import Weverywhere.ReplyLoops

/-!
What the four places that wait for replies get out of a datagram: `run_one_iface` and
`read_daemon_replies` (`src/src/command/run.rs`), `relay_one_peer`
(`src/src/command/serve.rs`) and `collect_until` (`src/src/command/netmap.rs`). Each has
a buffer of its own, and that of `read_daemon_replies` is smaller than a datagram may be.
-/
namespace Weverywhere.ReplyBuffers

open ByteStrings Bare Messages WireFormat Node Discovery ReplyLoops RelayWorld RelaySessions

/-- The payload of the longest UDP datagram. -/
def maxDatagram : ℕ := 65507

/-- What becomes of a datagram that is longer than the buffer: most systems drop the rest,
and one makes it an error. -/
inductive Overlong
  | clipped
  | refused
  deriving DecidableEq

/-- `&buf[..len]` after `recv`. -/
def recv (overlong : Overlong) (bufLen : ℕ) (datagram : Bytes) : Option Bytes :=
  if datagram.length ≤ bufLen then some datagram
  else
    match overlong with
    | .clipped => some (datagram.take bufLen)
    | .refused => none

/-- The message of a datagram that was received into a buffer. -/
def decodeReply (bufLen : ℕ) (overlong : Overlong) (datagram : Bytes) : Option NetworkMessage :=
  (recv overlong bufLen datagram).bind fromSlice

def relayOnePeerBuffer : ℕ := 64 * 1024

def collectUntilBuffer : ℕ := 64 * 1024

def runOneIfaceReply : Overlong → Bytes → Option NetworkMessage := decodeReply runOneIfaceBuffer

def readDaemonReply : Overlong → Bytes → Option NetworkMessage :=
  decodeReply readDaemonRepliesBuffer

def relayOnePeerReply : Overlong → Bytes → Option NetworkMessage := decodeReply relayOnePeerBuffer

def collectUntilReply : Overlong → Bytes → Option NetworkMessage := decodeReply collectUntilBuffer

/-- The datagram `relay_one_peer` sends on. -/
def relayed (overlong : Overlong) (callerUuid : Uuid) (datagram : Bytes) : Option Bytes := do
  let msg ← relayOnePeerReply overlong datagram
  let out ← rewritten callerUuid msg
  some (toVec out)

/-- What a node says to whoever asked it to run a program. -/
def IsReply : NetworkMessage → Prop
  | .basicInsecureProgramStdout _ _ => True
  | .basicInsecureProgramExit _ _ => True
  | .basicReturnMap _ _ _ => True
  | .basicReturnList _ _ _ => True
  | .executeRequest _ => False
  | .signedFabricMessage _ _ _ _ => False

/-- The reply comes out of every buffer as it was sent. -/
structure ReadWhole (overlong : Overlong) (message : NetworkMessage) : Prop where
  runOneIface : runOneIfaceReply overlong (toVec message) = some message
  readDaemonReplies : readDaemonReply overlong (toVec message) = some message
  relayOnePeer : relayOnePeerReply overlong (toVec message) = some message
  collectUntil : collectUntilReply overlong (toVec message) = some message

/-- A reply that has a UUID is sent on with the caller's in its place, byte for byte the
same before and behind it. -/
def SentOn (overlong : Overlong) (message : NetworkMessage) : Prop :=
  ∀ requestUuid ∈ requestUuidOf message, ∀ callerUuid, ∃ front back,
    toVec message = front ++ (requestUuid.toList ++ back) ∧
      relayed overlong callerUuid (toVec message) =
        some (front ++ (callerUuid.toList ++ back)) ∧
      (front ++ (callerUuid.toList ++ back)).length = (toVec message).length

theorem recv_of_le {bufLen : ℕ} {datagram : Bytes} (h : datagram.length ≤ bufLen)
    (overlong : Overlong) : recv overlong bufLen datagram = some datagram := if_pos h

theorem recv_refused {bufLen : ℕ} {datagram : Bytes} (h : ¬ datagram.length ≤ bufLen) :
    recv .refused bufLen datagram = none := if_neg h

theorem recv_clipped (bufLen : ℕ) (datagram : Bytes) :
    recv .clipped bufLen datagram = some (datagram.take bufLen) := by
  by_cases hlength : datagram.length ≤ bufLen
  · rw [recv_of_le hlength, List.take_of_length_le hlength]
  · exact if_neg hlength

/-- A message is decoded exactly when all of it is in the buffer. -/
theorem decodeReply_toVec_iff {message : NetworkMessage} (hfits : Fits message) (bufLen : ℕ)
    (overlong : Overlong) :
    decodeReply bufLen overlong (toVec message) = some message ↔
      (toVec message).length ≤ bufLen := by
  by_cases hlength : (toVec message).length ≤ bufLen
  · refine iff_of_true ?_ hlength
    rw [decodeReply, recv_of_le hlength]
    exact fromSlice_toVec message hfits
  · refine iff_of_false ?_ hlength
    intro hread
    cases overlong with
    | clipped =>
      -- what is left is too short for any encoding of the message
      rw [decodeReply, recv_clipped] at hread
      have hshort := toVec_length_le hread
      rw [List.length_take] at hshort
      omega
    | refused =>
      rw [decodeReply, recv_refused hlength] at hread
      cases hread

theorem fits_of_isReply {message : NetworkMessage} (hreply : IsReply message)
    (hlength : (toVec message).length ≤ maxDatagram) : Fits message := by
  have hbytes : ∀ data : Bytes, data.length ≤ (toVec message).length → data.length < 2 ^ 64 := by
    intro data hdata
    rw [maxDatagram] at hlength
    omega
  cases message with
  | executeRequest p => cases hreply
  | signedFabricMessage source id data signature => cases hreply
  | basicInsecureProgramExit fromPid exitCode => exact ⟨trivial, trivial⟩
  | basicInsecureProgramStdout fromPid data =>
    refine ⟨trivial, hbytes data ?_⟩
    simp only [toVec, stdoutFields, Codec.pair, Codec.bytes, List.length_append]
    omega
  | basicReturnMap fromPid requestUuid data =>
    refine ⟨trivial, trivial, hbytes data ?_⟩
    simp only [toVec, returnFields, Codec.pair, Codec.bytes, List.length_append]
    omega
  | basicReturnList fromPid requestUuid data =>
    refine ⟨trivial, trivial, hbytes data ?_⟩
    simp only [toVec, returnFields, Codec.pair, Codec.bytes, List.length_append]
    omega

/-- The relay writes the message anew, and only the UUID comes out different. -/
theorem sentOn_of_relayOnePeer {overlong : Overlong} {message : NetworkMessage}
    (hread : relayOnePeerReply overlong (toVec message) = some message) :
    SentOn overlong message := by
  intro requestUuid hrequest callerUuid
  have hlength : ∀ front back : Bytes, (front ++ (callerUuid.toList ++ back)).length =
      (front ++ (requestUuid.toList ++ back)).length := by
    intro front back
    simp only [List.length_append, Vector.length_toList]
  cases message with
  | basicReturnMap fromPid uuid data =>
    obtain rfl : uuid = requestUuid := Option.some.inj hrequest
    have hsplit : ∀ u : Uuid, toVec (.basicReturnMap fromPid u data) =
        uvarint 3 ++ Codec.u64.write fromPid ++ (u.toList ++ Codec.bytes.write data) := by
      intro u
      simp only [toVec, returnFields, Codec.pair, Codec.fixed, List.append_assoc]
    refine ⟨uvarint 3 ++ Codec.u64.write fromPid, Codec.bytes.write data, hsplit uuid, ?_, ?_⟩
    · rw [relayed, hread, ← hsplit callerUuid]
      rfl
    · rw [hsplit uuid]
      exact hlength _ _
  | basicReturnList fromPid uuid data =>
    obtain rfl : uuid = requestUuid := Option.some.inj hrequest
    have hsplit : ∀ u : Uuid, toVec (.basicReturnList fromPid u data) =
        uvarint 4 ++ Codec.u64.write fromPid ++ (u.toList ++ Codec.bytes.write data) := by
      intro u
      simp only [toVec, returnFields, Codec.pair, Codec.fixed, List.append_assoc]
    refine ⟨uvarint 4 ++ Codec.u64.write fromPid, Codec.bytes.write data, hsplit uuid, ?_, ?_⟩
    · rw [relayed, hread, ← hsplit callerUuid]
      rfl
    · rw [hsplit uuid]
      exact hlength _ _
  | _ => cases hrequest

/-- Every reply that fits a datagram reaches its client whole, through a relay or not,
exactly when it fits the buffer of `read_daemon_replies`. -/
theorem replies_whole_iff (overlong : Overlong) (message : NetworkMessage)
    (hreply : IsReply message) (hdatagram : (toVec message).length ≤ maxDatagram) :
    ReadWhole overlong message ∧ SentOn overlong message ↔
      (toVec message).length ≤ readDaemonRepliesBuffer := by
  have hfits := fits_of_isReply hreply hdatagram
  have hread : ∀ bufLen, maxDatagram ≤ bufLen →
      decodeReply bufLen overlong (toVec message) = some message :=
    fun bufLen hlen => (decodeReply_toVec_iff hfits bufLen overlong).mpr (hdatagram.trans hlen)
  have hrelay : relayOnePeerReply overlong (toVec message) = some message :=
    hread relayOnePeerBuffer (by decide)
  constructor
  · intro h
    exact (decodeReply_toVec_iff hfits _ overlong).mp h.1.readDaemonReplies
  · intro hlength
    refine ⟨⟨hread runOneIfaceBuffer (by decide), ?_, hrelay, hread collectUntilBuffer (by decide)⟩,
      sentOn_of_relayOnePeer hrelay⟩
    exact (decodeReply_toVec_iff hfits _ overlong).mpr hlength

theorem replies_whole_iff_exit :
    IsReply (.basicInsecureProgramExit 7 0) ∧
      (toVec (.basicInsecureProgramExit 7 0)).length ≤ maxDatagram ∧
      ReadWhole .clipped (.basicInsecureProgramExit 7 0) ∧
      SentOn .clipped (.basicInsecureProgramExit 7 0) := by
  have hdatagram : (toVec (.basicInsecureProgramExit 7 0)).length ≤ maxDatagram := by
    decide +kernel
  refine ⟨trivial, hdatagram,
    (replies_whole_iff .clipped (.basicInsecureProgramExit 7 0) trivial hdatagram).mpr ?_⟩
  decide +kernel

/-- One write of 16 KiB to the standard output. -/
def longStdout : NetworkMessage := .basicInsecureProgramStdout 7 (List.replicate 16384 0x61)

/-- It is a datagram, all other paths read it, and `read_daemon_replies` does not. -/
theorem long_stdout_lost :
    IsReply longStdout ∧ (toVec longStdout).length ≤ maxDatagram ∧
      ∀ overlong, runOneIfaceReply overlong (toVec longStdout) = some longStdout ∧
        readDaemonReply overlong (toVec longStdout) ≠ some longStdout := by
  have hlength : (toVec longStdout).length = 16396 := by
    have htag : (uvarint 1).length = 1 := by decide
    have hdata : (uvarint 16384).length = 3 := by decide
    simp only [longStdout, toVec, stdoutFields, Codec.pair, Codec.bytes, Codec.u64, Codec.little,
      List.length_append, leBytes_length, List.length_replicate, htag, hdata]
  have hdatagram : (toVec longStdout).length ≤ maxDatagram := by
    rw [hlength]
    decide
  have hfits : Fits longStdout := fits_of_isReply trivial hdatagram
  refine ⟨trivial, hdatagram, fun overlong => ⟨?_, ?_⟩⟩
  · apply (decodeReply_toVec_iff hfits _ overlong).mpr
    rw [hlength]
    decide
  · intro hread
    have hfit := (decodeReply_toVec_iff hfits _ overlong).mp hread
    rw [hlength] at hfit
    exact absurd hfit (by decide)

end Weverywhere.ReplyBuffers
