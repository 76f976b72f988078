import Mathlib.Data.List.Sort
import Mathlib.Data.Multiset.AddSub
import Mathlib.Data.Multiset.MapFold
import Weverywhere.QuietWindow
import Weverywhere.ReplyBuffers

/-!
The time a discovery takes. The maps that nodes return come up to the origin through
one relay for each forwarded request (`relay_one_peer` in `src/src/command/serve.rs`),
which gives up when nothing has come for a while, and at the origin the window of
`collect_until` (`src/src/command/netmap.rs`) must still be open. Times are in
milliseconds. What reading, decoding and sending on take counts as part of the way.
-/
namespace Weverywhere.RelayTiming

open ByteStrings Identity Messages Discovery RelayWorld WireFormat ReplyBuffers QuietWindow

def relayQuietTimeoutMs : ℕ := 1500

def relayMaxMs : ℕ := 9000

/-- The collection window of `netmap`. -/
def collectMs : ℕ := 12000

/-- What `recv_from` comes back with, from the moment `time` on; `none` is an error of
the socket. -/
structure Received where
  time : ℕ
  result : Option (SocketAddr × Bytes)

namespace Received

def message (r : Received) : Option NetworkMessage :=
  r.result.bind fun result => relayOnePeerReply .clipped result.2

/-- A map or a list that some program has returned. -/
def isReturn (r : Received) : Bool :=
  match r.message with
  | some (.basicReturnMap ..) => true
  | some (.basicReturnList ..) => true
  | _ => false

end Received

/-- What a relay makes of it. -/
def sentOn (callerUuid : Uuid) (r : Received) : Option Bytes :=
  r.result.bind fun result => relayed .clipped callerUuid result.2

/-- The loop of `relay_one_peer`: what is sent to the caller, and when. -/
def relayLoop (callerUuid : Uuid) (start : ℕ) : ℕ → List Received → List (ℕ × Bytes)
  | _, [] => []
  | now, r :: rest =>
    if start + relayMaxMs ≤ now then []
    else if now + relayQuietTimeoutMs < r.time then []
    else if r.result.isNone then []
    else (sentOn callerUuid r).toList.map (max now r.time, ·) ++
      relayLoop callerUuid start (max now r.time) rest

/-- `relay_one_peer`, once its request is on the way. -/
def relayOnePeer (callerUuid : Uuid) (start : ℕ) (arrivals : List Received) : List (ℕ × Bytes) :=
  relayLoop callerUuid start start arrivals

/-- What a collector makes of it. -/
def entry (requestUuid : Uuid) (r : Received) : Option (SocketAddr × Bytes) :=
  r.result.bind fun result =>
    ((collectUntilReply .clipped result.2).bind (collected requestUuid)).map fun m =>
      (result.1, m.2)

def collectUntil (requestUuid : Uuid) (deadline : ℕ) :
    ℕ → List Received → List (SocketAddr × Bytes)
  | _, [] => []
  | now, r :: rest =>
    if deadline ≤ now then []
    else if deadline < r.time then []
    else if r.result.isNone then []
    else (entry requestUuid r).toList ++ collectUntil requestUuid deadline (max now r.time) rest

/-! Both loops listen. -/

def relayPatience (start now : ℕ) : Option ℕ :=
  if start + relayMaxMs ≤ now then none else some (now + relayQuietTimeoutMs)

def collectPatience (deadline now : ℕ) : Option ℕ :=
  if deadline ≤ now then none else some deadline

theorem relayLoop_eq (callerUuid : Uuid) (start now : ℕ) (arrivals : List Received)
    (hok : ∀ r ∈ arrivals, r.result.isSome = true) :
    relayLoop callerUuid start now arrivals =
      (heard Received.time (relayPatience start) now arrivals).filterMap fun s =>
        (sentOn callerUuid s.2).map (s.1, ·) := by
  induction arrivals generalizing now with
  | nil => rfl
  | cons r rest ih =>
    have hr : ¬ r.result.isNone = true := by
      have hsome := hok r List.mem_cons_self
      simp [Option.isSome_iff_ne_none.mp hsome]
    have hrest := ih (max now r.time) fun x hx => hok x (List.mem_cons_of_mem r hx)
    rw [relayLoop, heard, relayPatience]
    by_cases hover : start + relayMaxMs ≤ now
    · simp [hover]
    · by_cases hquiet : now + relayQuietTimeoutMs < r.time
      · simp [hover, hquiet]
      · simp only [hover, hquiet, hr, if_false, hrest, List.filterMap_cons]
        cases sentOn callerUuid r with
        | none => rfl
        | some data => rfl

theorem collectUntil_eq (requestUuid : Uuid) (deadline now : ℕ) (arrivals : List Received)
    (hok : ∀ r ∈ arrivals, r.result.isSome = true) :
    collectUntil requestUuid deadline now arrivals =
      (heard Received.time (collectPatience deadline) now arrivals).filterMap fun s =>
        entry requestUuid s.2 := by
  induction arrivals generalizing now with
  | nil => rfl
  | cons r rest ih =>
    have hr : ¬ r.result.isNone = true := by
      have hsome := hok r List.mem_cons_self
      simp [Option.isSome_iff_ne_none.mp hsome]
    have hrest := ih (max now r.time) fun x hx => hok x (List.mem_cons_of_mem r hx)
    rw [collectUntil, heard, collectPatience]
    by_cases hover : deadline ≤ now
    · simp [hover]
    · by_cases hlate : deadline < r.time
      · simp [hover, hlate]
      · simp only [hover, hlate, hr, if_false, hrest, List.filterMap_cons]
        cases entry requestUuid r with
        | none => rfl
        | some e => rfl

/-! The requests of a discovery. -/

/-- A request put to a node, and what comes back of it. -/
structure Exchange where
  /-- Where the node's datagrams come from. -/
  address : SocketAddr
  /-- The socket that asked listens from here on. -/
  asked : ℕ
  /-- The node's own map leaves. -/
  replied : ℕ
  fromPid : UInt64
  requestUuid : Uuid
  record : Bytes
  /-- The time that each datagram the node sends takes to the socket that asked. -/
  delay : ℕ → ℕ
  /-- The shortest of these. -/
  least : ℕ
  /-- What else comes to that socket. -/
  others : List Received

/-- A request and what the node forwards because of it. -/
inductive Answer
  | mk (exchange : Exchange) (forwarded : List Answer)

def Answer.exchange : Answer → Exchange
  | .mk x _ => x

def Exchange.reply (x : Exchange) : NetworkMessage :=
  .basicReturnMap x.fromPid x.requestUuid x.record

/-- What the node sends, as it comes to the socket that asked. -/
def Exchange.travel (x : Exchange) (sent : List (ℕ × Bytes)) : List Received :=
  (sent.filter fun s => s.2.length ≤ maxDatagram).mapIdx fun k s =>
    ⟨s.1 + x.delay k, some (x.address, s.2)⟩

def inOrder (arrivals : List Received) : List Received :=
  arrivals.insertionSort fun a b => a.time ≤ b.time

mutual

/-- What comes to the socket that asked: the node sends its own map and what its relays
bring. -/
def Answer.arrivals : Answer → List Received
  | .mk x forwarded =>
    inOrder (x.travel ((x.replied, toVec x.reply) :: relayedFor x.requestUuid forwarded) ++
      x.others)

def relayedFor (callerUuid : Uuid) : List Answer → List (ℕ × Bytes)
  | [] => []
  | a :: rest =>
    relayOnePeer callerUuid a.exchange.asked a.arrivals ++ relayedFor callerUuid rest

end

mutual

/-- All requests, from the first to the last that was forwarded. -/
def Answer.exchanges : Answer → List Exchange
  | .mk x forwarded => x :: exchangesOf forwarded

def exchangesOf : List Answer → List Exchange
  | [] => []
  | a :: rest => a.exchanges ++ exchangesOf rest

end

/-- When a map is due at the socket that asked, every datagram taking its shortest time. -/
structure Due where
  time : ℕ
  fromPid : UInt64
  record : Bytes

def Due.later (delay : ℕ) (d : Due) : Due := { d with time := d.time + delay }

def Exchange.own (x : Exchange) : Due := ⟨x.replied, x.fromPid, x.record⟩

mutual

def Answer.dues : Answer → List Due
  | .mk x forwarded => (x.own :: duesOf forwarded).map (Due.later x.least)

def duesOf : List Answer → List Due
  | [] => []
  | a :: rest => a.dues ++ duesOf rest

end

/-- A node replies once it is asked, its datagrams take more than the shortest time by
at most `jitter`, its map is not too long for one, and what else comes to the socket
that asked is no map or list. -/
structure Exchange.Sound (jitter : ℕ) (x : Exchange) : Prop where
  replied : x.asked ≤ x.replied
  delay : ∀ k, x.least ≤ x.delay k ∧ x.delay k ≤ x.least + jitter
  short : (toVec x.reply).length ≤ maxDatagram
  others : ∀ r ∈ x.others, r.result.isSome = true ∧ r.isReturn = false

/-- Nodes forward what they have replied to. The map of whom a node asks is due at the
node's socket no more than `soon` after the node's own map has left, and whatever that
one brings is due there, `slack` included, while the relay still begins to wait. -/
inductive Prompt (jitter soon slack : ℕ) : ℕ → Answer → Prop
  | mk {hops : ℕ} {x : Exchange} {forwarded : List Answer} (sound : x.Sound jitter)
      (after : ∀ a ∈ forwarded, x.replied ≤ a.exchange.asked)
      (due : ∀ a ∈ forwarded, a.exchange.replied + a.exchange.least ≤ x.replied + soon)
      (inside : ∀ a ∈ forwarded, ∀ d ∈ a.dues, d.time + slack < a.exchange.asked + relayMaxMs)
      (deeper : ∀ a ∈ forwarded, Prompt jitter soon slack hops a) :
      Prompt jitter soon slack (hops + 1) (.mk x forwarded)

theorem mem_duesOf {forwarded : List Answer} {d : Due} :
    d ∈ duesOf forwarded ↔ ∃ a ∈ forwarded, d ∈ a.dues := by
  induction forwarded with
  | nil => simp [duesOf]
  | cons a rest ih => simp [duesOf, ih]

/-- What is due at the socket is the node's own map or was due at one of its relays. -/
theorem Answer.mem_dues {x : Exchange} {forwarded : List Answer} {d : Due} :
    d ∈ (Answer.mk x forwarded).dues ↔
      d = x.own.later x.least ∨ ∃ a ∈ forwarded, ∃ e ∈ a.dues, d = e.later x.least := by
  rw [Answer.dues, List.map_cons, List.mem_cons, List.mem_map]
  refine or_congr_right ?_
  constructor
  · rintro ⟨e, he, rfl⟩
    obtain ⟨a, ha, hea⟩ := mem_duesOf.mp he
    exact ⟨a, ha, e, hea, rfl⟩
  · rintro ⟨a, ha, e, hea, rfl⟩
    exact ⟨e, mem_duesOf.mpr ⟨a, ha, hea⟩, rfl⟩

mutual

theorem Answer.map_record_dues : ∀ a : Answer,
    a.dues.map Due.record = a.exchanges.map Exchange.record
  | .mk x forwarded => by
    have hrest := map_record_duesOf forwarded
    rw [Answer.dues, Answer.exchanges, List.map_map, List.map_cons, List.map_cons, ← hrest]
    rfl

theorem map_record_duesOf : ∀ forwarded : List Answer,
    (duesOf forwarded).map Due.record = (exchangesOf forwarded).map Exchange.record
  | [] => rfl
  | a :: rest => by
    have ha := Answer.map_record_dues a
    have hrest := map_record_duesOf rest
    rw [duesOf, exchangesOf, List.map_append, List.map_append, ha, hrest]

end

section Times

variable {jitter soon slack hops : ℕ} {a : Answer}

theorem Prompt.asked_le (h : Prompt jitter soon slack hops a) :
    ∀ d ∈ a.dues, a.exchange.asked ≤ d.time := by
  induction h with
  | @mk hops x forwarded sound after due inside deeper ih =>
    intro d hd
    have hreplied := sound.replied
    rcases Answer.mem_dues.mp hd with rfl | ⟨a, ha, e, he, rfl⟩
    · exact Nat.le_add_right_of_le hreplied
    · have hafter := after a ha
      have hasked := ih a ha e he
      simp only [Answer.exchange, Due.later]
      omega

theorem Prompt.sound (h : Prompt jitter soon slack hops a) : a.exchange.Sound jitter := by
  cases h with
  | mk sound after due inside deeper => exact sound

/-- The maps of a subtree feed each other, each map those of the nodes behind it. -/
theorem Prompt.fed (h : Prompt jitter soon slack hops a) {since : ℕ}
    (hsince : a.exchange.replied + a.exchange.least ≤ since + soon) :
    ∀ d ∈ a.dues, Fed Due.time soon since a.dues d.time := by
  induction h generalizing since with
  | @mk hops x forwarded sound after due inside deeper ih =>
    have hown : x.own.later x.least ∈ (Answer.mk x forwarded).dues :=
      Answer.mem_dues.mpr (.inl rfl)
    have hfirst : Fed Due.time soon since (Answer.mk x forwarded).dues
        (x.own.later x.least).time := .start hsince
    intro d hd
    rcases Answer.mem_dues.mp hd with rfl | ⟨a, ha, e, he, rfl⟩
    · exact hfirst
    · have hfed := ih a ha (due a ha) e he
      refine hfed.behind hown hfirst (Nat.le_refl _) ?_
      intro e' he'
      exact ⟨e'.later x.least, Answer.mem_dues.mpr (.inr ⟨a, ha, e', he', rfl⟩), rfl⟩

end Times

/-! What is due and what comes. -/

/-- The datagram brings what is due, too late by no more than `late`. -/
structure Carries (source : SocketAddr) (uuid : Uuid) (late : ℕ) (d : Due) (r : Received) :
    Prop where
  due_le : d.time ≤ r.time
  le_due : r.time ≤ d.time + late
  result : r.result = some (source, toVec (.basicReturnMap d.fromPid uuid d.record))
  short : (toVec (.basicReturnMap d.fromPid uuid d.record)).length ≤ maxDatagram

/-- The same of what is sent on. -/
structure Brings (uuid : Uuid) (late : ℕ) (d : Due) (sent : ℕ × Bytes) : Prop where
  due_le : d.time ≤ sent.1
  le_due : sent.1 ≤ d.time + late
  data : sent.2 = toVec (.basicReturnMap d.fromPid uuid d.record)
  short : sent.2.length ≤ maxDatagram

section Related

variable {α β γ : Type} {R : α → β → Prop} {R' : α → γ → Prop} {dues : Multiset α}

theorem rel_mapIdx {sent : List β} (h : Multiset.Rel R dues sent) {f : ℕ → β → γ}
    (hf : ∀ k a b, R a b → R' a (f k b)) : Multiset.Rel R' dues (sent.mapIdx f) := by
  induction sent generalizing dues f with
  | nil =>
    rw [Multiset.coe_nil, Multiset.rel_zero_right] at h
    rw [h, List.mapIdx_nil, Multiset.coe_nil]
    exact Multiset.Rel.zero
  | cons b sent ih =>
    rw [← Multiset.cons_coe, Multiset.rel_cons_right] at h
    obtain ⟨a, rest, hab, hrest, rfl⟩ := h
    rw [List.mapIdx_cons, ← Multiset.cons_coe]
    exact Multiset.Rel.cons (hf 0 a b hab) (ih hrest fun k => hf (k + 1))

theorem rel_filterMap {arrivals : List β} (h : Multiset.Rel R dues arrivals)
    {f : β → Option γ} (hf : ∀ a ∈ dues, ∀ b, R a b → ∃ c, f b = some c ∧ R' a c) :
    Multiset.Rel R' dues (arrivals.filterMap f) := by
  induction arrivals generalizing dues with
  | nil =>
    rw [Multiset.coe_nil, Multiset.rel_zero_right] at h
    rw [h, List.filterMap_nil, Multiset.coe_nil]
    exact Multiset.Rel.zero
  | cons b arrivals ih =>
    rw [← Multiset.cons_coe, Multiset.rel_cons_right] at h
    obtain ⟨a, rest, hab, hrest, rfl⟩ := h
    obtain ⟨c, hc, hac⟩ := hf a (Multiset.mem_cons_self a rest) b hab
    rw [List.filterMap_cons, hc, ← Multiset.cons_coe]
    exact Multiset.Rel.cons hac (ih hrest fun a' ha' => hf a' (Multiset.mem_cons_of_mem ha'))

theorem exists_of_rel_left {arrivals : List β} (h : Multiset.Rel R dues arrivals) {a : α}
    (ha : a ∈ dues) : ∃ b ∈ arrivals, R a b :=
  Multiset.exists_mem_of_rel_of_mem h ha

theorem exists_of_rel_right {arrivals : List β} (h : Multiset.Rel R dues arrivals) {b : β}
    (hb : b ∈ arrivals) : ∃ a ∈ dues, R a b :=
  Multiset.exists_mem_of_rel_of_mem (Multiset.rel_flip.mpr h) hb

end Related

/-- The length of a map's datagram does not depend on the UUID. -/
theorem length_toVec_map (fromPid : UInt64) (uuid uuid' : Uuid) (record : Bytes) :
    (toVec (.basicReturnMap fromPid uuid record)).length =
      (toVec (.basicReturnMap fromPid uuid' record)).length := by
  simp [toVec, returnFields, Bare.Codec.pair, Bare.Codec.fixed]

namespace Carries

variable {source : SocketAddr} {uuid : Uuid} {late : ℕ} {d : Due} {r : Received}
  (h : Carries source uuid late d r)

include h

theorem message_eq : r.message = some (.basicReturnMap d.fromPid uuid d.record) := by
  have hfits : Fits (.basicReturnMap d.fromPid uuid d.record) := fits_of_isReply trivial h.short
  rw [Received.message, h.result, Option.bind_some]
  exact (decodeReply_toVec_iff hfits relayOnePeerBuffer .clipped).mpr
    (Nat.le_trans h.short (by decide))

theorem isReturn : r.isReturn = true := by
  rw [Received.isReturn, h.message_eq]

/-- A relay sends the map on under the caller's UUID. -/
theorem sentOn (callerUuid : Uuid) :
    ∃ data, sentOn callerUuid r = some data ∧ Brings callerUuid late d (r.time, data) := by
  have hmessage := h.message_eq
  rw [Received.message, h.result, Option.bind_some] at hmessage
  refine ⟨toVec (.basicReturnMap d.fromPid callerUuid d.record), ?_, h.due_le, h.le_due, rfl, ?_⟩
  · rw [RelayTiming.sentOn, h.result, Option.bind_some, relayed, hmessage]
    rfl
  · rw [length_toVec_map d.fromPid callerUuid uuid d.record]
    exact h.short

/-- A collector takes the map that bears its UUID. -/
theorem entry_eq : entry uuid r = some (source, d.record) := by
  have hmessage : collectUntilReply .clipped (toVec (.basicReturnMap d.fromPid uuid d.record)) =
      some (.basicReturnMap d.fromPid uuid d.record) := by
    have hread := h.message_eq
    rwa [Received.message, h.result, Option.bind_some] at hread
  rw [entry, h.result, Option.bind_some, hmessage, Option.bind_some, collected, if_pos rfl,
    Option.map_some]

end Carries

theorem sentOn_eq_none {r : Received} (h : r.isReturn = false) (callerUuid : Uuid) :
    sentOn callerUuid r = none := by
  rw [Received.isReturn, Received.message] at h
  rw [sentOn]
  cases hresult : r.result with
  | none => rfl
  | some result =>
    rw [hresult, Option.bind_some] at h
    rw [Option.bind_some, relayed]
    cases hmessage : relayOnePeerReply .clipped result.2 with
    | none => rfl
    | some m =>
      rw [hmessage] at h
      cases m with
      | basicReturnMap => cases h
      | basicReturnList => cases h
      | _ => rfl

theorem entry_eq_none {r : Received} (h : r.isReturn = false) (requestUuid : Uuid) :
    entry requestUuid r = none := by
  rw [Received.isReturn, Received.message] at h
  rw [entry]
  cases hresult : r.result with
  | none => rfl
  | some result =>
    rw [hresult, Option.bind_some] at h
    rw [Option.bind_some]
    cases hmessage : collectUntilReply .clipped result.2 with
    | none => rfl
    | some m =>
      rw [show relayOnePeerReply .clipped result.2 = some m from hmessage] at h
      cases m with
      | basicReturnMap => cases h
      | _ => rfl

/-! A relay that is fed. -/

theorem pairwise_inOrder (arrivals : List Received) :
    (inOrder arrivals).Pairwise fun a b => a.time ≤ b.time := by
  have htotal : Std.Total fun a b : Received => a.time ≤ b.time :=
    ⟨fun a b => Nat.le_total a.time b.time⟩
  have htrans : IsTrans Received fun a b => a.time ≤ b.time := ⟨fun _ _ _ => Nat.le_trans⟩
  exact List.pairwise_insertionSort _ arrivals

theorem perm_inOrder (arrivals : List Received) : (inOrder arrivals).Perm arrivals :=
  List.perm_insertionSort _ arrivals

/-- A relay passes on what it hears of maps and lists. -/
theorem relayOnePeer_eq {callerUuid : Uuid} {start : ℕ} {arrivals : List Received}
    (hok : ∀ r ∈ arrivals, r.result.isSome = true)
    (hsorted : arrivals.Pairwise fun a b => a.time ≤ b.time)
    (hinside : ∀ r ∈ arrivals, r.isReturn = true → r.time < start + relayMaxMs)
    (hfed : ∀ r ∈ arrivals, r.isReturn = true →
      Fed Received.time relayQuietTimeoutMs start arrivals r.time) :
    relayOnePeer callerUuid start arrivals =
      (arrivals.filter Received.isReturn).filterMap fun r =>
        (sentOn callerUuid r).map (max start r.time, ·) := by
  have hpatience : ∀ now < start + relayMaxMs,
      relayPatience start now = some (now + relayQuietTimeoutMs) := by
    intro now hnow
    rw [relayPatience, if_neg (Nat.not_le.mpr hnow)]
  have hheard := filter_heard_quiet Received.isReturn hpatience hsorted
    (Nat.lt_add_of_pos_right (by decide)) hinside hfed
  rw [relayOnePeer, relayLoop_eq callerUuid start start arrivals hok, filterMap_heard hheard]
  intro s hs
  rw [sentOn_eq_none hs, Option.map_none]

theorem collectUntil_eq_filterMap {requestUuid : Uuid} {start deadline : ℕ}
    {arrivals : List Received} (hok : ∀ r ∈ arrivals, r.result.isSome = true)
    (hsorted : arrivals.Pairwise fun a b => a.time ≤ b.time) (hstart : start < deadline)
    (hinside : ∀ r ∈ arrivals, r.isReturn = true → r.time < deadline) :
    collectUntil requestUuid deadline start arrivals =
      (arrivals.filter Received.isReturn).filterMap (entry requestUuid) := by
  have hpatience : ∀ now < deadline, collectPatience deadline now = some deadline := by
    intro now hnow
    rw [collectPatience, if_neg (Nat.not_le.mpr hnow)]
  have hheard := filter_heard_deadline Received.isReturn hpatience hsorted hstart hinside
  rw [collectUntil_eq requestUuid deadline start arrivals hok, filterMap_heard hheard]
  exact fun s hs => entry_eq_none hs requestUuid

section Discovery

variable {jitter soon slack hops : ℕ} {a : Answer}

theorem rel_relayedFor {callerUuid : Uuid} {late : ℕ} {forwarded : List Answer}
    (h : ∀ a ∈ forwarded, Multiset.Rel (Brings callerUuid late) a.dues
      (relayOnePeer callerUuid a.exchange.asked a.arrivals)) :
    Multiset.Rel (Brings callerUuid late) (duesOf forwarded) (relayedFor callerUuid forwarded) := by
  induction forwarded with
  | nil => exact Multiset.Rel.zero
  | cons a rest ih =>
    rw [duesOf, relayedFor, ← Multiset.coe_add, ← Multiset.coe_add]
    apply Multiset.Rel.add
    · exact h a List.mem_cons_self
    · exact ih fun b hb => h b (List.mem_cons_of_mem a hb)

/-- Whatever comes to the socket that asked comes in order and is no error. -/
theorem Answer.sorted (a : Answer) : a.arrivals.Pairwise fun r r' => r.time ≤ r'.time := by
  obtain ⟨x, forwarded⟩ := a
  rw [Answer.arrivals]
  exact pairwise_inOrder _

theorem Exchange.travel_isSome {x : Exchange} {sent : List (ℕ × Bytes)} :
    ∀ r ∈ x.travel sent, r.result.isSome = true := by
  intro r hr
  obtain ⟨k, hk, rfl⟩ := List.mem_mapIdx.mp hr
  rfl

theorem Prompt.isSome (h : Prompt jitter soon slack hops a) :
    ∀ r ∈ a.arrivals, r.result.isSome = true := by
  have hsound := h.sound
  obtain ⟨x, forwarded⟩ := a
  intro r hr
  rw [Answer.arrivals] at hr
  rcases List.mem_append.mp ((perm_inOrder _).subset hr) with hr | hr
  · exact Exchange.travel_isSome r hr
  · exact (hsound.others r hr).1

/-- A relay whose subtree is prompt passes on all that is due. -/
theorem Prompt.rel_relayOnePeer (h : Prompt jitter soon slack hops a)
    (hsoon : soon + slack ≤ relayQuietTimeoutMs) {late since : ℕ} (hlate : late ≤ slack)
    (hrel : Multiset.Rel (Carries a.exchange.address a.exchange.requestUuid late)
      a.dues (a.arrivals.filter Received.isReturn))
    (hafter : since ≤ a.exchange.asked)
    (hdue : a.exchange.replied + a.exchange.least ≤ since + soon)
    (hinside : ∀ d ∈ a.dues, d.time + slack < a.exchange.asked + relayMaxMs)
    (callerUuid : Uuid) :
    Multiset.Rel (Brings callerUuid late) a.dues
      (relayOnePeer callerUuid a.exchange.asked a.arrivals) := by
  have hreturn : ∀ r ∈ a.arrivals, r.isReturn = true → ∃ d ∈ a.dues,
      Carries a.exchange.address a.exchange.requestUuid late d r := by
    intro r hr hkeep
    exact exists_of_rel_right hrel (List.mem_filter.mpr ⟨hr, hkeep⟩)
  rw [relayOnePeer_eq h.isSome a.sorted]
  · refine rel_filterMap hrel fun d hd r hcarries => ?_
    obtain ⟨data, hdata, hbrings⟩ := hcarries.sentOn callerUuid
    have hmoment : max a.exchange.asked r.time = r.time :=
      Nat.max_eq_right (Nat.le_trans (h.asked_le d hd) hcarries.due_le)
    exact ⟨(r.time, data), by rw [hdata, Option.map_some, hmoment], hbrings⟩
  · intro r hr hkeep
    obtain ⟨d, hd, hcarries⟩ := hreturn r hr hkeep
    have hle := hcarries.le_due
    have hlimit := hinside d hd
    omega
  · intro r hr hkeep
    obtain ⟨d, hd, hcarries⟩ := hreturn r hr hkeep
    have hcome : ∀ e ∈ a.dues, ∃ r ∈ a.arrivals,
        e.time ≤ r.time ∧ r.time ≤ e.time + (relayQuietTimeoutMs - soon) := by
      intro e he
      obtain ⟨r, hr, hcarries⟩ := exists_of_rel_left hrel he
      have hle := hcarries.le_due
      exact ⟨r, (List.mem_filter.mp hr).1, hcarries.due_le, by omega⟩
    have hle := hcarries.le_due
    have hquiet := (h.fed hdue d hd).late hcome hafter
      (hle.trans (Nat.add_le_add_left (by omega) _))
    rwa [Nat.add_sub_cancel' (by omega)] at hquiet

/-- What a node sends comes to the socket that asked. -/
theorem Exchange.Sound.rel_travel {x : Exchange} (h : x.Sound jitter) {late : ℕ}
    {dues : List Due} {sent : List (ℕ × Bytes)}
    (hsent : Multiset.Rel (Brings x.requestUuid late) dues sent) :
    Multiset.Rel (Carries x.address x.requestUuid (late + jitter))
      (dues.map (Due.later x.least)) (x.travel sent) := by
  have hfits : ∀ s ∈ sent, s.2.length ≤ maxDatagram := by
    intro s hs
    obtain ⟨d, hd, hbrings⟩ := exists_of_rel_right hsent hs
    exact hbrings.short
  rw [Exchange.travel, List.filter_eq_self.mpr fun s hs => decide_eq_true (hfits s hs)]
  rw [← Multiset.map_coe, Multiset.rel_map_left]
  refine rel_mapIdx hsent ?_
  intro k d s hbrings
  obtain ⟨hleast, hmost⟩ := h.delay k
  have hdue := hbrings.due_le
  have hlate := hbrings.le_due
  refine ⟨Nat.add_le_add hdue hleast, ?_, ?_, ?_⟩
  · simp only [Due.later]
    omega
  · exact congrArg (fun data => some (x.address, data)) hbrings.data
  · have hshort := hbrings.short
    rw [hbrings.data] at hshort
    exact hshort

/-- The maps and lists among what comes are what the node has sent. -/
theorem Exchange.Sound.filter_arrivals {x : Exchange} (h : x.Sound jitter)
    {forwarded : List Answer}
    (hreturns : ∀ r ∈ x.travel ((x.replied, toVec x.reply) :: relayedFor x.requestUuid forwarded),
      r.isReturn = true) :
    ((Answer.mk x forwarded).arrivals.filter Received.isReturn).Perm
      (x.travel ((x.replied, toVec x.reply) :: relayedFor x.requestUuid forwarded)) := by
  have hothers : x.others.filter Received.isReturn = [] := by
    rw [List.filter_eq_nil_iff]
    intro r hr
    simp [(h.others r hr).2]
  rw [Answer.arrivals]
  refine ((perm_inOrder _).filter _).trans ?_
  rw [List.filter_append, List.filter_eq_self.mpr hreturns, hothers, List.append_nil]

/-- The maps at the socket that asked are those due there, each late by no more than
the jitter of its hops. -/
theorem Prompt.rel_arrivals (h : Prompt jitter soon slack hops a)
    (hslack : jitter * hops ≤ slack) (hsoon : soon + slack ≤ relayQuietTimeoutMs) :
    Multiset.Rel (Carries a.exchange.address a.exchange.requestUuid (jitter * hops))
      a.dues (a.arrivals.filter Received.isReturn) := by
  induction h with
  | @mk hops x forwarded sound after due inside deeper ih =>
    rw [Nat.mul_succ] at hslack ⊢
    have hinner : jitter * hops ≤ slack := by omega
    have hrelayed := rel_relayedFor fun a ha => (deeper a ha).rel_relayOnePeer hsoon hinner
      (ih a ha hinner) (after a ha) (due a ha) (inside a ha) x.requestUuid
    have hsent : Multiset.Rel (Brings x.requestUuid (jitter * hops))
        (x.own :: duesOf forwarded : List Due)
        ((x.replied, toVec x.reply) :: relayedFor x.requestUuid forwarded : List (ℕ × Bytes)) := by
      rw [← Multiset.cons_coe, ← Multiset.cons_coe]
      exact Multiset.Rel.cons ⟨Nat.le_refl _, Nat.le_add_right _ _, rfl, sound.short⟩ hrelayed
    have hcome := sound.rel_travel hsent
    have hreturns : ∀ r ∈ x.travel
        ((x.replied, toVec x.reply) :: relayedFor x.requestUuid forwarded),
        r.isReturn = true := by
      intro r hr
      obtain ⟨d, hd, hcarries⟩ := exists_of_rel_right hcome hr
      exact hcarries.isReturn
    rw [Answer.dues, Multiset.coe_eq_coe.mpr (sound.filter_arrivals hreturns)]
    exact hcome

/-- What the maps of one answer become at the origin. -/
theorem Prompt.entries (h : Prompt jitter soon slack hops a)
    (hslack : jitter * hops ≤ slack) (hsoon : soon + slack ≤ relayQuietTimeoutMs) :
    ((a.arrivals.filter Received.isReturn).filterMap (entry a.exchange.requestUuid)).Perm
      (a.exchanges.map fun x => (a.exchange.address, x.record)) := by
  have hentries : Multiset.Rel (fun (d : Due) e => (a.exchange.address, d.record) = e) a.dues
      ((a.arrivals.filter Received.isReturn).filterMap (entry a.exchange.requestUuid)) :=
    rel_filterMap (h.rel_arrivals hslack hsoon) fun d _ r hcarries =>
      ⟨_, hcarries.entry_eq, rfl⟩
  rw [← Multiset.rel_map_left, Multiset.rel_eq, Multiset.map_coe, Multiset.coe_eq_coe] at hentries
  have hrecords : (a.exchanges.map fun x => (a.exchange.address, x.record)) =
      a.dues.map fun d => (a.exchange.address, d.record) := by
    have hmap := congrArg (List.map (Prod.mk a.exchange.address)) a.map_record_dues
    rw [List.map_map, List.map_map] at hmap
    exact hmap.symm
  rw [hrecords]
  exact hentries.symm

variable {requestUuid : Uuid} {roots : List Answer}

/-- The maps and lists that come to the origin's socket, in their order. -/
def comers (roots : List Answer) : List Received :=
  (inOrder (roots.flatMap Answer.arrivals)).filter Received.isReturn

theorem mem_comers {r : Received} :
    r ∈ comers roots ↔ ∃ a ∈ roots, r ∈ a.arrivals.filter Received.isReturn := by
  rw [comers, List.mem_filter, (perm_inOrder _).mem_iff, List.mem_flatMap]
  constructor
  · rintro ⟨⟨a, ha, hr⟩, hreturn⟩
    exact ⟨a, ha, List.mem_filter.mpr ⟨hr, hreturn⟩⟩
  · rintro ⟨a, ha, hr⟩
    obtain ⟨hr, hreturn⟩ := List.mem_filter.mp hr
    exact ⟨⟨a, ha, hr⟩, hreturn⟩

theorem comers_sorted : (comers roots).Pairwise fun r r' => r.time ≤ r'.time :=
  (pairwise_inOrder _).filter _

/-- The window is open for all of them. -/
theorem collectUntil_eq_comers (start : ℕ)
    (hprompt : ∀ a ∈ roots, Prompt jitter soon slack hops a)
    (hslack : jitter * hops ≤ slack) (hsoon : soon + slack ≤ relayQuietTimeoutMs)
    (hinside : ∀ a ∈ roots, ∀ d ∈ a.dues, d.time + slack < start + collectMs) :
    collectUntil requestUuid (start + collectMs) start (inOrder (roots.flatMap Answer.arrivals)) =
      (comers roots).filterMap (entry requestUuid) := by
  have hperm := perm_inOrder (roots.flatMap Answer.arrivals)
  rw [collectUntil_eq_filterMap ?_ (pairwise_inOrder _) (Nat.lt_add_of_pos_right (by decide)) ?_]
  · rfl
  · intro r hr
    obtain ⟨a, ha, hra⟩ := List.mem_flatMap.mp (hperm.subset hr)
    exact (hprompt a ha).isSome r hra
  · intro r hr hkeep
    obtain ⟨a, ha, hra⟩ := List.mem_flatMap.mp (hperm.subset hr)
    obtain ⟨d, hd, hcarries⟩ := exists_of_rel_right ((hprompt a ha).rel_arrivals hslack hsoon)
      (List.mem_filter.mpr ⟨hra, hkeep⟩)
    have hle := hcarries.le_due
    have hlimit := hinside a ha d hd
    omega

theorem perm_comers (hprompt : ∀ a ∈ roots, Prompt jitter soon slack hops a)
    (hslack : jitter * hops ≤ slack) (hsoon : soon + slack ≤ relayQuietTimeoutMs)
    (huuid : ∀ a ∈ roots, a.exchange.requestUuid = requestUuid) :
    ((comers roots).filterMap (entry requestUuid)).Perm
      (roots.flatMap fun a => a.exchanges.map fun x => (a.exchange.address, x.record)) := by
  refine (((perm_inOrder _).filter _).filterMap _).trans ?_
  rw [List.filter_flatMap, List.filterMap_flatMap]
  refine List.Perm.flatMap_left _ fun a ha => ?_
  rw [← huuid a ha]
  exact (hprompt a ha).entries hslack hsoon

/-- However many nodes a discovery comes to and however its datagrams are delayed within
the jitter: when every subtree is prompt and its maps are due inside the window, the
origin collects the map of every node that was asked, each exactly once and from the
address of the node through which it has come. -/
theorem records_collected_once (requestUuid : Uuid) (start : ℕ) (roots : List Answer)
    (hprompt : ∀ a ∈ roots, Prompt jitter soon slack hops a)
    (hslack : jitter * hops ≤ slack) (hsoon : soon + slack ≤ relayQuietTimeoutMs)
    (huuid : ∀ a ∈ roots, a.exchange.requestUuid = requestUuid)
    (hinside : ∀ a ∈ roots, ∀ d ∈ a.dues, d.time + slack < start + collectMs) :
    (collectUntil requestUuid (start + collectMs) start
      (inOrder (roots.flatMap Answer.arrivals))).Perm
        (roots.flatMap fun a => a.exchanges.map fun x => (a.exchange.address, x.record)) := by
  rw [collectUntil_eq_comers start hprompt hslack hsoon hinside]
  exact perm_comers hprompt hslack hsoon huuid

end Discovery

/-- The server, asked by the laptop's relay, which also hears of the program's exit. -/
def serverExchange : Exchange where
  address := .v4 0xC0A8010B 2240
  asked := 45
  replied := 80
  fromPid := 3
  requestUuid := Vector.replicate 16 8
  record := [0xA0]
  delay k := 4 + k % 2
  least := 4
  others := [⟨85, some (.v4 0xC0A8010B 2240, toVec (.basicInsecureProgramExit 3 0))⟩]

def laptopExchange : Exchange where
  address := .v4 0xC0A8010A 2240
  asked := 10
  replied := 40
  fromPid := 7
  requestUuid := Vector.replicate 16 1
  record := [0xA1, 0x01, 0x02]
  delay k := 5 + k % 2
  least := 5
  others := []

def laptopAnswer : Answer := .mk laptopExchange [.mk serverExchange []]

theorem laptopAnswer_prompt : Prompt 1 1400 100 2 laptopAnswer := by
  have hserver : serverExchange.Sound 1 := by
    refine ⟨by decide, fun k => ?_, by decide +kernel, by decide +kernel⟩
    simp only [serverExchange]
    omega
  have hlaptop : laptopExchange.Sound 1 := by
    refine ⟨by decide, fun k => ?_, by decide +kernel, by decide +kernel⟩
    simp only [laptopExchange]
    omega
  refine .mk hlaptop ?_ ?_ ?_ ?_
  · simp [Answer.exchange, serverExchange, laptopExchange]
  · simp [Answer.exchange, serverExchange, laptopExchange]
  · decide +kernel
  · intro a ha
    obtain rfl := List.mem_singleton.mp ha
    exact .mk hserver (by simp) (by simp) (by simp) (by simp)

theorem records_collected_once_laptop :
    (collectUntil (Vector.replicate 16 1) (5 + collectMs) 5
      (inOrder ([laptopAnswer].flatMap Answer.arrivals))).Perm
        ([laptopAnswer].flatMap fun a =>
          a.exchanges.map fun x => (a.exchange.address, x.record)) :=
  records_collected_once (Vector.replicate 16 1) 5 [laptopAnswer]
    (by simpa using laptopAnswer_prompt) (by decide) (by decide) (by simp; rfl) (by decide +kernel)

end Weverywhere.RelayTiming
