import Weverywhere.ChatDelivery
import Weverywhere.ChatScreen

/-!
The chat program (`src/example-programs/chat.c`) on every node of a fabric, from the keys
pressed at one terminal to what stands on another. Starting it announces its user, each
turn of its loop polls, takes one key and draws, and leaving the loop is announced too.
What a turn sends travels as any line does.
-/
namespace Weverywhere.ChatRoom

open ByteStrings Chat ChatDelivery ChatSafety ChatScreen Identity MessagesRead Messages
  NetworkMap Runs Terminal

variable {ι : Type}

/-- The fabric and the terminals; a program that is not started yet has none. -/
structure World (ι : Type) where
  fabric : ChatDelivery.World ι
  screen : ι → Option Session

inductive Action (ι : Type)
  /-- `_start` up to its first turn; `nonce` is what the host draws for what is sent. -/
  | start (i : ι) (size : Option (UInt16 × UInt16)) (nonce : Vector UInt8 16)
  | key (i : ι) (event : Terminal.Event)
  /-- One turn of the loop; `mem` is the guest's memory once the host has answered. -/
  | turn (i : ι) (mem : Memory) (size : Option (UInt16 × UInt16)) (nonce : Vector UInt8 16)
  /-- Other datagrams and other programs. -/
  | event (i : ι) (event : Node.Event)
  /-- A copy of the line with the number `k`. -/
  | arrive (j : ι) (addr : SocketAddr) (now : UInt64) (k : ℕ)

def World.start : World ι := ⟨ChatDelivery.World.start, fun _ => none⟩

/-- What a turn sends: the line that was entered, or that its user leaves. -/
def sentBy (s s' : Session) : Option (Kind × Bytes) :=
  match s'.host.ui.sent.drop s.host.ui.sent.length with
  | text :: _ => some (.chat, text)
  | [] =>
    if s.host.ui.running = true ∧ s'.host.ui.running = false then some (.leave, utf8 "left")
    else none

section Steps

variable [DecidableEq ι] (party : ι → Party) (c : Crypto) (compiles : Bytes → Bool)
  (toVec : Cbor.Value → Option Bytes)

/-- The terminal after a turn of the program on the node `i`. -/
def World.turned (w : World ι) (i : ι) (mem : Memory) (size : Option (UInt16 × UInt16))
    (s : Session) : Session :=
  ChatScreen.step s (.turn ⟨mem, ((w.fabric.chat i).reply toVec).length, size⟩)

/-- What happens on the fabric. -/
def World.onFabric (w : World ι) : Action ι → List (ChatDelivery.Action ι)
  | .start i _ nonce =>
    match w.screen i with
    | none => [.send ⟨i, .join, utf8 "joined", nonce⟩]
    | some _ => []
  | .key _ _ => []
  | .turn i mem size nonce =>
    match w.screen i with
    | none => []
    | some s =>
      if s.host.ui.running then
        .other i (.poll mem) :: ((sentBy s (w.turned toVec i mem size s)).map fun said =>
          .send ⟨i, said.1, said.2, nonce⟩).toList
      else []
  | .event i event => [.other i (.event event)]
  | .arrive j addr now k => [.arrive j addr now k]

def World.onScreen (w : World ι) : Action ι → ι → Option Session
  | .start i size _ =>
    Function.update w.screen i (some ((w.screen i).getD (Session.start size)))
  | .key i event =>
    Function.update w.screen i ((w.screen i).map fun s => ChatScreen.step s (.event event))
  | .turn i mem size _ =>
    Function.update w.screen i ((w.screen i).map (w.turned toVec i mem size))
  | .event _ _ => w.screen
  | .arrive _ _ _ _ => w.screen

abbrev fabricStep : ChatDelivery.World ι → ChatDelivery.Action ι → ChatDelivery.World ι :=
  ChatDelivery.World.step party c compiles toVec

def World.step (w : World ι) (action : Action ι) : World ι where
  fabric := (w.onFabric toVec action).foldl (fabricStep party c compiles toVec) w.fabric
  screen := w.onScreen toVec action

/-- Each thing that happens on the fabric is possible there and no poll comes too late:
what was entered fits into a message, and its id is new. -/
def Possible (w : World ι) (action : Action ι) : Prop :=
  EachStep (fabricStep party c compiles toVec)
    (fun f a => ChatDelivery.Possible party c toVec f a ∧ InTime toVec f a) w.fabric
    (w.onFabric toVec action)

/-- Further copies come while the id of their line is remembered. -/
def Remembered (w : World ι) (action : Action ι) : Prop :=
  EachStep (fabricStep party c compiles toVec) (ChatDelivery.Remembered party) w.fabric
    (w.onFabric toVec action)

end Steps

/-! What people see of each other. -/

/-- The texts a node has sent as chat. -/
def typedBy [DecidableEq ι] (sent : List (Line ι)) (i : ι) : List Bytes :=
  (sent.filter fun line => line.sender = i ∧ line.kind = .chat).map Line.text

def colsOf (s : Session) : ℕ := (ChatScreen.sizeOf (ttySize s.size)).1

def rowsOf (s : Session) : ℕ := (ChatScreen.sizeOf (ttySize s.size)).2

/-- The row of the line with the number `n`, if the line is among those that have room. -/
def rowOf (s : Session) (n : ℕ) : Option ℕ :=
  let first := s.lines.length - (rowsOf s - 3)
  if first ≤ n ∧ n < s.lines.length then some (n - first + 1) else none

/-- While the program runs, what it told its terminal last stands there row by row, and
the line has its row. -/
def OnScreen (s : Session) (n : ℕ) (shown : Bytes) : Prop :=
  s.host.ui.running = true → rowsOf s ≤ 259 → ∀ row ∈ rowOf s n,
    ∀ (e : Emulator) (d : Display),
      Legible e (colsOf s) (rowsOf s) s.lines s.host.ui.input.items → ∀ col,
        (e.present d s.host.tty.presented).cell row col =
          ((fromUtf8Lossy (shown.take (colsOf s))).toList[col]?).getD ' '

/-- Whoever was reached by a copy of a line has it once, and shows it under its sender's
name and id with what was typed once the program got there; nobody else has it. -/
structure SeenBy (party : ι → Party) (line : Line ι) (reached : Prop) (log : List MessageLog.Push)
    (s : Session) : Prop where
  once : reached → ∃ (n : ℕ) (now : UInt64), log[n]? = some (line.push party now) ∧
    (∀ (n' : ℕ) (p : MessageLog.Push), log[n']? = some p → p.key = line.key party → n' = n) ∧
    ((n : ℤ) < s.host.after.toInt → ∃ shown, s.lines[n]? = some shown ∧
      ChatIdentity.ShownAs (line.spoken party) shown ∧ OnScreen s n shown)
  never : ¬ reached → ∀ p ∈ log, p.key ≠ line.key party

/-- The keys a program takes are those pressed, in order; where none of them cuts a
character, its node sends as chat, in order, the lines they enter, character by character;
and every line is seen by whom it reached. -/
structure TypedIsSeen [DecidableEq ι] (party : ι → Party) (w : World ι) (i : ι) (s : Session) :
    Prop where
  pressed : s.taken ++ s.host.tty.rx = s.events.filterMap mapEvent
  typed : NoKeyCuts s.taken →
    typedBy w.fabric.sent i = (typedKeys s.taken).sent.map ChatInput.charsUtf8
  seen : ∀ (k : ℕ) line, w.fabric.sent[k]? = some line →
    SeenBy party line ((i, k) ∈ w.fabric.arrived) (w.fabric.chat i).log s

def AllSeen [DecidableEq ι] (party : ι → Party) (w : World ι) : Prop :=
  ∀ i s, w.screen i = some s → s.lines.length < 2 ^ 31 → TypedIsSeen party w i s

/-! The program and its terminal. -/

/-- What the program keeps of its polls. -/
abbrev Polls := Int64 × Transcript × List Bytes

def pollsOf (chat : ChatFollowing.World) : Polls := (chat.after, chat.transcript, chat.lines)

def pollsShown (s : Session) : Polls := (s.host.after, s.host.transcript, s.lines)

theorem pollsShown_start (size : Option (UInt16 × UInt16)) :
    pollsShown (Session.start size) = pollsOf ChatFollowing.World.start := rfl

/-- The turn of the terminal is the poll of the node. -/
theorem pollsShown_turn {c : Crypto} {compiles : Bytes → Bool} {toVec : Cbor.Value → Option Bytes}
    {chat : ChatFollowing.World} {s : Session} (h : pollsShown s = pollsOf chat)
    (hrunning : s.host.ui.running = true) (mem : Memory) (size : Option (UInt16 × UInt16)) :
    pollsShown (ChatScreen.step s (.turn ⟨mem, (chat.reply toVec).length, size⟩)) =
      pollsOf (chat.step c compiles toVec (.poll mem)) := by
  obtain ⟨hafter, hrest⟩ := Prod.mk.inj h
  obtain ⟨htranscript, hlines⟩ := Prod.mk.inj hrest
  have hkept : ∀ h : Host, ∀ size, (h.redraw size).after = h.after ∧
      (h.redraw size).transcript = h.transcript := fun h size => ⟨rfl, rfl⟩
  have hpoll : pollMessages mem (chat.reply toVec).length s.host.after s.host.transcript =
      chat.poll toVec mem := by
    rw [ChatFollowing.World.poll, hafter, htranscript]
  simp only [pollsShown, pollsOf, ChatScreen.step, hrunning, if_true, Host.turn, newLines, hpoll,
    ChatFollowing.World.step, hlines]
  split_ifs <;> simp [Host.redraw]

theorem sent_handle (ui : ChatInput.Ui) (e : Bytes) :
    (ui.handle e).sent = ui.sent ∨
      (ui.handle e).running = ui.running ∧ ∃ text, (ui.handle e).sent = ui.sent ++ [text] := by
  cases e with
  | nil => exact .inl rfl
  | cons kind payload =>
    simp only [ChatInput.Ui.handle]
    split_ifs
    all_goals first
      | exact .inl rfl
      | exact .inr ⟨rfl, _, rfl⟩

/-- What the program keeps as a line stands on a terminal that follows it. -/
theorem onScreen_of_follows {s : Session} (h : Follows s) {n : ℕ} {line : Bytes}
    (hline : s.lines[n]? = some line) : OnScreen s n line := by
  intro hrunning hrows row hrow e d hlegible col
  have hsize : 4 ≤ rowsOf s ∧ rowsOf s < 2 ^ 16 := sizeOf_rows s.size
  obtain ⟨before, hpresented⟩ : ∃ before, s.host.tty.presented = before ++
      frame (colsOf s) (rowsOf s) (remembered s.lines) s.host.ui.input.items :=
    h.current hrunning
  rw [frame_few _ (.inl hrows)] at hpresented
  simp only [rowOf] at hrow
  split_ifs at hrow with hroom
  · obtain rfl := Option.some.inj hrow
    obtain ⟨hfirst, -⟩ := hroom
    have hnewest : (newestLines (rowsOf s) s.lines)[n - (s.lines.length - (rowsOf s - 3))]? =
        some line := by
      rw [newestLines, List.getElem?_drop, Nat.add_sub_cancel' hfirst]
      exact hline
    rw [hpresented, shows_of_frame hsize e d hlegible, rowText_line hsize.1 hnewest]
  · cases hrow

/-! The fabric below. -/

section Fabric

variable [DecidableEq ι] {party : ι → Party} {c : Crypto} (compiles : Bytes → Bool)
  {toVec : Cbor.Value → Option Bytes} {f : ChatDelivery.World ι}

/-- Nothing is missed and nothing is recorded twice. -/
structure Sound (party : ι → Party) (f : ChatDelivery.World ι) : Prop where
  upToDate : UpToDate party f
  once : AtMostOnce party f

omit [DecidableEq ι] in
theorem sound_start : Sound party (ChatDelivery.World.start : ChatDelivery.World ι) where
  upToDate := ⟨kept_start party, fun _ => rfl⟩
  once := nofun

theorem sound_run (hsigns : ∀ i, Signs c (party i)) (htoVec : Cbor.StandardEncoder toVec)
    {actions : List (ChatDelivery.Action ι)}
    (hpossible : EachStep (fabricStep party c compiles toVec)
      (fun f a => ChatDelivery.Possible party c toVec f a ∧ InTime toVec f a) f actions)
    (hremembered : EachStep (fabricStep party c compiles toVec) (ChatDelivery.Remembered party) f
      actions) (h : Sound party f) :
    Sound party (actions.foldl (fabricStep party c compiles toVec) f) := by
  induction actions generalizing f with
  | nil => exact h
  | cons action rest ih =>
    obtain ⟨⟨hone, hintime⟩, hrest⟩ := hpossible
    obtain ⟨hcopy, hcopies⟩ := hremembered
    apply ih hrest hcopies
    exact {
      upToDate := upToDate_step compiles hsigns htoVec hone hintime h.upToDate
      once := (atMostOnce_step_iff compiles hsigns hone h.upToDate.kept h.once).mpr hcopy }

/-- Only its own poll changes what a program keeps. -/
theorem pollsOf_atNode_event (i j : ι) (event : Node.Event) :
    pollsOf ((f.atNode c compiles toVec j (.event event)).chat i) = pollsOf (f.chat i) := by
  rcases eq_or_ne i j with rfl | hne
  · simp [ChatDelivery.World.atNode, pollsOf, ChatFollowing.World.step]
  · simp [ChatDelivery.World.atNode, hne]

theorem pollsOf_arrive (i j : ι) (addr : SocketAddr) (now : UInt64) (k : ℕ) :
    pollsOf ((fabricStep party c compiles toVec f (.arrive j addr now k)).chat i) =
      pollsOf (f.chat i) ∧
    (fabricStep party c compiles toVec f (.arrive j addr now k)).sent = f.sent := by
  cases hk : f.sent[k]? with
  | none => simp [fabricStep, ChatDelivery.World.step, hk]
  | some line =>
    simp only [fabricStep, ChatDelivery.World.step, hk]
    exact ⟨pollsOf_atNode_event compiles i j _, rfl⟩

end Fabric

/-! The lines that were typed. -/

section Typed

variable [DecidableEq ι]

theorem typedBy_append (sent : List (Line ι)) (line : Line ι) (i : ι) :
    typedBy (sent ++ [line]) i = typedBy sent i ++
      if line.sender = i ∧ line.kind = .chat then [line.text] else [] := by
  rw [typedBy, typedBy, List.filter_append, List.map_append]
  congr 1
  by_cases hline : line.sender = i ∧ line.kind = .chat
  · simp [hline]
  · rw [if_neg hline]
    simp [hline]

/-- The sends of a turn are the line that was entered, if there was one. -/
theorem typedBy_turn (sent : List (Line ι)) (i j : ι) (nonce : Vector UInt8 16) {s s' : Session}
    (hsent : s'.host.ui.sent = s.host.ui.sent ∨ s'.host.ui.running = s.host.ui.running ∧
      ∃ text, s'.host.ui.sent = s.host.ui.sent ++ [text]) :
    typedBy (sent ++ ((sentBy s s').map fun said => ⟨i, said.1, said.2, nonce⟩).toList) j =
      typedBy sent j ++ if i = j then s'.host.ui.sent.drop s.host.ui.sent.length else [] := by
  rcases hsent with hsame | ⟨-, text, hmore⟩
  · have hnone : s'.host.ui.sent.drop s.host.ui.sent.length = [] := by
      rw [hsame, List.drop_length]
    rw [hnone, ite_self, List.append_nil, sentBy, hnone]
    dsimp only
    split_ifs with hleft
    · rw [Option.map_some, Option.toList_some, typedBy_append, if_neg (by simp), List.append_nil]
    · rw [Option.map_none, Option.toList_none, List.append_nil]
  · have hone : s'.host.ui.sent.drop s.host.ui.sent.length = [text] := by
      rw [hmore, List.drop_left]
    rw [sentBy, hone]
    dsimp only
    rw [Option.map_some, Option.toList_some, typedBy_append]
    simp

end Typed

/-! Runs. -/

/-- Terminals, programs and fabric tell of the same. -/
structure Together [DecidableEq ι] (party : ι → Party) (w : World ι) : Prop where
  sound : Sound party w.fabric
  polls : ∀ i s, w.screen i = some s → pollsShown s = pollsOf (w.fabric.chat i)
  untouched : ∀ i, w.screen i = none →
    pollsOf (w.fabric.chat i) = pollsOf ChatFollowing.World.start
  follows : ∀ i s, w.screen i = some s → FollowsSmall s
  typed : ∀ i, typedBy w.fabric.sent i = ((w.screen i).map fun s => s.host.ui.sent).getD []

section Together

variable [DecidableEq ι] {party : ι → Party} {w : World ι}

theorem together_start : Together party (World.start : World ι) where
  sound := sound_start
  polls := nofun
  untouched _ _ := rfl
  follows := nofun
  typed _ := rfl

/-- What leaves all terminals and programs and all that was sent alone. -/
theorem Together.frame (h : Together party w) {w' : World ι} (hsound : Sound party w'.fabric)
    (hscreen : w'.screen = w.screen)
    (hpolls : ∀ i, pollsOf (w'.fabric.chat i) = pollsOf (w.fabric.chat i))
    (hsent : w'.fabric.sent = w.fabric.sent) : Together party w' where
  sound := hsound
  polls i s hs := (h.polls i s (hscreen ▸ hs)).trans (hpolls i).symm
  untouched i hi := (hpolls i).trans (h.untouched i (hscreen ▸ hi))
  follows i s hs := h.follows i s (hscreen ▸ hs)
  typed i := by
    rw [hsent, hscreen]
    exact h.typed i

/-- What happens at one terminal. -/
theorem Together.update (h : Together party w) {w' : World ι} (hsound : Sound party w'.fabric)
    {i : ι} {s : Session} (hs : w'.screen i = some s)
    (hpolls : pollsShown s = pollsOf (w'.fabric.chat i)) (hfollows : FollowsSmall s)
    (htyped : typedBy w'.fabric.sent i = s.host.ui.sent)
    (hothers : ∀ j, j ≠ i → w'.screen j = w.screen j ∧
      pollsOf (w'.fabric.chat j) = pollsOf (w.fabric.chat j) ∧
      typedBy w'.fabric.sent j = typedBy w.fabric.sent j) : Together party w' where
  sound := hsound
  polls j s' hs' := by
    rcases eq_or_ne j i with rfl | hne
    · exact Option.some.inj (hs.symm.trans hs') ▸ hpolls
    · obtain ⟨hscreen, hsame, -⟩ := hothers j hne
      exact (h.polls j s' (hscreen ▸ hs')).trans hsame.symm
  untouched j hj := by
    rcases eq_or_ne j i with rfl | hne
    · rw [hs] at hj
      cases hj
    · obtain ⟨hscreen, hsame, -⟩ := hothers j hne
      exact hsame.trans (h.untouched j (hscreen ▸ hj))
  follows j s' hs' := by
    rcases eq_or_ne j i with rfl | hne
    · exact Option.some.inj (hs.symm.trans hs') ▸ hfollows
    · exact h.follows j s' ((hothers j hne).1 ▸ hs')
  typed j := by
    rcases eq_or_ne j i with rfl | hne
    · rw [hs, htyped]
      rfl
    · obtain ⟨hscreen, -, hsame⟩ := hothers j hne
      rw [hscreen, hsame]
      exact h.typed j

variable {c : Crypto} (compiles : Bytes → Bool) {toVec : Cbor.Value → Option Bytes}

/-- A turn of a program that runs. -/
theorem Together.turn (h : Together party w) {i : ι} {s : Session} (hs : w.screen i = some s)
    (hrunning : s.host.ui.running = true) (mem : Memory) (size : Option (UInt16 × UInt16))
    (nonce : Vector UInt8 16)
    (hsound : Sound party (w.step party c compiles toVec (.turn i mem size nonce)).fabric) :
    Together party (w.step party c compiles toVec (.turn i mem size nonce)) := by
  set s' := w.turned toVec i mem size s with hs'
  have hui : s'.host.ui = s.host.ui.handle (ChatInput.ttyNextEvent ChatInput.evbufSize
      s.host.tty.nextEvent.1) := ui_turn hrunning _
  have hsent := sent_handle s.host.ui (ChatInput.ttyNextEvent ChatInput.evbufSize
    s.host.tty.nextEvent.1)
  rw [← hui] at hsent
  have hfabric : (w.step party c compiles toVec (.turn i mem size nonce)).fabric =
      { w.fabric.atNode c compiles toVec i (.poll mem) with
        sent := w.fabric.sent ++ ((sentBy s s').map fun said =>
          (⟨i, said.1, said.2, nonce⟩ : Line ι)).toList } := by
    simp only [World.step, World.onFabric, hs, hrunning, if_true, ← hs', List.foldl_cons]
    cases sentBy s s' with
    | none => simp [fabricStep, ChatDelivery.World.step, ChatDelivery.World.atNode]
    | some said => simp [fabricStep, ChatDelivery.World.step, ChatDelivery.World.atNode]
  have hscreen : (w.step party c compiles toVec (.turn i mem size nonce)).screen =
      Function.update w.screen i (some s') := by
    simp only [World.step, World.onScreen, hs, Option.map_some, hs']
  refine h.update hsound (i := i) (s := s') ?_ ?_ ?_ ?_ ?_
  · rw [hscreen, Function.update_self]
  · rw [hfabric]
    simp only [ChatDelivery.World.atNode, Function.update_self]
    exact pollsShown_turn (h.polls i s hs) hrunning mem size
  · exact followsSmall_step s _ (h.follows i s hs)
  · rw [hfabric]
    simp only [typedBy_turn w.fabric.sent i i nonce hsent, if_true, h.typed i, hs,
      Option.map_some, Option.getD_some]
    rcases hsent with hsame | ⟨-, text, hmore⟩
    · rw [hsame, List.drop_length, List.append_nil]
    · rw [hmore, List.drop_left]
  · intro j hne
    refine ⟨?_, ?_, ?_⟩
    · rw [hscreen, Function.update_of_ne hne]
    · rw [hfabric]
      simp [ChatDelivery.World.atNode, hne]
    · rw [hfabric]
      simp only [typedBy_turn w.fabric.sent i j nonce hsent, if_neg hne.symm, List.append_nil]

variable (hsigns : ∀ i, Signs c (party i)) (htoVec : Cbor.StandardEncoder toVec)

include hsigns htoVec

/-- Step lemma. -/
theorem together_step {action : Action ι} (hpossible : Possible party c compiles toVec w action)
    (hremembered : Remembered party c compiles toVec w action) (h : Together party w) :
    Together party (w.step party c compiles toVec action) := by
  have hsound : Sound party (w.step party c compiles toVec action).fabric :=
    sound_run compiles hsigns htoVec hpossible hremembered h.sound
  have hstill : ∀ i, w.screen i = none → Function.update w.screen i none = w.screen := by
    intro i hi
    rw [← hi, Function.update_eq_self]
  cases action with
  | start i size nonce =>
    cases hs : w.screen i with
    | none =>
      have huntouched := h.untouched i hs
      have htyped := h.typed i
      rw [hs, Option.map_none, Option.getD_none] at htyped
      refine h.update hsound (i := i) (s := Session.start size) ?_ ?_
        (fun _ => follows_start size) ?_ ?_
      · simp only [World.step, World.onScreen, hs, Function.update_self, Option.getD_none]
      · simp only [World.step, World.onFabric, hs, List.foldl_cons, List.foldl_nil]
        exact (pollsShown_start size).trans huntouched.symm
      · simp only [World.step, World.onFabric, hs, List.foldl_cons, List.foldl_nil,
          ChatDelivery.World.step, typedBy_append, htyped]
        simp [Session.start, Host.start, Host.redraw, ChatInput.Ui.start]
      · intro j hne
        refine ⟨?_, ?_, ?_⟩
        · simp only [World.step, World.onScreen, Function.update_of_ne hne]
        · simp only [World.step, World.onFabric, hs, List.foldl_cons, List.foldl_nil,
            ChatDelivery.World.step]
        · simp only [World.step, World.onFabric, hs, List.foldl_cons, List.foldl_nil,
            ChatDelivery.World.step, typedBy_append]
          simp
    | some s =>
      refine h.frame hsound ?_ ?_ ?_
      · simp only [World.step, World.onScreen, hs, Option.getD_some]
        rw [← hs, Function.update_eq_self]
      · simp [World.step, World.onFabric, hs]
      · simp [World.step, World.onFabric, hs]
  | key i event =>
    cases hs : w.screen i with
    | none =>
      refine h.frame hsound ?_ (fun _ => rfl) rfl
      simp only [World.step, World.onScreen, hs, Option.map_none, hstill i hs]
    | some s =>
      have htyped := h.typed i
      rw [hs, Option.map_some, Option.getD_some] at htyped
      refine h.update hsound (i := i) (s := ChatScreen.step s (.event event)) ?_
        (h.polls i s hs) (followsSmall_step s _ (h.follows i s hs)) htyped ?_
      · simp only [World.step, World.onScreen, hs, Function.update_self, Option.map_some]
      · intro j hne
        refine ⟨?_, rfl, rfl⟩
        simp only [World.step, World.onScreen, Function.update_of_ne hne]
  | turn i mem size nonce =>
    cases hs : w.screen i with
    | none =>
      refine h.frame hsound ?_ ?_ ?_
      · simp only [World.step, World.onScreen, hs, Option.map_none, hstill i hs]
      · simp [World.step, World.onFabric, hs]
      · simp [World.step, World.onFabric, hs]
    | some s =>
      by_cases hrunning : s.host.ui.running = true
      · exact h.turn compiles hs hrunning mem size nonce hsound
      · have hturned : w.turned toVec i mem size s = s := by
          simp only [World.turned, ChatScreen.step, hrunning]
          rfl
        refine h.frame hsound ?_ ?_ ?_
        · simp only [World.step, World.onScreen, hs, Option.map_some, hturned]
          rw [← hs, Function.update_eq_self]
        · simp [World.step, World.onFabric, hs, hrunning]
        · simp [World.step, World.onFabric, hs, hrunning]
  | event i event => exact h.frame hsound rfl (fun j => pollsOf_atNode_event compiles j i event) rfl
  | arrive j addr now k =>
    exact h.frame hsound rfl (fun i => (pollsOf_arrive compiles i j addr now k).1)
      (pollsOf_arrive compiles j j addr now k).2

omit hsigns htoVec in
theorem allSeen_of_together (h : Together party w) : AllSeen party w := by
  intro i s hs hsmall
  have hdelivered := (delivered_iff_atMostOnce party h.sound.upToDate).mpr h.sound.once
  have hfollows := h.follows i s hs hsmall
  obtain ⟨hafter, hrest⟩ := Prod.mk.inj (h.polls i s hs)
  obtain ⟨-, hlines⟩ := Prod.mk.inj hrest
  refine ⟨hfollows.order, ?_, ?_⟩
  · intro hcuts
    have hsent := (obeys_handled hcuts).whole.sent
    rw [← hfollows.keys] at hsent
    rw [h.typed i, hs, ← hsent]
    rfl
  · intro k line hk
    refine ⟨?_, hdelivered.never i k line hk⟩
    intro hreached
    obtain ⟨n, now, hn, honly, hshown⟩ := hdelivered.once i k line hk hreached
    refine ⟨n, now, hn, honly, ?_⟩
    intro hpolled
    rw [hafter] at hpolled
    obtain ⟨shown, hline, hcomposed⟩ := hshown hpolled
    rw [← hlines] at hline
    exact ⟨shown, hline, hcomposed, onScreen_of_follows hfollows hline⟩

end Together

/-- A turn does what its poll and its send do. -/
theorem eachStep_turn [DecidableEq ι] {party : ι → Party} {c : Crypto} {compiles : Bytes → Bool}
    {toVec : Cbor.Value → Option Bytes}
    {ok : ChatDelivery.World ι → ChatDelivery.Action ι → Prop} (w : World ι) (i : ι) (mem : Memory)
    (size : Option (UInt16 × UInt16)) (nonce : Vector UInt8 16)
    (hpoll : ok w.fabric (.other i (.poll mem)))
    (hsend : ∀ said ∈ (w.screen i).bind fun s => sentBy s (w.turned toVec i mem size s),
      ok (w.fabric.atNode c compiles toVec i (.poll mem)) (.send ⟨i, said.1, said.2, nonce⟩)) :
    EachStep (fabricStep party c compiles toVec) ok w.fabric
      (w.onFabric toVec (.turn i mem size nonce)) := by
  cases hs : w.screen i with
  | none => simp only [World.onFabric, hs, EachStep]
  | some s =>
    simp only [World.onFabric, hs]
    rw [hs, Option.bind_some] at hsend
    split_ifs with hrunning
    · refine ⟨hpoll, ?_⟩
      cases hsaid : sentBy s (w.turned toVec i mem size s) with
      | none => trivial
      | some said => exact ⟨hsend said hsaid, trivial⟩
    · trivial

/-- A turn is possible that reads what its host answers, when what it sends is. -/
theorem possible_turn [DecidableEq ι] {party : ι → Party} {c : Crypto} {compiles : Bytes → Bool}
    {toVec : Cbor.Value → Option Bytes} {w : World ι} {i : ι} {answer : Bytes}
    (hanswer : (w.fabric.chat i).reply toVec = answer)
    (hlate : (w.fabric.chat i).log.length ≤ (w.fabric.chat i).after.toInt + 4096)
    {size : Option (UInt16 × UInt16)} {nonce : Vector UInt8 16}
    (hsend : ∀ said ∈ (w.screen i).bind fun s =>
        sentBy s (w.turned toVec i (ofBytes answer) size s),
      ChatDelivery.Possible party c toVec
        (w.fabric.atNode c compiles toVec i (.poll (ofBytes answer)))
        (.send ⟨i, said.1, said.2, nonce⟩)) :
    Possible party c compiles toVec w (.turn i (ofBytes answer) size nonce) := by
  refine eachStep_turn w i _ size nonce ⟨⟨?_, nofun⟩, fun _ => hlate⟩
    fun said hsaid => ⟨hsend said hsaid, trivial⟩
  rw [ChatFollowing.Possible, hanswer]
  exact holds_ofBytes answer

theorem remembered_turn [DecidableEq ι] {party : ι → Party} {c : Crypto} {compiles : Bytes → Bool}
    {toVec : Cbor.Value → Option Bytes} (w : World ι) (i : ι) (mem : Memory)
    (size : Option (UInt16 × UInt16)) (nonce : Vector UInt8 16) :
    Remembered party c compiles toVec w (.turn i mem size nonce) :=
  eachStep_turn w i mem size nonce trivial fun _ _ => trivial

/-- The same person sits at two terminals, and what is typed at one reaches the other. -/
abbrev roomStep : World Bool → Action Bool → World Bool :=
  World.step (fun _ => alice) honestCrypto (fun _ => false) fun v => some (Cbor.encode v)

def nothingYet : Bytes :=
  ChatFollowing.World.start.reply fun v => some (Cbor.encode v)

def typedHi : List (Action Bool) :=
  [.start true (some (80, 24)) (Vector.replicate 16 1),
    .key true (.key (.char 'h') false .press),
    .turn true (ofBytes nothingYet) (some (80, 24)) (Vector.replicate 16 2),
    .key true (.key .enter false .press),
    .turn true (ofBytes nothingYet) (some (80, 24)) (Vector.replicate 16 3),
    .start false (some (80, 24)) (Vector.replicate 16 4),
    .arrive false (.v4 1 2240) 1 1]

/-- What the other program is then answered. -/
def heardHi : Bytes :=
  ((typedHi.foldl roomStep World.start).fabric.chat false).reply fun v => some (Cbor.encode v)

end Weverywhere.ChatRoom
