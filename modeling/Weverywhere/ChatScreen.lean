import Weverywhere.ChatSafety
import Weverywhere.PathDisplay
import Weverywhere.RingSlots
import Weverywhere.Terminal
import Weverywhere.Runs

/-!
What the chat program shows (`redraw` and `ui_loop` in `src/example-programs/chat.c`).
The transcript is a ring of 256 lines. A turn of the loop polls for messages, takes
one event and draws the screen anew when either of them changed something.
-/
namespace Weverywhere.ChatScreen

open ByteStrings Chat ChatInput ChatSafety NetworkMap RingSlots Runs Terminal

/-! Drawing. -/

/-- `cols` and `rows` out of `sz`, where `host_tty_size` wrote all of it. -/
def sizeOf (answer : Int32 × Bytes) : ℕ × ℕ :=
  let at_ := fun i => (answer.2.getD i 0).toNat
  let size := if answer.1 = 4 then (at_ 0 ||| at_ 1 <<< 8, at_ 2 ||| at_ 3 <<< 8) else (80, 24)
  (max size.1 10, max size.2 4)

/-- A position as the `int` it is handed over as. -/
def asInt (n : ℕ) : Int32 := Int32.ofNat n

def titleText : Bytes := utf8 "weverywhere chat"

def hintText : Bytes := utf8 "  —  type a message, Enter to send, Ctrl-C to quit"

def promptText : Bytes := utf8 "> "

/-- `start`, the number of the first line to be shown. -/
def firstShown (rows : ℕ) (lineCount : ℤ) : ℤ := max 0 (lineCount - max ((rows : ℤ) - 3) 1)

/-- The line with the number `i`, as far as `lines` still has it. -/
def lineAt (t : Transcript) (i : ℤ) : Bytes := t.lines (i.tmod MAXLINES)

def redraw (answer : Int32 × Bytes) (t : Transcript) (input : Bytes) : List Command :=
  let (cols, rows) := sizeOf answer
  let start := firstShown rows t.lineCount.toInt
  ttyClear ++ ttyMove 0 0 ++ ttyStyle 11 (-1) 1 ++ ttyPrint titleText ++
    ttyStyle (-1) (-1) 0 ++ ttyPrint hintText ++
    ((List.range (t.lineCount.toInt - start).toNat).flatMap fun k : ℕ =>
      ttyMove 0 (asInt (1 + k)) ++ ttyPrint ((lineAt t (start + k)).take cols)) ++
    ttyMove 0 (asInt (rows - 1)) ++ ttyStyle 10 (-1) 0 ++ ttyPrint promptText ++
    ttyStyle (-1) (-1) 0 ++ ttyPrint (input.take (cols - 2))

/-! The loop. -/

/-- `changed`, as far as the event in `evbuf` goes. -/
def changedBy (ui : Ui) : Bytes → Bool
  | [] => false
  | kind :: _ =>
    if kind = EventKind.char then true
    else if kind = EventKind.backspace then decide (0 < ui.input.items.length)
    else if kind = EventKind.enter then decide (0 < ui.input.items.length)
    else kind == EventKind.resize

structure Host where
  ui : Ui
  after : Int64
  transcript : Transcript
  tty : Tty

/-- What `host_messages_read` left in `rbuf` and returned, and how large the terminal is. -/
structure Surroundings where
  mem : Memory
  n : ℤ
  size : Option (UInt16 × UInt16)

/-- Draws and presents the screen. -/
def Host.redraw (h : Host) (size : Option (UInt16 × UInt16)) : Host :=
  { h with tty :=
      (h.tty.queue (ChatScreen.redraw (ttySize size) h.transcript h.ui.input.items)).flush }

/-- One turn of `ui_loop`. -/
def Host.turn (h : Host) (around : Surroundings) : Host :=
  if h.ui.running then
    let poll := pollMessages around.mem around.n h.after h.transcript
    let (event, tty) := h.tty.nextEvent
    let e := ttyNextEvent evbufSize event
    let next : Host := ⟨h.ui.handle e, poll.after, poll.transcript, tty⟩
    if next.ui.running = false then next
    else if poll.got || changedBy h.ui e then next.redraw around.size
    else next
  else h

/-- `_start` up to the first turn, on a terminal of the given size. -/
def Host.start (transcript : Transcript) (size : Option (UInt16 × UInt16)) : Host :=
  Host.redraw ⟨.start, 0, transcript, ⟨[], [], []⟩⟩ size

inductive Action
  /-- The reader thread gets an event. -/
  | event (event : Event)
  | turn (around : Surroundings)

/-- The program with what it is compared with: every line that was composed, the
events the reader got, those the loop took, and the size last drawn for. -/
structure Session where
  host : Host
  lines : List Bytes
  events : List Event
  taken : List TtyEvent
  size : Option (UInt16 × UInt16)

/-- The lines a poll adds to the transcript. -/
def newLines (h : Host) (around : Surroundings) : List Bytes :=
  (pollMessages around.mem around.n h.after h.transcript).turns.map fun t => t.line.comp.take LINEW

/-- Whether a turn draws. -/
def draws (h : Host) (around : Surroundings) : Bool :=
  let e := ttyNextEvent evbufSize h.tty.nextEvent.1
  (h.ui.handle e).running &&
    ((pollMessages around.mem around.n h.after h.transcript).got || changedBy h.ui e)

def step (s : Session) : Action → Session
  | .event event =>
    { s with host := { s.host with tty := s.host.tty.read event }, events := s.events ++ [event] }
  | .turn around =>
    if s.host.ui.running then
      { host := s.host.turn around
        lines := s.lines ++ newLines s.host around
        events := s.events
        taken := s.taken ++ s.host.tty.nextEvent.1.toList
        size := if draws s.host around then around.size else s.size }
    else s

def Session.start (size : Option (UInt16 × UInt16)) : Session where
  host := Host.start ⟨fun _ => [], 0⟩ size
  lines := []
  events := []
  taken := []
  size := size

/-! What is to be seen. -/

/-- The last lines that have room. -/
def newestLines (rows : ℕ) (lines : List Bytes) : List Bytes :=
  lines.drop (lines.length - (rows - 3))

/-- What the terminal is told: the title, one line in each row below it, cut at the
right, and in the last row what is typed. -/
def frame (cols rows : ℕ) (lines : List Bytes) (input : Bytes) : List Command :=
  [.clearAll] ++
    ([.moveTo 0 0] ++ ttyStyle 11 (-1) 1 ++ [.print "weverywhere chat"] ++ ttyStyle (-1) (-1) 0 ++
      [.print "  —  type a message, Enter to send, Ctrl-C to quit"]) ++
    (((newestLines rows lines).map fun line => fromUtf8Lossy (line.take cols)).zipIdx 1).flatMap
      (fun (text, row) => [.moveTo 0 (UInt16.ofNat row), .print text]) ++
    ([.moveTo 0 (UInt16.ofNat (rows - 1))] ++ ttyStyle 10 (-1) 0 ++ [.print "> "] ++
      ttyStyle (-1) (-1) 0 ++ [.print (fromUtf8Lossy (input.take (cols - 2)))])

/-- What is to stand in a row. -/
def rowText (cols rows : ℕ) (lines : List Bytes) (input : Bytes) (row : ℕ) : List Char :=
  if row = 0 then "weverywhere chat  —  type a message, Enter to send, Ctrl-C to quit".toList
  else if row = rows - 1 then "> ".toList ++ (fromUtf8Lossy (input.take (cols - 2))).toList
  else
    match (newestLines rows lines)[row - 1]? with
    | some line => (fromUtf8Lossy (line.take cols)).toList
    | none => []

/-- The terminal has the size that was drawn for, room for the title in one row, and
takes one column for each character there is. -/
structure Legible (e : Emulator) (cols rows : ℕ) (lines : List Bytes) (input : Bytes) : Prop where
  cols_eq : e.cols = cols
  rows_eq : e.rows = rows
  wide : 66 ≤ cols
  narrow : ∀ row, ∀ ch ∈ rowText cols rows lines input row, e.narrow ch = true

/-- What was presented last shows each row as it is to be, whatever stood there before. -/
def Shows (presented : List Command) (cols rows : ℕ) (lines : List Bytes) (input : Bytes) : Prop :=
  ∀ (e : Emulator) (d : Display), Legible e cols rows lines input → ∀ row col,
    (e.present d presented).cell row col =
      ((rowText cols rows lines input row)[col]?).getD ' '

/-- The lines a ring of 256 still tells: a line that was written over is the line
written over it. -/
def remembered (lines : List Bytes) : List Bytes :=
  (List.range lines.length).map fun i => lines.getD (newest MAXLINES lines.length i) []

/-! The keys. -/

/-- The line as its characters, and what was entered, key by key. -/
def typedKeys (taken : List TtyEvent) : Typed :=
  taken.foldl (fun t event => typedLoop t (some event)) .start

/-- No key that was taken cuts a character. -/
def NoKeyCuts (taken : List TtyEvent) : Prop :=
  EachStep ChatInput.step NothingCut ChatInput.Session.start (taken.map some)

/-- The program has done with its input line what the keys say. -/
structure Obeys (ui : Ui) (taken : List TtyEvent) : Prop where
  whole : WholeCharacters ui (typedKeys taken)
  running : ui.running = (typedKeys taken).running

/-! The ring. -/

/-- The transcript was made by appending `lines`, no longer than a row. -/
structure Keeps (t : Transcript) (lines : List Bytes) : Prop where
  count : t.lineCount.toInt = lines.length
  written : Written MAXLINES (fun i : ℕ => t.lines i) lines

theorem keeps_start : Keeps ⟨fun _ => [], 0⟩ [] where
  count := rfl
  written := written_nil _

/-- Step lemma: one more line. -/
theorem Keeps.appendLine {t : Transcript} {lines : List Bytes} (h : Keeps t lines)
    (hroom : lines.length + 1 < 2 ^ 31) (line : Bytes) :
    Keeps (t.appendLine line) (lines ++ [line.take LINEW]) := by
  have hslot : t.slot = (lines.length % MAXLINES : ℕ) := by
    rw [Transcript.slot, h.count]
    rfl
  constructor
  · rw [Transcript.appendLine, Int32.toInt_add, h.count, List.length_append,
      List.length_singleton]
    exact Int.bmod_eq_of_le (by show _ ≤ _ + (1 : ℤ); omega) (by show _ + (1 : ℤ) < _; omega)
  · apply h.written.append
    · simp [Transcript.appendLine, hslot]
    · intro i hi
      have hne : ((i % MAXLINES : ℕ) : ℤ) ≠ t.slot := by
        rw [hslot]
        exact_mod_cast hi
      simp only [Transcript.appendLine]
      exact Function.update_of_ne hne _ _

theorem Keeps.appendLines {t : Transcript} {lines : List Bytes} (h : Keeps t lines)
    (more : List Bytes) (hroom : lines.length + more.length < 2 ^ 31) :
    Keeps (more.foldl Transcript.appendLine t) (lines ++ more.map (·.take LINEW)) := by
  induction more generalizing t lines with
  | nil => simpa using h
  | cons line more ih =>
    rw [List.length_cons] at hroom
    have hlength : (lines ++ [line.take LINEW]).length = lines.length + 1 := by simp
    have hnext := ih (h.appendLine (by omega) line) (by omega)
    simpa using hnext

/-- Whatever a reply holds, a poll appends the lines of its turns. -/
theorem pollMessages_transcript (mem : Memory) (n : ℤ) (after : Int64) (t : Transcript) :
    (pollMessages mem n after t).transcript =
      ((pollMessages mem n after t).turns.map fun turn => turn.line.comp).foldl
        Transcript.appendLine t := by
  have hloop : ∀ (k : ℕ) (s : Poll), s.transcript =
      (s.turns.map fun turn => turn.line.comp).foldl Transcript.appendLine t →
      ((pollRecord mem)^[k] s).transcript =
        (((pollRecord mem)^[k] s).turns.map fun turn => turn.line.comp).foldl
          Transcript.appendLine t := by
    intro k
    induction k with
    | zero => exact fun s hs => hs
    | succ k ih =>
      intro s hs
      rw [Function.iterate_succ_apply]
      apply ih
      simp only [pollRecord, List.map_append, List.map_singleton, List.foldl_append,
        List.foldl_cons, List.foldl_nil, ← hs]
  by_cases hn : n ≤ 0
  · simp [pollMessages, hn]
  · by_cases hmajor : (nextHead mem ⟨0, []⟩).1.major = 4
    · simp only [pollMessages, hn, if_false, hmajor, ne_eq, not_true_eq_false]
      exact hloop _ _ rfl
    · simp [pollMessages, hn, hmajor]

theorem Keeps.poll {t : Transcript} {lines : List Bytes} (h : Keeps t lines) (mem : Memory)
    (n : ℤ) (after : Int64)
    (hroom : lines.length + (pollMessages mem n after t).turns.length < 2 ^ 31) :
    Keeps (pollMessages mem n after t).transcript
      (lines ++ (pollMessages mem n after t).turns.map fun turn => turn.line.comp.take LINEW) := by
  have hlines := h.appendLines
    ((pollMessages mem n after t).turns.map fun turn => turn.line.comp)
    (by rw [List.length_map]; exact hroom)
  rw [← pollMessages_transcript, List.map_map] at hlines
  exact hlines

/-- A line that was appended is read back as the newest of its slot. -/
theorem Keeps.lineAt_eq {t : Transcript} {lines : List Bytes} (h : Keeps t lines) {i : ℕ}
    (hi : i < lines.length) :
    lineAt t i = lines.getD (newest MAXLINES lines.length i) [] := by
  have hslot := h.written i hi
  rw [List.getD_eq_getElem?_getD, hslot, Option.getD_some]
  rfl

theorem remembered_length (lines : List Bytes) : (remembered lines).length = lines.length := by
  simp [remembered]

/-- The newest 256 lines are remembered as they are. -/
theorem drop_remembered {lines : List Bytes} {k : ℕ} (hk : lines.length ≤ k + MAXLINES) :
    (remembered lines).drop k = lines.drop k := by
  apply List.ext_getElem
  · simp [remembered_length]
  · intro i hi hi'
    rw [List.length_drop] at hi'
    have hself : newest MAXLINES lines.length (k + i) = k + i :=
      (newest_eq_self_iff (by decide) (by omega)).mpr (by omega)
    simp [remembered, hself, List.getD_eq_getElem?_getD,
      List.getElem?_eq_getElem (show k + i < lines.length by omega)]

/-- No line that was written over is among those that have room. -/
theorem newestLines_remembered {lines : List Bytes} {rows : ℕ}
    (hfew : rows ≤ 259 ∨ lines.length ≤ 256) :
    newestLines rows (remembered lines) = newestLines rows lines := by
  rw [newestLines, newestLines, remembered_length]
  apply drop_remembered
  rw [MAXLINES]
  omega

theorem frame_few {lines : List Bytes} {cols rows : ℕ} (input : Bytes)
    (hfew : rows ≤ 259 ∨ lines.length ≤ 256) :
    frame cols rows (remembered lines) input = frame cols rows lines input := by
  rw [frame, frame, newestLines_remembered hfew]

/-! The drawing. -/

/-- Two bytes put together. -/
theorem or_shiftLeft_eight {low : ℕ} (hlow : low < 256) (high : ℕ) :
    low ||| high <<< 8 = low + high * 256 := by
  rw [Nat.or_comm, ← Nat.shiftLeft_add_eq_or_of_lt (show low < 2 ^ 8 by omega) high,
    Nat.shiftLeft_eq]
  omega

/-- The size comes through as it is, but never as less than 10 columns and 4 rows. -/
theorem sizeOf_ttySize (cols rows : UInt16) :
    sizeOf (ttySize (some (cols, rows))) = (max cols.toNat 10, max rows.toNat 4) := by
  have hcols := cols.toNat_lt
  have hrows := rows.toNat_lt
  have hanswer : ttySize (some (cols, rows)) =
      (4, [UInt8.ofNat cols.toNat, UInt8.ofNat (cols.toNat / 256),
        UInt8.ofNat rows.toNat, UInt8.ofNat (rows.toNat / 256)]) := rfl
  have hvalue : ∀ n : ℕ, n < 65536 → n % 256 ||| (n / 256 % 256) <<< 8 = n := by
    intro n hn
    rw [or_shiftLeft_eight (by omega)]
    omega
  simp only [sizeOf, hanswer, if_true, List.getD_cons_zero, List.getD_cons_succ,
    UInt8.toNat_ofNat', Nat.reducePow, hvalue cols.toNat (by omega), hvalue rows.toNat (by omega)]

/-- Without a terminal the size is taken as 80 by 24. -/
theorem sizeOf_ttySize_none : sizeOf (ttySize none) = (80, 24) := by decide

theorem sizeOf_rows (size : Option (UInt16 × UInt16)) :
    4 ≤ (sizeOf (ttySize size)).2 ∧ (sizeOf (ttySize size)).2 < 2 ^ 16 := by
  match size with
  | none => simp [sizeOf_ttySize_none]
  | some (cols, rows) =>
    have hrows := rows.toNat_lt
    rw [sizeOf_ttySize]
    exact ⟨le_max_right _ _, max_lt hrows (by omega)⟩

theorem asInt_toNat {n : ℕ} (hn : n < 2 ^ 31) : (asInt n).toNatClampNeg = n := by
  have hvalue : (asInt n).toInt = n := Int32.toInt_ofNat_of_lt hn
  rw [Int32.toNatClampNeg, hvalue, Int.toNat_natCast]

/-- The rows of the loop are the last lines that are remembered. -/
theorem rows_remembered {t : Transcript} {lines : List Bytes} (h : Keeps t lines)
    {rows : ℕ} (hrows : 4 ≤ rows ∧ rows < 2 ^ 16) (cols : ℕ) :
    let start := firstShown rows t.lineCount.toInt
    ((List.range (t.lineCount.toInt - start).toNat).flatMap fun k : ℕ =>
      ttyMove 0 (asInt (1 + k)) ++ ttyPrint ((lineAt t (start + k)).take cols)) =
    (((newestLines rows (remembered lines)).map fun line =>
      fromUtf8Lossy (line.take cols)).zipIdx 1).flatMap
      fun (text, row) => [.moveTo 0 (UInt16.ofNat row), .print text] := by
  intro start
  have hstart : start = (lines.length - (rows - 3) : ℕ) := by
    simp only [start, firstShown, h.count]
    omega
  have hcount : (t.lineCount.toInt - start).toNat = lines.length - (lines.length - (rows - 3)) := by
    rw [h.count, hstart]
    omega
  have hlines : ((newestLines rows (remembered lines)).map fun line =>
        fromUtf8Lossy (line.take cols)).zipIdx 1 =
      (List.range (lines.length - (lines.length - (rows - 3)))).map fun k : ℕ =>
        (fromUtf8Lossy ((lineAt t (start + k)).take cols), 1 + k) := by
    apply List.ext_getElem
    · simp [newestLines, remembered_length]
    · intro k _ hk
      rw [List.length_map, List.length_range] at hk
      have hcast : ((lines.length - (rows - 3) : ℕ) : ℤ) + k =
          ((lines.length - (rows - 3) + k : ℕ) : ℤ) := by omega
      have hline := h.lineAt_eq (i := lines.length - (rows - 3) + k) (by omega)
      simp only [List.getElem_zipIdx, List.getElem_map, List.getElem_range, newestLines,
        List.getElem_drop, hstart, hcast, hline, remembered, List.length_map, List.length_range]
  rw [hlines, hcount, List.flatMap_map]
  apply List.flatMap_congr
  intro k hk
  have hrow : (asInt (1 + k)).toNatClampNeg = 1 + k := by
    apply asInt_toNat
    have hlt := List.mem_range.mp hk
    omega
  simp only [ttyMove, ttyPrint, hrow]
  rfl

theorem redraw_eq_frame {t : Transcript} {lines : List Bytes} (h : Keeps t lines)
    (size : Option (UInt16 × UInt16)) (input : Bytes) :
    redraw (ttySize size) t input =
      frame (sizeOf (ttySize size)).1 (sizeOf (ttySize size)).2 (remembered lines) input := by
  have hsize := sizeOf_rows size
  have hrows := rows_remembered h hsize (sizeOf (ttySize size)).1
  have hlast := asInt_toNat (show (sizeOf (ttySize size)).2 - 1 < 2 ^ 31 by omega)
  have hprint : ∀ text, ttyPrint (utf8 text) = [.print text] := by
    intro text
    rw [ttyPrint, PathDisplay.fromUtf8Lossy_utf8]
  have hzero : ttyMove 0 0 = [.moveTo 0 0] := rfl
  have hmove : ttyMove 0 (asInt ((sizeOf (ttySize size)).2 - 1)) =
      [.moveTo 0 (UInt16.ofNat ((sizeOf (ttySize size)).2 - 1))] := by
    rw [ttyMove, hlast]
    rfl
  simp only at hrows
  simp only [redraw, frame, hrows, titleText, hintText, promptText, hprint, hmove, hzero,
    List.append_assoc]
  rfl

/-! The display. -/

theorem utf8First_length (b : UInt8) :
    (utf8First b).1.length + min 1 (utf8First b).2.due.length = 1 := by
  unfold utf8First
  dsimp only
  split_ifs <;> rfl

/-- A text has no more characters than bytes. -/
theorem utf8Lossy_length (s : Utf8State) (bytes : Bytes) :
    (utf8Lossy s bytes).length ≤ bytes.length + min 1 s.due.length := by
  induction bytes generalizing s with
  | nil =>
    rw [utf8Lossy]
    split_ifs with hdone
    · exact Nat.zero_le _
    · have hpos := List.length_pos_iff.mpr (mt List.isEmpty_iff.mpr hdone)
      rw [List.length_singleton, List.length_nil]
      omega
  | cons b rest ih =>
    have hfirst := utf8First_length b
    have hnext : (utf8Next s b).1.length + min 1 (utf8Next s b).2.due.length ≤
        1 + min 1 s.due.length := by
      unfold utf8Next
      cases hdue : s.due with
      | nil => simpa using hfirst.le
      | cons bounds due =>
        dsimp only
        split_ifs with hinside hlast
        · simp [Utf8State.idle]
        · simp
        · simp only [List.length_cons]
          omega
    have hrest := ih (utf8Next s b).2
    rw [utf8Lossy, List.length_append, List.length_cons]
    omega

theorem fromUtf8Lossy_length (bytes : Bytes) :
    (fromUtf8Lossy bytes).toList.length ≤ bytes.length := by
  rw [fromUtf8Lossy, String.toList_ofList]
  exact utf8Lossy_length .idle bytes

theorem newestLines_length_le (rows : ℕ) (lines : List Bytes) :
    (newestLines rows lines).length ≤ rows - 3 := by
  rw [newestLines, List.length_drop]
  omega

section Display

variable {e : Emulator} {cols rows : ℕ} {lines : List Bytes} {input : Bytes}

/-- The title, a transcript row and the last row, as they are asked for. -/
theorem rowText_zero :
    rowText cols rows lines input 0 =
      "weverywhere chat".toList ++ "  —  type a message, Enter to send, Ctrl-C to quit".toList := by
  rw [rowText, if_pos rfl]
  decide

theorem rowText_last (hrows : 4 ≤ rows) :
    rowText cols rows lines input (rows - 1) =
      "> ".toList ++ (fromUtf8Lossy (input.take (cols - 2))).toList := by
  rw [rowText, if_neg (by omega), if_pos rfl]

theorem rowText_line {k : ℕ} {line : Bytes} (hrows : 4 ≤ rows)
    (hline : (newestLines rows lines)[k]? = some line) :
    rowText cols rows lines input (k + 1) = (fromUtf8Lossy (line.take cols)).toList := by
  have hk := (List.getElem?_eq_some_iff.mp hline).1
  have hroom := newestLines_length_le rows lines
  rw [rowText, if_neg (by omega), if_neg (by omega), Nat.add_sub_cancel, hline]

/-- The title, what is printed in the rows below it and the last row, one after the
other. -/
theorem present_frame (d : Display) :
    let blank : Display := { d with cell := fun _ _ => ' ' }
    let titled := ("weverywhere chat".toList ++
      "  —  type a message, Enter to send, Ctrl-C to quit".toList).foldl e.put
        (e.obey blank (.moveTo 0 (UInt16.ofNat 0)))
    let listed := e.present titled
      ((((newestLines rows lines).map fun line => fromUtf8Lossy (line.take cols)).zipIdx 1).flatMap
        fun (text, row) => [.moveTo 0 (UInt16.ofNat row), .print text])
    e.present d (frame cols rows lines input) =
      ("> ".toList ++ (fromUtf8Lossy (input.take (cols - 2))).toList).foldl e.put
        (e.obey listed (.moveTo 0 (UInt16.ofNat (rows - 1)))) := by
  intro blank titled listed
  have hprint : ∀ (d : Display) (text : String),
      e.present d [.print text] = text.toList.foldl e.put d := fun _ _ => rfl
  have hmove : ∀ (d : Display) (row : ℕ), e.present d [.moveTo 0 (UInt16.ofNat row)] =
      e.obey d (.moveTo 0 (UInt16.ofNat row)) := fun _ _ => rfl
  have hzero : e.present blank [.moveTo 0 0] = e.obey blank (.moveTo 0 (UInt16.ofNat 0)) := rfl
  have hclear : e.present d [.clearAll] = blank := rfl
  simp only [frame, Emulator.present_append, Emulator.present_style, hclear, hzero, hmove,
    hprint, List.foldl_append, listed, titled]

/-- The texts of the rows below the title are narrow and have room. -/
theorem Legible.texts (h : Legible e cols rows lines input) (hrows : 4 ≤ rows) :
    ∀ text ∈ (newestLines rows lines).map fun line => fromUtf8Lossy (line.take cols),
      (∀ ch ∈ text.toList, e.narrow ch = true) ∧ text.toList.length ≤ e.cols := by
  intro text htext
  obtain ⟨line, hline, rfl⟩ := List.mem_map.mp htext
  obtain ⟨k, hk⟩ := List.mem_iff_getElem?.mp hline
  constructor
  · have hnarrow := h.narrow (k + 1)
    rw [rowText_line hrows hk] at hnarrow
    exact hnarrow
  · rw [h.cols_eq]
    exact (fromUtf8Lossy_length _).trans (List.length_take_le _ _)

theorem title_length : ("weverywhere chat".toList ++
    "  —  type a message, Enter to send, Ctrl-C to quit".toList).length = 66 := by decide

theorem prompt_length_le (input : Bytes) (hwide : 2 ≤ cols) :
    ("> ".toList ++ (fromUtf8Lossy (input.take (cols - 2))).toList).length ≤ cols := by
  have hinput := fromUtf8Lossy_length (input.take (cols - 2))
  have hcut := List.length_take_le (cols - 2) input
  have htwo : "> ".toList.length = 2 := rfl
  rw [List.length_append]
  omega

/-- A frame shows what it is to show, on whatever display. -/
theorem cell_frame (h : Legible e cols rows lines input) (hrows : 4 ≤ rows ∧ rows < 2 ^ 16)
    (d : Display) (row col : ℕ) :
    (e.present d (frame cols rows lines input)).cell row col =
      ((rowText cols rows lines input row)[col]?).getD ' ' := by
  have hheight := h.rows_eq
  have hwidth := h.cols_eq
  have hwide := h.wide
  have hnarrow := h.narrow
  have htexts := h.texts hrows.1
  have hlength : ((newestLines rows lines).map fun line =>
      fromUtf8Lossy (line.take cols)).length ≤ rows - 3 := by
    rw [List.length_map]
    exact newestLines_length_le rows lines
  have htitle := title_length
  have hprompt := prompt_length_le input (show 2 ≤ cols by omega)
  rw [present_frame,
    Emulator.present_row _ (show rows - 1 < e.rows by omega) (by omega)
      (rowText_last hrows.1 ▸ hnarrow (rows - 1)) (by omega),
    Emulator.present_rows _ 1 (by omega) (by omega) (fun text htext => (htexts text htext).1)
      (fun text htext => (htexts text htext).2),
    Emulator.present_row _ (show 0 < e.rows by omega) (by omega)
      (@rowText_zero cols rows lines input ▸ hnarrow 0) (by omega)]
  by_cases hfirst : row = 0
  · subst hfirst
    rw [if_neg (by omega), if_neg (by omega), if_pos rfl, rowText_zero]
    rfl
  · by_cases hlast : row = rows - 1
    · have hbelow : ((newestLines rows lines).map fun line =>
          fromUtf8Lossy (line.take cols))[rows - 1 - 1]? = none :=
        List.getElem?_eq_none (by omega)
      rw [hlast, if_pos rfl, if_pos (by omega), if_neg (by omega), rowText_last hrows.1, hbelow]
      rfl
    · rw [if_neg hlast, if_pos (by omega), if_neg hfirst, rowText, if_neg hfirst, if_neg hlast,
        List.getElem?_map]
      cases (newestLines rows lines)[row - 1]? with
      | none => rfl
      | some line => rfl

end Display

/-! The loop keeps the screen current. -/

/-- An event that calls for no drawing leaves the input line as it is. -/
theorem input_of_not_changedBy {ui : Ui} {e : Bytes} (h : changedBy ui e = false) :
    (ui.handle e).input = ui.input := by
  cases e with
  | nil => rfl
  | cons kind payload =>
    by_cases hleave : kind = EventKind.ctrlC ∨ kind = EventKind.ctrlD ∨ kind = EventKind.esc
    · simp [Ui.handle, hleave]
    · by_cases hchar : kind = EventKind.char
      · simp [changedBy, hchar] at h
      · by_cases hempty : 0 < ui.input.items.length
        · -- an event that edits a line with something in it is always drawn
          have hback : kind ≠ EventKind.backspace := fun hkind => by
            simp [changedBy, hkind, hempty] at h
          have henter : kind ≠ EventKind.enter := fun hkind => by
            simp [changedBy, hkind, hempty] at h
          simp [Ui.handle, hleave, hchar, hback, henter]
        · simp [Ui.handle, hleave, hchar, hempty]

/-- The input line after the keys, as the loop handles them. -/
def handled (taken : List TtyEvent) : Ui :=
  taken.foldl (fun ui event => uiLoop ui (some event)) .start

theorem handled_append (taken : List TtyEvent) (event : TtyEvent) :
    handled (taken ++ [event]) = uiLoop (handled taken) (some event) := by
  rw [handled, handled, List.foldl_append, List.foldl_cons, List.foldl_nil]

/-- Keys that cut no character leave what was typed. -/
theorem obeys_handled {taken : List TtyEvent} (h : NoKeyCuts taken) :
    Obeys (handled taken) taken := by
  have hboth : ∀ keys : List TtyEvent, (keys.map some).foldl ChatInput.step
      ChatInput.Session.start = (handled keys, typedKeys keys) := by
    intro keys
    induction keys using List.reverseRecOn with
    | nil => rfl
    | append_singleton keys key ih =>
      have htyped : typedKeys (keys ++ [key]) = typedLoop (typedKeys keys) (some key) := by
        rw [typedKeys, typedKeys, List.foldl_append, List.foldl_cons, List.foldl_nil]
      rw [List.map_append, List.foldl_append, ih, handled_append, htyped]
      rfl
  have hinv : ∀ (session : ChatInput.Session) event, NothingCut session event →
      (WholeCharacters session.1 session.2 ∧ session.1.running = session.2.running) →
      (WholeCharacters (ChatInput.step session event).1 (ChatInput.step session event).2 ∧
        (ChatInput.step session event).1.running = (ChatInput.step session event).2.running) :=
    fun session event hcut hs =>
      ⟨(wholeCharacters_step_iff hs.2 hs.1 event).mpr hcut, running_step hs.2 event⟩
  have hrun := (everyState_of_eachStep ChatInput.step hinv (fun _ hs => hs) h
    ⟨⟨charsUtf8_nil.symm, rfl⟩, rfl⟩).last
  rw [hboth] at hrun
  exact ⟨hrun.1, hrun.2⟩

/-- What the program keeps and what it shows agree. -/
structure Follows (s : Session) : Prop where
  keeps : Keeps s.host.transcript s.lines
  flushed : s.host.tty.queued = []
  current : s.host.ui.running = true → ∃ before, s.host.tty.presented = before ++
    frame (sizeOf (ttySize s.size)).1 (sizeOf (ttySize s.size)).2 (remembered s.lines)
      s.host.ui.input.items
  keys : s.host.ui = handled s.taken
  order : s.taken ++ s.host.tty.rx = s.events.filterMap mapEvent

theorem Follows.redraw {s : Session} (hkeeps : Keeps s.host.transcript s.lines)
    (hflushed : s.host.tty.queued = []) (hkeys : s.host.ui = handled s.taken)
    (horder : s.taken ++ s.host.tty.rx = s.events.filterMap mapEvent)
    (size : Option (UInt16 × UInt16)) :
    Follows { s with host := s.host.redraw size, size := size } where
  keeps := hkeeps
  flushed := rfl
  current _ := by
    refine ⟨s.host.tty.presented, ?_⟩
    simp only [Host.redraw, Tty.queue, Tty.flush, hflushed, List.nil_append,
      redraw_eq_frame hkeeps]
  keys := hkeys
  order := horder

theorem follows_start (size : Option (UInt16 × UInt16)) : Follows (Session.start size) :=
  Follows.redraw (s := ⟨⟨.start, 0, ⟨fun _ => [], 0⟩, ⟨[], [], []⟩⟩, [], [], [], size⟩) keeps_start
    rfl rfl rfl size

/-- A turn hands the key to the input line and nothing else changes it. -/
theorem ui_turn {s : Session} (hrunning : s.host.ui.running = true) (around : Surroundings) :
    (step s (.turn around)).host.ui =
      s.host.ui.handle (ttyNextEvent evbufSize s.host.tty.nextEvent.1) := by
  simp only [step, hrunning, if_true, Host.turn]
  split_ifs <;> rfl

/-- The key that was taken is the one that is handled. -/
theorem handled_turn {ui : Ui} {taken : List TtyEvent} (hrunning : ui.running = true)
    (h : ui = handled taken) (event : Option TtyEvent) :
    ui.handle (ttyNextEvent evbufSize event) = handled (taken ++ event.toList) := by
  cases event with
  | none =>
    rw [Option.toList_none, List.append_nil, ← h]
    rfl
  | some event =>
    rw [Option.toList_some, handled_append, ← h, uiLoop, if_pos hrunning]

theorem lines_prefix_step (s : Session) (action : Action) : s.lines <+: (step s action).lines := by
  cases action with
  | event event => exact List.prefix_rfl
  | turn around =>
    by_cases hrunning : s.host.ui.running = true
    · simp only [step, hrunning, if_true]
      exact List.prefix_append _ _
    · simp [step, hrunning]

/-- Step lemma: a turn either draws, or changes nothing that is shown, or is the last. -/
theorem follows_turn {s : Session} (h : Follows s) (around : Surroundings)
    (hsmall : (step s (.turn around)).lines.length < 2 ^ 31) :
    Follows (step s (.turn around)) := by
  by_cases hrunning : s.host.ui.running = true
  · simp only [step, hrunning, if_true, newLines, List.length_append, List.length_map] at hsmall ⊢
    have hkeeps := h.keeps.poll around.mem around.n s.host.after hsmall
    have horder : s.taken ++ s.host.tty.nextEvent.1.toList ++ s.host.tty.nextEvent.2.rx =
        s.events.filterMap mapEvent := by
      rw [List.append_assoc, nextEvent_split]
      exact h.order
    have hkeys := handled_turn hrunning h.keys s.host.tty.nextEvent.1
    set poll := pollMessages around.mem around.n s.host.after s.host.transcript with hpoll
    set e := ttyNextEvent evbufSize s.host.tty.nextEvent.1 with he
    simp only [Host.turn, draws, hrunning, if_true, ← hpoll, ← he]
    cases hnext : (s.host.ui.handle e).running with
    | false =>
      simp only [if_true, Bool.false_and, Bool.false_eq_true, if_false]
      exact ⟨hkeeps, h.flushed, fun hrun => by simp [hnext] at hrun, hkeys, horder⟩
    | true =>
      simp only [Bool.true_eq_false, if_false, Bool.true_and]
      cases hdraws : poll.got || changedBy s.host.ui e with
      | true =>
        simp only [if_true]
        exact Follows.redraw (s := ⟨⟨s.host.ui.handle e, poll.after, poll.transcript,
          s.host.tty.nextEvent.2⟩, _, s.events, _, s.size⟩) hkeeps h.flushed hkeys horder
          around.size
      | false =>
        obtain ⟨hgot, hchanged⟩ := Bool.or_eq_false_iff.mp hdraws
        have hturns : poll.turns = [] := by simpa [Poll.got] using hgot
        have hinput := input_of_not_changedBy hchanged
        simp only [Bool.false_eq_true, if_false]
        refine ⟨hkeeps, h.flushed, fun _ => ?_, hkeys, horder⟩
        simp only [hturns, List.map_nil, List.append_nil, hinput]
        exact h.current hrunning
  · simp only [step, hrunning]
    exact h

/-- The count of lines has not reached its end, or nothing is said. -/
def FollowsSmall (s : Session) : Prop := s.lines.length < 2 ^ 31 → Follows s

theorem followsSmall_step (s : Session) (action : Action) (h : FollowsSmall s) :
    FollowsSmall (step s action) := by
  intro hsmall
  have hlength := (lines_prefix_step s action).length_le
  have hbefore := h (by omega)
  cases action with
  | turn around => exact follows_turn hbefore around hsmall
  | event event =>
    refine ⟨hbefore.keeps, hbefore.flushed, hbefore.current, hbefore.keys, ?_⟩
    have horder := hbefore.order
    simp only [step, Tty.read, List.filterMap_append, ← horder, List.append_assoc]
    cases hmapped : mapEvent event <;> simp [hmapped]

/-- Run lemma: after any run, whatever the replies hold and the keys are. -/
theorem follows_run (size : Option (UInt16 × UInt16)) (actions : List Action)
    (hsmall : (actions.foldl step (Session.start size)).lines.length < 2 ^ 31) :
    Follows (actions.foldl step (Session.start size)) := by
  have hstart : FollowsSmall (Session.start size) := fun _ => follows_start size
  exact invariant_run step followsSmall_step hstart actions hsmall

/-- A frame that was presented last shows what it is to show. -/
theorem shows_of_frame {before : List Command} {cols rows : ℕ} {lines : List Bytes}
    {input : Bytes} (hrows : 4 ≤ rows ∧ rows < 2 ^ 16) :
    Shows (before ++ frame cols rows lines input) cols rows lines input := by
  intro e d hlegible row col
  rw [Emulator.present_append]
  exact cell_frame hlegible hrows _ row col

/-- While the program runs, what was last presented is the title, the newest lines of the
transcript that have room, each in its row and cut at the right, and in the last row the
line being typed. A terminal of that size shows it so where no row is too narrow for the
title and every character takes one column. The keys are taken in the order they were
pressed and none is lost; where none of them cuts a character, the input line and the texts
that were sent are what they type, character by character. On a terminal of more than 259
rows a line that the ring has lost is shown as the line written over it. -/
theorem screen_follows_chat (size : Option (UInt16 × UInt16)) (actions : List Action) :
    let s := actions.foldl step (Session.start size)
    let cols := (sizeOf (ttySize s.size)).1
    let rows := (sizeOf (ttySize s.size)).2
    s.lines.length < 2 ^ 31 →
      (s.host.ui.running = true →
        (∃ before, s.host.tty.presented =
          before ++ frame cols rows (remembered s.lines) s.host.ui.input.items) ∧
        (rows ≤ 259 ∨ s.lines.length ≤ 256 →
          (∃ before, s.host.tty.presented =
            before ++ frame cols rows s.lines s.host.ui.input.items) ∧
          Shows s.host.tty.presented cols rows s.lines s.host.ui.input.items)) ∧
      s.taken ++ s.host.tty.rx = s.events.filterMap mapEvent ∧
      (NoKeyCuts s.taken → Obeys s.host.ui s.taken) := by
  intro s cols rows hsmall
  have hfollows := follows_run size actions hsmall
  refine ⟨fun hrunning => ⟨hfollows.current hrunning, fun hfew => ?_⟩, hfollows.order, ?_⟩
  · obtain ⟨before, hpresented⟩ := hfollows.current hrunning
    rw [frame_few s.host.ui.input.items hfew] at hpresented
    refine ⟨⟨before, hpresented⟩, ?_⟩
    rw [hpresented]
    exact shows_of_frame (sizeOf_rows s.size)
  · intro hcuts
    rw [hfollows.keys]
    exact obeys_handled hcuts

/-- A record of the chat line `hi`, a key pressed and one released. -/
def oneLine : List Action :=
  [.event (.key (.char 'h') false .press), .event (.key (.char 'h') false .release),
    .turn ⟨ofBytes (replyWith hiPayload), (replyWith hiPayload).length, some (70, 10)⟩]

/-- A terminal of 70 by 10 that shows everything it is told to in one column. -/
def plainEmulator : Emulator := ⟨70, 10, fun _ => true, fun d _ => d⟩

theorem screen_follows_chat_line :
    let s := oneLine.foldl step (Session.start (some (80, 24)))
    (∀ d col, (plainEmulator.present d s.host.tty.presented).cell 9 col =
      (['>', ' ', 'h'][col]?).getD ' ') ∧
    s.taken = [.char 'h'] ∧ s.host.ui.input.items = charsUtf8 ['h'] := by
  intro s
  have hlines : s.lines.length < 2 ^ 31 := by decide +kernel
  obtain ⟨hscreen, horder, hobeys⟩ := screen_follows_chat (some (80, 24)) oneLine hlines
  have hsize : sizeOf (ttySize s.size) = (70, 10) := by decide +kernel
  have hshows := ((hscreen (by decide +kernel)).2 (Or.inl (by decide +kernel))).2
  have hnone : s.host.tty.rx = [] := by decide +kernel
  have hevents : s.events.filterMap mapEvent = [.char 'h'] := by decide +kernel
  have htaken : s.taken = [.char 'h'] := by
    rw [← hevents, ← horder, hnone, List.append_nil]
  have hinput : s.host.ui.input.items = charsUtf8 ['h'] := by
    have hcuts : NoKeyCuts s.taken := by
      rw [htaken]
      exact ⟨fun _ => Or.inl (by decide), trivial⟩
    have hwhole := (hobeys hcuts).whole.input
    rw [htaken] at hwhole
    exact hwhole
  refine ⟨fun d col => ?_, htaken, hinput⟩
  rw [hsize] at hshows
  have hlegible : Legible plainEmulator 70 10 s.lines s.host.ui.input.items :=
    ⟨rfl, rfl, by decide, fun _ _ _ => rfl⟩
  rw [hshows plainEmulator d hlegible 9 col, hinput]
  rfl

end Weverywhere.ChatScreen
