import Weverywhere.ChatInput
import Weverywhere.NetworkMap

/-!
The terminal a program draws on and reads keys from (`src/src/tty.rs`, and the
`host::tty_*` imports in `src/src/executor/mod.rs`). What `crossterm` is told stands
here as a list of commands; a command is presented once the output is flushed.
-/
namespace Weverywhere.Terminal

open ByteStrings MessagesRead NetworkMap ChatInput

/-! Keys. -/

inductive KeyCode
  | char (c : Char)
  | enter
  | backspace
  | left
  | right
  | up
  | down
  | esc
  /-- A key `map_event` has no case for. -/
  | other
  deriving DecidableEq

inductive KeyEventKind
  | press
  | repeat
  | release
  deriving DecidableEq

inductive Event
  | resize (cols rows : UInt16)
  | key (code : KeyCode) (control : Bool) (kind : KeyEventKind)
  /-- The mouse, the focus and pasted text. -/
  | other
  deriving DecidableEq

/-- `map_event`. -/
def mapEvent : Event → Option TtyEvent
  | .resize c r => some (.resize c r)
  | .key code control kind =>
    if kind ≠ .press ∧ kind ≠ .repeat then none
    else
      match code with
      | .char c =>
          if c = 'c' ∧ control = true then some .ctrlC
          else if c = 'd' ∧ control = true then some .ctrlD
          else some (.char c)
      | .enter => some .enter
      | .backspace => some .backspace
      | .left => some .left
      | .right => some .right
      | .up => some .up
      | .down => some .down
      | .esc => some .esc
      | .other => none
  | .other => none

/-! Output. -/

inductive Color
  | black | darkRed | darkGreen | darkYellow | darkBlue | darkMagenta | darkCyan | grey
  | darkGrey | red | green | yellow | blue | magenta | cyan | white
  | reset
  deriving DecidableEq

inductive Attribute
  | reset
  | bold
  | underlined
  | reverse
  deriving DecidableEq

def ansiColor (c : Int32) : Color :=
  match c.toInt with
  | 0 => .black
  | 1 => .darkRed
  | 2 => .darkGreen
  | 3 => .darkYellow
  | 4 => .darkBlue
  | 5 => .darkMagenta
  | 6 => .darkCyan
  | 7 => .grey
  | 8 => .darkGrey
  | 9 => .red
  | 10 => .green
  | 11 => .yellow
  | 12 => .blue
  | 13 => .magenta
  | 14 => .cyan
  | 15 => .white
  | _ => .reset

inductive Command
  | print (s : String)
  | moveTo (col row : UInt16)
  | clearAll
  | setForegroundColor (c : Color)
  | setBackgroundColor (c : Color)
  | setAttribute (a : Attribute)
  deriving DecidableEq

/-- `host::tty_print`. -/
def ttyPrint (bytes : Bytes) : List Command := [.print (fromUtf8Lossy bytes)]

/-- `host::tty_move`: negative positions are zero, larger ones are cut to 16 bits. -/
def ttyMove (col row : Int32) : List Command :=
  [.moveTo (UInt16.ofNat col.toNatClampNeg) (UInt16.ofNat row.toNatClampNeg)]

def ttyClear : List Command := [.clearAll]

/-- `host::tty_style`: one attribute at most, the first of the bits that is set. -/
def ttyStyle (fg bg attrs : Int32) : List Command :=
  [.setForegroundColor (ansiColor fg), .setBackgroundColor (ansiColor bg),
    .setAttribute (
      if attrs = 0 then .reset
      else if attrs &&& 0b001 ≠ 0 then .bold
      else if attrs &&& 0b010 ≠ 0 then .underlined
      else .reverse)]

/-- `host::tty_size`: what is written and returned, -1 without a terminal. -/
def ttySize : Option (UInt16 × UInt16) → Int32 × Bytes
  | none => (-1, [])
  | some (cols, rows) => (4, writeGuestBytes 4 (u16LE cols ++ u16LE rows))

/-- Keys on the channel, and the output of `TtyHandle`: what is queued and what was
presented, oldest first. -/
structure Tty where
  rx : List TtyEvent
  queued : List Command
  presented : List Command

namespace Tty

/-- One turn of the reader thread. -/
def read (t : Tty) (event : Event) : Tty := { t with rx := t.rx ++ (mapEvent event).toList }

/-- `next_event`: the oldest event, if one comes in time. -/
def nextEvent (t : Tty) : Option TtyEvent × Tty := (t.rx.head?, { t with rx := t.rx.tail })

def queue (t : Tty) (commands : List Command) : Tty := { t with queued := t.queued ++ commands }

/-- `host::tty_flush`. -/
def flush (t : Tty) : Tty := { t with queued := [], presented := t.presented ++ t.queued }

end Tty

/-! What stands on a display. -/

/-- The characters in the cells, by row and column, and where the cursor is. How they
look is left out. -/
structure Display where
  cell : ℕ → ℕ → Char
  row : ℕ
  col : ℕ

/-- A terminal of a given size. A narrow character takes one column. What it does with
any other (a control character, a wide one), and with a character for which its row has
no column left, is its own affair. -/
structure Emulator where
  cols : ℕ
  rows : ℕ
  narrow : Char → Bool
  other : Display → Char → Display

namespace Emulator

variable (e : Emulator)

def put (d : Display) (ch : Char) : Display :=
  if e.narrow ch = true ∧ d.col < e.cols then
    { d with
      cell := fun r c => if r = d.row ∧ c = d.col then ch else d.cell r c
      col := d.col + 1 }
  else e.other d ch

def obey (d : Display) : Command → Display
  | .print s => s.toList.foldl e.put d
  | .moveTo col row =>
      { d with row := min row.toNat (e.rows - 1), col := min col.toNat (e.cols - 1) }
  | .clearAll => { d with cell := fun _ _ => ' ' }
  | .setForegroundColor _ => d
  | .setBackgroundColor _ => d
  | .setAttribute _ => d

def present (d : Display) (commands : List Command) : Display := commands.foldl e.obey d

variable {e} {d : Display}

theorem present_append (before after : List Command) :
    e.present d (before ++ after) = e.present (e.present d before) after := by
  rw [present, present, present, List.foldl_append]

@[simp] theorem present_style (fg bg attrs : Int32) : e.present d (ttyStyle fg bg attrs) = d := rfl

/-- Narrow characters that have room stand side by side. -/
theorem foldl_put {chars : List Char} (hnarrow : ∀ ch ∈ chars, e.narrow ch = true)
    (hroom : d.col + chars.length ≤ e.cols) :
    (chars.foldl e.put d).row = d.row ∧ (chars.foldl e.put d).col = d.col + chars.length ∧
      ∀ r c, (chars.foldl e.put d).cell r c =
        (if r = d.row ∧ d.col ≤ c then chars[c - d.col]? else none).getD (d.cell r c) := by
  induction chars generalizing d with
  | nil => simp
  | cons ch chars ih =>
    rw [List.length_cons] at hroom
    have hput : e.put d ch =
        { d with
          cell := fun r c => if r = d.row ∧ c = d.col then ch else d.cell r c
          col := d.col + 1 } := if_pos ⟨hnarrow ch List.mem_cons_self, by omega⟩
    have hputRow : (e.put d ch).row = d.row := by rw [hput]
    have hputCol : (e.put d ch).col = d.col + 1 := by rw [hput]
    have hputCell : ∀ r c, (e.put d ch).cell r c =
        if r = d.row ∧ c = d.col then ch else d.cell r c := by
      rw [hput]
      exact fun _ _ => rfl
    obtain ⟨hrow, hcol, hcell⟩ := ih (d := e.put d ch)
      (fun ch' h => hnarrow ch' (List.mem_cons_of_mem ch h)) (by omega)
    rw [List.foldl_cons]
    refine ⟨hrow.trans hputRow, ?_, ?_⟩
    · rw [hcol, hputCol, List.length_cons]
      omega
    · intro r c
      rw [hcell, hputRow, hputCol, hputCell]
      by_cases hr : r = d.row
      · rcases Nat.lt_trichotomy c d.col with hlt | heq | hgt
        · rw [if_neg (by omega), if_neg (by omega), if_neg (by omega)]
        · subst heq
          rw [if_neg (by omega), if_pos ⟨hr, rfl⟩, if_pos ⟨hr, le_rfl⟩, Nat.sub_self,
            Option.getD_none]
          rfl
        · have hindex : c - d.col = c - (d.col + 1) + 1 := by omega
          rw [if_pos ⟨hr, by omega⟩, if_neg (by omega), if_pos ⟨hr, by omega⟩, hindex,
            List.getElem?_cons_succ]
      · rw [if_neg (by simp [hr]), if_neg (by simp [hr]), if_neg (by simp [hr])]

/-- A text from the first column on, over what the row had. -/
theorem present_row (d : Display) {row : ℕ} {chars : List Char} (hrow : row < e.rows)
    (hsmall : row < 2 ^ 16)
    (hnarrow : ∀ ch ∈ chars, e.narrow ch = true) (hroom : chars.length ≤ e.cols) (r c : ℕ) :
    (chars.foldl e.put (e.obey d (.moveTo 0 (UInt16.ofNat row)))).cell r c =
      (if r = row then chars[c]? else none).getD (d.cell r c) := by
  have hmoved : e.obey d (.moveTo 0 (UInt16.ofNat row)) = { d with row := row, col := 0 } := by
    have hvalue : (UInt16.ofNat row).toNat = row := UInt16.toNat_ofNat_of_lt hsmall
    have hzero : (0 : UInt16).toNat = 0 := rfl
    simp only [obey, hvalue, hzero, Nat.zero_min]
    rw [Nat.min_eq_left (by omega)]
  rw [hmoved]
  obtain ⟨-, -, hcell⟩ := foldl_put (d := { d with row := row, col := 0 }) hnarrow
    (by simpa using hroom)
  rw [hcell]
  simp

/-- Texts in rows one below the other. -/
theorem present_rows (d : Display) (base : ℕ) {texts : List String}
    (hrows : base + texts.length ≤ e.rows) (hsmall : base + texts.length ≤ 2 ^ 16)
    (hnarrow : ∀ text ∈ texts, ∀ ch ∈ text.toList, e.narrow ch = true)
    (hroom : ∀ text ∈ texts, text.toList.length ≤ e.cols) (r c : ℕ) :
    (e.present d ((texts.zipIdx base).flatMap fun (text, row) =>
      [.moveTo 0 (UInt16.ofNat row), .print text])).cell r c =
      (if base ≤ r then (texts[r - base]?).bind fun text => text.toList[c]? else none).getD
        (d.cell r c) := by
  induction texts generalizing base d with
  | nil => simp [present]
  | cons text texts ih =>
    rw [List.length_cons] at hrows hsmall
    have hfirst := present_row d (show base < e.rows by omega) (by omega)
      (hnarrow text List.mem_cons_self) (hroom text List.mem_cons_self) r c
    have hrest := ih (text.toList.foldl e.put (e.obey d (.moveTo 0 (UInt16.ofNat base))))
      (base + 1) (by omega) (by omega)
      (fun text' h => hnarrow text' (List.mem_cons_of_mem text h))
      (fun text' h => hroom text' (List.mem_cons_of_mem text h))
    have hcommands : e.present d (((text :: texts).zipIdx base).flatMap fun (text, row) =>
        [.moveTo 0 (UInt16.ofNat row), .print text]) =
        e.present (text.toList.foldl e.put (e.obey d (.moveTo 0 (UInt16.ofNat base))))
          ((texts.zipIdx (base + 1)).flatMap fun (text, row) =>
            [.moveTo 0 (UInt16.ofNat row), .print text]) := rfl
    rw [hcommands, hrest, hfirst]
    rcases Nat.lt_trichotomy r base with hlt | heq | hgt
    · rw [if_neg (by omega), if_neg (by omega), if_neg (by omega), Option.getD_none]
    · subst heq
      rw [if_neg (by omega), if_pos rfl, if_pos le_rfl, Nat.sub_self, Option.getD_none]
      rfl
    · have hindex : r - base = r - (base + 1) + 1 := by omega
      rw [if_pos (by omega), if_neg (by omega), if_pos (by omega), hindex,
        List.getElem?_cons_succ, Option.getD_none]

end Emulator

/-- What the reader thread sent and the program took, in the order of the keys. -/
theorem nextEvent_split (t : Tty) : t.nextEvent.1.toList ++ t.nextEvent.2.rx = t.rx := by
  unfold Tty.nextEvent
  cases t.rx <;> rfl

end Weverywhere.Terminal
