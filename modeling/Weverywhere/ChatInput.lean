import Weverywhere.BoundedBuffer
import Weverywhere.ByteStrings
import Weverywhere.MessagesRead
import Weverywhere.Runs

/-!
The input line of the chat program (`ui_loop` in `src/example-programs/chat.c`) under
the terminal events the host encodes for it (`src/src/tty.rs`). The editor works on
bytes. What it is compared with works on characters.
-/
namespace Weverywhere.ChatInput

open ByteStrings BoundedBuffer MessagesRead Runs

inductive TtyEvent
  | char (c : Char)
  | enter
  | backspace
  | left
  | right
  | up
  | down
  | ctrlC
  | ctrlD
  | esc
  | resize (cols rows : UInt16)
  deriving DecidableEq

namespace EventKind

def char : UInt8 := 1
def enter : UInt8 := 2
def backspace : UInt8 := 3
def left : UInt8 := 4
def right : UInt8 := 5
def up : UInt8 := 6
def down : UInt8 := 7
def ctrlC : UInt8 := 8
def ctrlD : UInt8 := 9
def esc : UInt8 := 10
def resize : UInt8 := 11

end EventKind

def encodeEvent : TtyEvent → Bytes
  | .char c => EventKind.char :: String.utf8EncodeChar c
  | .enter => [EventKind.enter]
  | .backspace => [EventKind.backspace]
  | .left => [EventKind.left]
  | .right => [EventKind.right]
  | .up => [EventKind.up]
  | .down => [EventKind.down]
  | .ctrlC => [EventKind.ctrlC]
  | .ctrlD => [EventKind.ctrlD]
  | .esc => [EventKind.esc]
  | .resize cols rows => EventKind.resize :: (u16LE cols ++ u16LE rows)

/-- What `host::tty_next_event` writes; nothing when the time elapsed. -/
def ttyNextEvent (cap : ℕ) : Option TtyEvent → Bytes
  | none => []
  | some event => writeGuestBytes cap (encodeEvent event)

/-- The loop's state as far as the input line goes, with the texts `send_line` got. -/
structure Ui where
  input : Buffer UInt8 1024
  sent : List Bytes
  running : Bool

def Ui.start : Ui := ⟨.empty, [], true⟩

/-- `sizeof(evbuf)`. -/
def evbufSize : ℕ := 16

/-- One turn of the loop with the first `e` bytes of `evbuf`. -/
def Ui.handle (ui : Ui) : Bytes → Ui
  | [] => ui
  | kind :: payload =>
    if kind = EventKind.ctrlC ∨ kind = EventKind.ctrlD ∨ kind = EventKind.esc then
      { ui with running := false }
    else if kind = EventKind.char then { ui with input := ui.input.pushWhileRoom payload }
    else if kind = EventKind.backspace then
      if 0 < ui.input.items.length then { ui with input := ui.input.pop } else ui
    else if kind = EventKind.enter then
      if 0 < ui.input.items.length then
        { ui with input := .empty, sent := ui.sent ++ [ui.input.items] }
      else ui
    else ui

/-- One turn of `ui_loop`; once it is left there are no more. -/
def uiLoop (ui : Ui) (event : Option TtyEvent) : Ui :=
  if ui.running then ui.handle (ttyNextEvent evbufSize event) else ui

/-! The line as its characters. -/

structure Typed where
  chars : List Char
  sent : List (List Char)
  running : Bool

def Typed.start : Typed := ⟨[], [], true⟩

def charsUtf8 (chars : List Char) : Bytes := utf8 (String.ofList chars)

/-- A character is appended where it still fits whole, and taken back whole. -/
def Typed.next (t : Typed) : Option TtyEvent → Typed
  | some (.char c) =>
    if (charsUtf8 t.chars).length + c.utf8Size ≤ 1024 then { t with chars := t.chars ++ [c] } else t
  | some .backspace => { t with chars := t.chars.dropLast }
  | some .enter =>
    if t.chars.isEmpty then t else { t with chars := [], sent := t.sent ++ [t.chars] }
  | some .ctrlC => { t with running := false }
  | some .ctrlD => { t with running := false }
  | some .esc => { t with running := false }
  | _ => t

def typedLoop (t : Typed) (event : Option TtyEvent) : Typed :=
  if t.running then t.next event else t

/-- The bytes are those of the characters, on the line and in what was sent. -/
structure WholeCharacters (ui : Ui) (t : Typed) : Prop where
  input : ui.input.items = charsUtf8 t.chars
  sent : ui.sent = t.sent.map charsUtf8

/-- The program and the characters typed, side by side. -/
abbrev Session := Ui × Typed

def step (s : Session) (event : Option TtyEvent) : Session :=
  (uiLoop s.1 event, typedLoop s.2 event)

def Session.start : Session := (.start, .start)

/-- No character is cut: one that is typed fits, or there is no room at all, and one
that is taken back is a single byte. -/
def NothingCut (s : Session) : Option TtyEvent → Prop
  | some (.char c) => s.2.running = true →
      (charsUtf8 s.2.chars).length + c.utf8Size ≤ 1024 ∨ (charsUtf8 s.2.chars).length = 1024
  | some .backspace => s.2.running = true → ∀ c, s.2.chars.getLast? = some c → c.utf8Size = 1
  | _ => True

/-! The characters of a line and their bytes. -/

theorem charsUtf8_nil : charsUtf8 [] = [] := rfl

theorem charsUtf8_eq_flatMap (chars : List Char) :
    charsUtf8 chars = chars.flatMap String.utf8EncodeChar :=
  utf8_ofList chars

theorem charsUtf8_append_singleton (chars : List Char) (c : Char) :
    charsUtf8 (chars ++ [c]) = charsUtf8 chars ++ String.utf8EncodeChar c := by
  rw [charsUtf8_eq_flatMap, charsUtf8_eq_flatMap, List.flatMap_append, List.flatMap_singleton]

theorem charsUtf8_eq_nil_iff (chars : List Char) : charsUtf8 chars = [] ↔ chars = [] := by
  constructor
  · intro h
    have hnil : String.ofList chars = String.ofList [] :=
      utf8_injective (h.trans charsUtf8_nil.symm)
    exact String.ofList_injective hnil
  · intro h
    rw [h, charsUtf8_nil]

/-- Filling the buffer with a character keeps the line whole when it fits, and when
nothing of it does. -/
theorem take_append_char_iff {chars : List Char} (hlen : (charsUtf8 chars).length ≤ 1024)
    (c : Char) :
    (charsUtf8 chars ++ String.utf8EncodeChar c).take 1024 =
        charsUtf8 (if (charsUtf8 chars).length + c.utf8Size ≤ 1024 then chars ++ [c] else chars) ↔
      (charsUtf8 chars).length + c.utf8Size ≤ 1024 ∨ (charsUtf8 chars).length = 1024 := by
  have hsize := String.length_utf8EncodeChar c
  by_cases hfits : (charsUtf8 chars).length + c.utf8Size ≤ 1024
  · rw [if_pos hfits, charsUtf8_append_singleton, List.take_of_length_le]
    · exact ⟨fun _ => Or.inl hfits, fun _ => rfl⟩
    · rw [List.length_append]
      omega
  · rw [if_neg hfits]
    constructor
    · intro h
      have hlength := congrArg List.length h
      rw [List.length_take, List.length_append] at hlength
      omega
    · intro h
      have hfull := h.resolve_left hfits
      rw [List.take_append_of_le_length hfull.ge, List.take_of_length_le hfull.le]

/-- Taking one byte back takes the last character back when it is one byte. -/
theorem dropLast_charsUtf8_iff (chars : List Char) :
    (charsUtf8 chars).dropLast = charsUtf8 chars.dropLast ↔
      ∀ c, chars.getLast? = some c → c.utf8Size = 1 := by
  rcases List.eq_nil_or_concat chars with hnil | hlast
  · subst hnil
    constructor
    · intro _ c hc
      cases hc
    · intro _
      rfl
  · obtain ⟨before, c, rfl⟩ := hlast
    have hsize := String.length_utf8EncodeChar c
    have hpos := c.utf8Size_pos
    have hne : String.utf8EncodeChar c ≠ [] := List.length_pos_iff.mp (hsize ▸ hpos)
    rw [List.concat_eq_append, charsUtf8_append_singleton, List.dropLast_concat,
      List.dropLast_append_of_ne_nil hne, List.getLast?_concat]
    constructor
    · intro h last hc
      obtain rfl := Option.some.inj hc
      have hlength := congrArg List.length h
      rw [List.length_append, List.length_dropLast] at hlength
      omega
    · intro h
      have hone := h c rfl
      have hdrop : (String.utf8EncodeChar c).dropLast = [] := by
        apply List.length_eq_zero_iff.mp
        rw [List.length_dropLast]
        omega
      rw [hdrop, List.append_nil]

/-! One turn. -/

theorem encodeEvent_length (event : TtyEvent) : (encodeEvent event).length ≤ evbufSize := by
  cases event with
  | char c =>
    have hsize := c.utf8Size_le_four
    simp only [encodeEvent, List.length_cons, String.length_utf8EncodeChar, evbufSize]
    omega
  | resize cols rows => simp [encodeEvent, u16LE, evbufSize]
  | _ => simp [encodeEvent, evbufSize]

/-- An event arrives whole. -/
theorem uiLoop_running {ui : Ui} (hrunning : ui.running = true) (event : TtyEvent) :
    uiLoop ui (some event) = ui.handle (encodeEvent event) := by
  rw [uiLoop, if_pos hrunning, ttyNextEvent, writeGuestBytes_of_le (encodeEvent_length event)]

theorem uiLoop_char {ui : Ui} (hrunning : ui.running = true) (c : Char) :
    uiLoop ui (some (.char c)) =
      { ui with input := ui.input.pushAll (String.utf8EncodeChar c) } := by
  rw [uiLoop_running hrunning, ← Buffer.pushWhileRoom_eq]
  rfl

theorem uiLoop_backspace {ui : Ui} (hrunning : ui.running = true) :
    uiLoop ui (some .backspace) = { ui with input := ui.input.pop } := by
  rw [uiLoop_running hrunning]
  by_cases hpos : 0 < ui.input.items.length
  · exact if_pos hpos
  · have hempty : ui.input.items = [] := List.length_eq_zero_iff.mp (by omega)
    have hpop : ui.input.pop = ui.input := by
      apply Buffer.ext
      rw [Buffer.items_pop, hempty]
      rfl
    rw [hpop]
    exact if_neg hpos

theorem uiLoop_enter {ui : Ui} (hrunning : ui.running = true) :
    uiLoop ui (some .enter) =
      if 0 < ui.input.items.length then
        { ui with input := .empty, sent := ui.sent ++ [ui.input.items] }
      else ui := by
  rw [uiLoop_running hrunning]
  rfl

/-- Where the end of the line is before and after a character. -/
theorem next_char (t : Typed) (c : Char) :
    t.next (some (.char c)) = { t with chars :=
      if (charsUtf8 t.chars).length + c.utf8Size ≤ 1024 then t.chars ++ [c] else t.chars } := by
  have hnext : t.next (some (.char c)) =
      if (charsUtf8 t.chars).length + c.utf8Size ≤ 1024 then { t with chars := t.chars ++ [c] }
      else t := rfl
  rw [hnext]
  by_cases hfits : (charsUtf8 t.chars).length + c.utf8Size ≤ 1024
  · rw [if_pos hfits, if_pos hfits]
  · rw [if_neg hfits, if_neg hfits]

theorem next_backspace (t : Typed) :
    t.next (some .backspace) = { t with chars := t.chars.dropLast } := rfl

theorem next_enter (t : Typed) :
    t.next (some .enter) =
      if t.chars.isEmpty then t else { t with chars := [], sent := t.sent ++ [t.chars] } := rfl

theorem uiLoop_none (ui : Ui) : uiLoop ui none = ui := ite_self ui

theorem step_running {ui : Ui} {t : Typed} (hui : ui.running = true) (ht : t.running = true)
    (event : TtyEvent) :
    step (ui, t) (some event) = (ui.handle (encodeEvent event), t.next (some event)) := by
  rw [step, uiLoop_running hui, typedLoop, if_pos ht]

theorem step_none (ui : Ui) (t : Typed) : step (ui, t) none = (ui, t) := by
  have ht : typedLoop t none = t := ite_self t
  rw [step, uiLoop_none, ht]

theorem step_stopped {ui : Ui} {t : Typed} (hui : ui.running = false) (ht : t.running = false)
    (event : Option TtyEvent) : step (ui, t) event = (ui, t) := by
  rw [step, uiLoop, typedLoop, hui, ht]
  rfl

/-- Whether an event makes the loop end. -/
def leaves : TtyEvent → Bool
  | .ctrlC => true
  | .ctrlD => true
  | .esc => true
  | _ => false

theorem running_handle (ui : Ui) (event : TtyEvent) :
    (ui.handle (encodeEvent event)).running = (ui.running && !leaves event) := by
  cases event with
  | enter =>
    have hhandle : ui.handle (encodeEvent .enter) = if 0 < ui.input.items.length then
        { ui with input := .empty, sent := ui.sent ++ [ui.input.items] } else ui := rfl
    rw [hhandle]
    split_ifs <;> simp [leaves]
  | backspace =>
    have hhandle : ui.handle (encodeEvent .backspace) =
        if 0 < ui.input.items.length then { ui with input := ui.input.pop } else ui := rfl
    rw [hhandle]
    split_ifs <;> simp [leaves]
  | ctrlC => simp [Ui.handle, encodeEvent, leaves]
  | ctrlD => simp [Ui.handle, encodeEvent, leaves]
  | esc => simp [Ui.handle, encodeEvent, leaves]
  | _ => exact (Bool.and_true ui.running).symm

theorem running_next (t : Typed) (event : TtyEvent) :
    (t.next (some event)).running = (t.running && !leaves event) := by
  cases event with
  | char c =>
    rw [next_char]
    exact (Bool.and_true t.running).symm
  | enter =>
    rw [next_enter]
    split_ifs <;> exact (Bool.and_true t.running).symm
  | ctrlC => exact (Bool.and_false t.running).symm
  | ctrlD => exact (Bool.and_false t.running).symm
  | esc => exact (Bool.and_false t.running).symm
  | _ => exact (Bool.and_true t.running).symm

/-- The two stop together. -/
theorem running_step {s : Session} (h : s.1.running = s.2.running) (event : Option TtyEvent) :
    (step s event).1.running = (step s event).2.running := by
  obtain ⟨ui, t⟩ := s
  have hboth : ui.running = t.running := h
  cases hui : ui.running with
  | false =>
    rw [step_stopped hui (hboth ▸ hui)]
    exact hboth
  | true =>
    cases event with
    | none =>
      rw [step_none]
      exact hboth
    | some event =>
      rw [step_running hui (hboth ▸ hui)]
      exact (running_handle ui event).trans (hboth ▸ (running_next t event).symm)

theorem whole_line_iff {ui : Ui} {t : Typed} (hsent : ui.sent = t.sent.map charsUtf8)
    (input : Buffer UInt8 1024) (chars : List Char) :
    WholeCharacters { ui with input := input } { t with chars := chars } ↔
      input.items = charsUtf8 chars :=
  ⟨fun h => h.input, fun h => ⟨h, hsent⟩⟩

/-- Once the loop is over nothing is typed. -/
theorem nothingCut_of_stopped {ui : Ui} {t : Typed} (ht : t.running = false)
    (event : Option TtyEvent) : NothingCut (ui, t) event := by
  have hnever : ¬ t.running = true := by simp [ht]
  cases event with
  | none => trivial
  | some event =>
    cases event with
    | char c => exact fun hrun => absurd hrun hnever
    | backspace => exact fun hrun => absurd hrun hnever
    | _ => trivial

theorem wholeCharacters_enter {ui : Ui} {t : Typed} (hui : ui.running = true)
    (hwhole : WholeCharacters ui t) :
    WholeCharacters (uiLoop ui (some .enter)) (t.next (some .enter)) := by
  rw [uiLoop_enter hui, next_enter, hwhole.input]
  by_cases hchars : t.chars = []
  · have hzero : ¬ 0 < (charsUtf8 t.chars).length := by simp [hchars, charsUtf8_nil]
    rw [if_neg hzero, if_pos (by simpa using hchars)]
    exact hwhole
  · have hpos : 0 < (charsUtf8 t.chars).length :=
      List.length_pos_iff.mpr (mt (charsUtf8_eq_nil_iff t.chars).mp hchars)
    rw [if_pos hpos, if_neg (by simpa using hchars)]
    constructor
    · exact Buffer.items_empty
    · rw [List.map_append, hwhole.sent]
      rfl

/-- A turn keeps whole characters whole exactly when it cuts none. -/
theorem wholeCharacters_step_iff {s : Session} (hrunning : s.1.running = s.2.running)
    (h : WholeCharacters s.1 s.2) (event : Option TtyEvent) :
    WholeCharacters (step s event).1 (step s event).2 ↔ NothingCut s event := by
  obtain ⟨ui, t⟩ := s
  have hboth : ui.running = t.running := hrunning
  have hwhole : WholeCharacters ui t := h
  cases hui : ui.running with
  | false =>
    have ht : t.running = false := hboth ▸ hui
    rw [step_stopped hui ht]
    exact ⟨fun _ => nothingCut_of_stopped ht event, fun _ => hwhole⟩
  | true =>
    have ht : t.running = true := hboth ▸ hui
    have hlen : (charsUtf8 t.chars).length ≤ 1024 := hwhole.input ▸ ui.input.fits
    cases event with
    | none =>
      rw [step_none]
      exact ⟨fun _ => trivial, fun _ => hwhole⟩
    | some event =>
      cases event with
      | char c =>
        rw [step, uiLoop_char hui, typedLoop, if_pos ht, next_char, whole_line_iff hwhole.sent,
          Buffer.items_pushAll, hwhole.input, take_append_char_iff hlen c]
        exact ⟨fun hroom _ => hroom, fun hroom => hroom ht⟩
      | backspace =>
        rw [step, uiLoop_backspace hui, typedLoop, if_pos ht, next_backspace,
          whole_line_iff hwhole.sent, Buffer.items_pop, hwhole.input, dropLast_charsUtf8_iff]
        exact ⟨fun hone _ => hone, fun hone => hone ht⟩
      | enter =>
        rw [step, typedLoop, if_pos ht]
        exact ⟨fun _ => trivial, fun _ => wholeCharacters_enter hui hwhole⟩
      | _ =>
        rw [step_running hui ht]
        exact ⟨fun _ => trivial, fun _ => ⟨hwhole.input, hwhole.sent⟩⟩

/-- The line holds whole characters after every event exactly when no event cuts one. -/
theorem whole_characters_iff (events : List (Option TtyEvent)) :
    EveryState step (fun s => WholeCharacters s.1 s.2) Session.start events ↔
      EachStep step NothingCut Session.start events := by
  have hwhole : WholeCharacters Session.start.1 Session.start.2 := ⟨charsUtf8_nil.symm, rfl⟩
  have hrunning : Session.start.1.running = Session.start.2.running := rfl
  have hinv : ∀ (s : Session) event, s.1.running = s.2.running →
      (step s event).1.running = (step s event).2.running := fun _ event hs => running_step hs event
  exact everyState_iff_eachStep_of_inv step hinv
    (fun _ event hs hw => wholeCharacters_step_iff hs hw event) hrunning hwhole events

/-- An accented letter typed and taken back. -/
def accentTakenBack : List (Option TtyEvent) := [some (.char 'é'), some .backspace]

theorem accent_cut :
    ¬ EveryState step (fun s => WholeCharacters s.1 s.2) Session.start accentTakenBack := by
  intro h
  have hinput := h.last.input
  have hbytes : (accentTakenBack.foldl step Session.start).1.input.items = [0xC3] := by
    decide +kernel
  have hnone : (accentTakenBack.foldl step Session.start).2.chars = [] := by decide +kernel
  rw [hbytes, hnone, charsUtf8_nil] at hinput
  cases hinput

end Weverywhere.ChatInput
