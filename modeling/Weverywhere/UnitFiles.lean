import Weverywhere.ByteStrings
import Weverywhere.Numerals

/-!
How a systemd unit file gives the words of a command: the line of a setting, its words
with quotes and C-style escapes, and the specifiers in each word. What is read back is
compared with what was written by two counts: of the backslashes and percent signs, and
of the visible characters.
-/
namespace Weverywhere.UnitFiles

open ByteStrings

def backslash : UInt8 := 0x5C

def percent : UInt8 := 0x25

def isEol (b : UInt8) : Bool := b == 0x0A || b == 0x0D

def isBlank (b : UInt8) : Bool := b == 0x20 || b == 0x09 || isEol b

def quote (double : Bool) : UInt8 := if double then 0x22 else 0x27

def isQuote (b : UInt8) : Bool := b == quote true || b == quote false

/-- The line a text begins with. A line that ends in a backslash goes on with the next one,
and a blank stands for the backslash and the line end. -/
def line : Bool → Bytes → Bytes
  | _, [] => []
  | true, b :: rest =>
    if isEol b then 0x20 :: line false rest else backslash :: b :: line false rest
  | false, b :: rest =>
    if isEol b then []
    else if b = backslash then line true rest
    else b :: line false rest

/-! Escapes. -/

def simpleEscape (b : UInt8) : Option UInt8 :=
  ([(0x61, 0x07), (0x62, 0x08), (0x66, 0x0C), (0x6E, 0x0A), (0x72, 0x0D), (0x74, 0x09),
    (0x76, 0x0B), (0x5C, 0x5C), (0x22, 0x22), (0x27, 0x27), (0x73, 0x20)].find?
      fun kv => kv.1 == b).map Prod.snd

/-- The escapes with digits: base, number of digits, how many bytes stand before the
digits, and whether they give a byte or a character. -/
def numericEscape (b : UInt8) : Option (ℕ × ℕ × ℕ × Bool) :=
  if b = 0x78 then some (16, 2, 1, true)
  else if b = 0x75 then some (16, 4, 1, false)
  else if b = 0x55 then some (16, 8, 1, false)
  else if 0x30 ≤ b ∧ b ≤ 0x37 then some (8, 3, 0, true)
  else none

def chars (bytes : Bytes) : List Char := bytes.map fun b => Char.ofNat b.toNat

def digits (base count : ℕ) (bytes : Bytes) : Option ℕ :=
  if (bytes.take count).length = count ∧
      (chars (bytes.take count)).all (Numerals.isDigit base) = true then
    some (Numerals.valueOf base (chars (bytes.take count)))
  else none

/-- No escape gives a null byte or what is not a character. -/
def escaped (isByte : Bool) (n : ℕ) : Option Bytes :=
  if n = 0 then none
  else if isByte then (if n < 256 then some [UInt8.ofNat n] else none)
  else if n.isValidChar then some (String.utf8EncodeChar (Char.ofNat n)) else none

/-- What stands behind a backslash: the bytes it gives, and how many are taken for them. -/
def knownEscape : Bytes → Option (Bytes × ℕ)
  | [] => none
  | b :: rest =>
    match simpleEscape b with
    | some out => some ([out], 1)
    | none => do
      let (base, count, offset, isByte) ← numericEscape b
      let n ← digits base count ((b :: rest).drop offset)
      let out ← escaped isByte n
      some (out, offset + count)

/-! Words. -/

inductive State
  | between
  | word
  | quoted (double : Bool)

/-- What is done with a byte: it is passed over, it ends a word, or it gives some bytes of
a word and more of the text is taken with it. -/
inductive Action
  | gap
  | close
  | emit (out : Bytes) (more : ℕ) (state : State)

/-- An escape that is not known stays as it is. -/
def inside (s : State) (b : UInt8) (rest : Bytes) : Option Action :=
  if b = backslash then
    match knownEscape rest with
    | some (out, more) => some (.emit out more s)
    | none =>
      match rest with
      | [] => none
      | c :: _ => some (.emit [b, c] 1 s)
  else some (.emit [b] 0 s)

def inWord (b : UInt8) (rest : Bytes) : Option Action :=
  if isQuote b then some (.emit [] 0 (.quoted (b == quote true))) else inside .word b rest

def endsWord (rest : Bytes) : Bool := rest.head?.all isBlank

/-- A semicolon that is a word by itself begins another command. -/
def step : State → UInt8 → Bytes → Option Action
  | .between, b, rest =>
    if isBlank b then some .gap
    else if b = 0x3B ∧ endsWord rest = true then none
    else if b = backslash ∧ rest.head? = some 0x3B ∧ endsWord rest.tail = true then
      some (.emit [0x3B] 1 .word)
    else inWord b rest
  | .word, b, rest => if isBlank b then some .close else inWord b rest
  | .quoted double, b, rest =>
    if b = quote double then some (.emit [] 0 .word) else inside (.quoted double) b rest

/-- More bytes in front of the first word. -/
def push (out : Bytes) : List Bytes → List Bytes
  | [] => [out]
  | w :: ws => (out ++ w) :: ws

/-- The words of a text; in a word, the first of them is the rest of it. -/
def scan : ℕ → State → Bytes → Option (List Bytes)
  | _, .between, [] => some []
  | _, .word, [] => some [[]]
  | _, .quoted _, [] => none
  | skip + 1, s, _ :: rest => scan skip s rest
  | 0, s, b :: rest =>
    match step s b rest with
    | none => none
    | some .gap => scan 0 .between rest
    | some .close => (scan 0 .between rest).map ([] :: ·)
    | some (.emit out more s') => (scan more s' rest).map (push out)

def words : Bytes → Option (List Bytes) := scan 0 .between

/-! Specifiers. -/

/-- The values of the specifiers of a host, by their letters. -/
abbrev Specifiers := UInt8 → Option Bytes

/-- An unknown specifier stays as it is. -/
def expand (specifier : Specifiers) : Bytes → Bytes
  | [] => []
  | [b] => [b]
  | b :: c :: rest =>
    if b = percent then
      if c = percent then percent :: expand specifier rest
      else
        match specifier c with
        | some value => value ++ expand specifier rest
        | none => b :: c :: expand specifier rest
    else b :: expand specifier (c :: rest)

/-- The command in the setting whose value a text begins with. -/
def command (specifier : Specifiers) (text : Bytes) : Option (List Bytes) :=
  (words (line false text)).map fun ws => ws.map (expand specifier)

theorem scan_skip (skip : ℕ) (s : State) (bytes : Bytes) :
    scan skip s bytes = scan 0 s (bytes.drop skip) := by
  induction skip generalizing bytes with
  | zero => rw [List.drop_zero]
  | succ skip ih =>
    cases bytes with
    | nil =>
      rw [List.drop_nil]
      cases s <;> rfl
    | cons b rest =>
      rw [List.drop_succ_cons, ← ih rest]
      cases s <;> rfl

/-- One step of the scanner. -/
theorem scan_cons (s : State) (b : UInt8) (rest : Bytes) :
    scan 0 s (b :: rest) =
      match step s b rest with
      | none => none
      | some .gap => scan 0 .between rest
      | some .close => (scan 0 .between rest).map ([] :: ·)
      | some (.emit out more s') => (scan 0 s' (rest.drop more)).map (push out) := by
  have hcons : scan 0 s (b :: rest) =
      match step s b rest with
      | none => none
      | some .gap => scan 0 .between rest
      | some .close => (scan 0 .between rest).map ([] :: ·)
      | some (.emit out more s') => (scan more s' rest).map (push out) := by
    cases s <;> rfl
  rw [hcons]
  cases step s b rest with
  | none => rfl
  | some act =>
    cases act with
    | gap => rfl
    | close => rfl
    | emit out more s' =>
      simp only
      rw [scan_skip]

/-! Words that are read as they stand. -/

/-- Outside quotes the text stands for itself: it has no blanks and no quotes but behind a
backslash, and no backslash in it begins an escape. -/
def Untouched : Bytes → Bool
  | [] => true
  | b :: rest =>
    if b = backslash then
      match rest with
      | [] => false
      | c :: tail => (knownEscape (c :: tail)).isNone && Untouched tail
    else !isBlank b && !isQuote b && Untouched rest

theorem untouched_cons {b : UInt8} (hb : b ≠ backslash) (rest : Bytes) :
    Untouched (b :: rest) = true ↔
      isBlank b = false ∧ isQuote b = false ∧ Untouched rest = true := by
  cases rest <;> simp [Untouched, hb, and_assoc]

theorem untouched_escape (c : UInt8) (tail : Bytes) :
    Untouched (backslash :: c :: tail) = true ↔
      knownEscape (c :: tail) = none ∧ Untouched tail = true := by
  simp [Untouched]

theorem numericEscape_spec {b : UInt8} {base count offset : ℕ} {isByte : Bool}
    (h : numericEscape b = some (base, count, offset, isByte)) : 0 < count ∧ offset ≤ 1 := by
  unfold numericEscape at h
  split_ifs at h <;> cases h <;> decide

theorem digits_append {base count n : ℕ} {bytes : Bytes} (h : digits base count bytes = some n)
    (more : Bytes) : digits base count (bytes ++ more) = some n := by
  unfold digits at h ⊢
  split_ifs at h with hdigits
  have hlength : count ≤ bytes.length := by
    have := hdigits.1
    rw [List.length_take] at this
    omega
  rw [List.take_append_of_le_length hlength, if_pos hdigits]
  exact h

/-- A blank is no digit. -/
theorem digits_of_blank {base count n : ℕ} {bytes more : Bytes}
    (h : digits base count (bytes ++ 0x20 :: more) = some n) :
    digits base count bytes = some n := by
  unfold digits at h ⊢
  split_ifs at h with hdigits
  by_cases hlength : count ≤ bytes.length
  · rw [List.take_append_of_le_length hlength] at h hdigits
    rw [if_pos hdigits]
    exact h
  · have hmem : (0x20 : UInt8) ∈ (bytes ++ 0x20 :: more).take count := by
      obtain ⟨k, hk⟩ : ∃ k, count - bytes.length = k + 1 := ⟨count - bytes.length - 1, by omega⟩
      rw [List.take_append, hk, List.take_succ_cons]
      exact List.mem_append_right _ List.mem_cons_self
    have hdigit := List.all_eq_true.mp hdigits.2 _ (List.mem_map_of_mem hmem)
    have hblank : Numerals.isDigit base (Char.ofNat (0x20 : UInt8).toNat) = false := rfl
    rw [hblank] at hdigit
    cases hdigit

/-- An escape is known by its first byte and by what is read of its digits. -/
theorem knownEscape_of_digits {b : UInt8} {tail tail' : Bytes} {r : Bytes × ℕ}
    (h : knownEscape (b :: tail) = some r)
    (hdigits : ∀ {base count offset n : ℕ}, offset ≤ 1 →
      digits base count ((b :: tail).drop offset) = some n →
        digits base count ((b :: tail').drop offset) = some n) :
    knownEscape (b :: tail') = some r := by
  cases hsimple : simpleEscape b with
  | some c =>
    simp only [knownEscape, hsimple] at h ⊢
    exact h
  | none =>
    simp only [knownEscape, hsimple] at h ⊢
    obtain ⟨⟨base, count, offset, isByte⟩, hspec, h⟩ := Option.bind_eq_some_iff.mp h
    obtain ⟨n, hread, h⟩ := Option.bind_eq_some_iff.mp h
    have hmore := hdigits (numericEscape_spec hspec).2 hread
    exact Option.bind_eq_some_iff.mpr ⟨_, hspec, Option.bind_eq_some_iff.mpr ⟨n, hmore, h⟩⟩

theorem knownEscape_append {rest : Bytes} {r : Bytes × ℕ} (h : knownEscape rest = some r)
    (more : Bytes) : knownEscape (rest ++ more) = some r := by
  cases rest with
  | nil => cases h
  | cons b tail =>
    refine knownEscape_of_digits h ?_
    intro base count offset n hoffset hdigits
    have hlength : offset ≤ (b :: tail).length := hoffset.trans (Nat.le_add_left 1 _)
    have hmore := digits_append hdigits more
    rw [← List.drop_append_of_le_length hlength] at hmore
    exact hmore

/-- No escape goes on over a blank. -/
theorem knownEscape_of_blank {rest more : Bytes} {r : Bytes × ℕ} (hrest : rest ≠ [])
    (h : knownEscape (rest ++ 0x20 :: more) = some r) : knownEscape rest = some r := by
  cases rest with
  | nil => exact absurd rfl hrest
  | cons b tail =>
    rw [List.cons_append] at h
    refine knownEscape_of_digits h ?_
    intro base count offset n hoffset hdigits
    have hlength : offset ≤ (b :: tail).length := hoffset.trans (Nat.le_add_left 1 _)
    rw [← List.cons_append, List.drop_append_of_le_length hlength] at hdigits
    exact digits_of_blank hdigits

theorem step_plain {b : UInt8} (hb : b ≠ backslash) (hblank : isBlank b = false)
    (hquote : isQuote b = false) (rest : Bytes) :
    step .word b rest = some (.emit [b] 0 .word) := by
  simp [step, inWord, inside, hb, hblank, hquote]

theorem step_escape {c : UInt8} {tail : Bytes} (h : knownEscape (c :: tail) = none) :
    step .word backslash (c :: tail) = some (.emit [backslash, c] 1 .word) := by
  have hblank : isBlank backslash = false := rfl
  have hquote : isQuote backslash = false := rfl
  simp [step, inWord, inside, hblank, hquote, h]

/-- An untouched word in front of a blank is read as it stands. -/
theorem scan_untouched {w : Bytes} (h : Untouched w = true) (rest : Bytes) :
    scan 0 .word (w ++ 0x20 :: rest) = (scan 0 .between rest).map (w :: ·) := by
  induction hlength : w.length using Nat.strongRecOn generalizing w with
  | ind n ih =>
    cases w with
    | nil =>
      rw [List.nil_append, scan_cons]
      rfl
    | cons b w =>
      rw [List.length_cons] at hlength
      rw [List.cons_append, scan_cons]
      by_cases hb : b = backslash
      · subst hb
        cases w with
        | nil => cases h
        | cons c w =>
          rw [List.length_cons] at hlength
          obtain ⟨hknown, hw⟩ := (untouched_escape c w).mp h
          have hmore : knownEscape (c :: w ++ 0x20 :: rest) = none := by
            rw [← Option.not_isSome_iff_eq_none] at hknown ⊢
            intro hsome
            obtain ⟨r, hr⟩ := Option.isSome_iff_exists.mp hsome
            exact hknown (Option.isSome_iff_exists.mpr
              ⟨r, knownEscape_of_blank (List.cons_ne_nil c w) hr⟩)
          rw [List.cons_append] at hmore ⊢
          rw [step_escape hmore]
          simp only [List.drop_succ_cons, List.drop_zero]
          rw [ih w.length (by omega) hw rfl]
          cases scan 0 .between rest <;> rfl
      · obtain ⟨hblank, hquote, hw⟩ := (untouched_cons hb w).mp h
        rw [step_plain hb hblank hquote]
        simp only [List.drop_zero]
        rw [ih w.length (by omega) hw rfl]
        cases scan 0 .between rest <;> rfl

/-- An absolute path does not begin as a blank, a semicolon or an escape does. -/
theorem scan_between_of_plain {b : UInt8} (hblank : isBlank b = false) (hsemicolon : b ≠ 0x3B)
    (hb : b ≠ backslash) (rest : Bytes) :
    scan 0 .between (b :: rest) = scan 0 .word (b :: rest) := by
  rw [scan_cons, scan_cons]
  simp [step, hblank, hsemicolon, hb]

/-- An untouched word that does not begin as a separate semicolon or an escaped one does. -/
theorem scan_between_untouched {w : Bytes} {b : UInt8} (hhead : w.head? = some b)
    (hblank : isBlank b = false) (hsemicolon : b ≠ 0x3B) (hb : b ≠ backslash)
    (h : Untouched w = true) (rest : Bytes) :
    scan 0 .between (w ++ 0x20 :: rest) = (scan 0 .between rest).map (w :: ·) := by
  obtain ⟨tail, rfl⟩ := List.head?_eq_some_iff.mp hhead
  rw [List.cons_append, scan_between_of_plain hblank hsemicolon hb, ← List.cons_append,
    scan_untouched h]

/-! Specifiers that are none. -/

def NoSpecifier (specifier : Specifiers) : Bytes → Prop
  | [] => True
  | [_] => True
  | b :: c :: rest =>
    (b = percent → c ≠ percent ∧ specifier c = none) ∧ NoSpecifier specifier (c :: rest)

theorem NoSpecifier.tail {specifier : Specifiers} {b : UInt8} {rest : Bytes}
    (h : NoSpecifier specifier (b :: rest)) : NoSpecifier specifier rest := by
  cases rest with
  | nil => trivial
  | cons c rest => exact h.2

theorem NoSpecifier.cons {specifier : Specifiers} {b : UInt8} {rest : Bytes} (hb : b ≠ percent)
    (h : NoSpecifier specifier rest) : NoSpecifier specifier (b :: rest) := by
  cases rest with
  | nil => trivial
  | cons c rest => exact ⟨fun heq => absurd heq hb, h⟩

theorem expand_of_noSpecifier {specifier : Specifiers} {w : Bytes} (h : NoSpecifier specifier w) :
    expand specifier w = w := by
  fun_induction expand specifier w with
  | case1 => rfl
  | case2 => rfl
  | case3 rest ih => exact absurd rfl (h.1 rfl).1
  | case4 c rest hc value hvalue ih =>
    have hnone := (h.1 rfl).2
    rw [hvalue] at hnone
    cases hnone
  | case5 c rest hc hnone ih => rw [ih h.tail.tail]
  | case6 b c rest hb ih => rw [ih h.tail]

theorem noSpecifier_of_not_mem {specifier : Specifiers} {w : Bytes} (h : percent ∉ w) :
    NoSpecifier specifier w := by
  induction w with
  | nil => trivial
  | cons b w ih =>
    rw [List.mem_cons, not_or] at h
    exact (ih h.2).cons (Ne.symm h.1)

theorem map_expand_of_noSpecifier {specifier : Specifiers} {ws : List Bytes}
    (h : ∀ w ∈ ws, NoSpecifier specifier w) : ws.map (expand specifier) = ws := by
  have hmap : ws.map (expand specifier) = ws.map id :=
    List.map_congr_left fun w hw => expand_of_noSpecifier (h w hw)
  rw [hmap, List.map_id]

/-! Lines. -/

/-- What is still to be written of a backslash that has been read. -/
def pending (escaped : Bool) : Bytes := if escaped then [backslash] else []

theorem line_of_pending {body : Bytes} {last eol : UInt8} (hlast : isEol last = false)
    (hne : last ≠ backslash) (heol : isEol eol = true) (after : Bytes)
    (hbody : ∀ b ∈ body, isEol b = false) (escaped : Bool) :
    line escaped (body ++ last :: eol :: after) = pending escaped ++ body ++ [last] := by
  induction body generalizing escaped with
  | nil => cases escaped <;> simp [line, pending, hlast, hne, heol]
  | cons b body ih =>
    obtain ⟨hb, hbody⟩ := List.forall_mem_cons.mp hbody
    cases escaped with
    | true => simp [line, pending, hb, ih hbody false]
    | false =>
      by_cases hescape : b = backslash
      · have hnot : isEol backslash = false := rfl
        simp [line, pending, hescape, hnot, ih hbody true]
      · simp [line, pending, hb, hescape, ih hbody false]

/-- A text without line ends is the line up to the next one. -/
theorem line_eq {body : Bytes} {last eol : UInt8} (hlast : isEol last = false)
    (hne : last ≠ backslash) (heol : isEol eol = true) (after : Bytes)
    (hbody : ∀ b ∈ body, isEol b = false) :
    line false (body ++ last :: eol :: after) = body ++ [last] :=
  line_of_pending hlast hne heol after hbody false

end Weverywhere.UnitFiles
