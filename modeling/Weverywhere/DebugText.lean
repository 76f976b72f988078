import Weverywhere.Numerals

/-!
A text as Rust's `{:?}` writes it: in quotes, with a backslash before quotes and
backslashes and with escapes for what cannot be seen. Which further characters stand for
themselves is a table of the standard library and a parameter here. The text is read back
with anything behind its closing quote, and takes up one line.
-/
namespace Weverywhere.DebugText

open Numerals

/-- Characters with an escape of their own, and the letter of the escape. -/
def shortEscapes : List (Char × Char) :=
  [('\x00', '0'), ('\t', 't'), ('\r', 'r'), ('\n', 'n'), ('\\', '\\'), ('"', '"')]

variable (plain : Char → Bool)

/-- `char::escape_debug` inside double quotes. -/
def escapeDebug (c : Char) : List Char :=
  match shortEscapes.lookup c with
  | some letter => ['\\', letter]
  | none =>
    if plain c then [c]
    else '\\' :: 'u' :: '{' :: (Nat.toDigits 16 c.toNat ++ ['}'])

def debug (text : List Char) : List Char := '"' :: (text.flatMap (escapeDebug plain) ++ ['"'])

/-! Reading back. -/

/-- Where in an escape a reader is; `code` has the value of the digits so far. -/
inductive Mode
  | text
  | escape
  | opening
  | code (n : ℕ)

def prepend (c : Char) (read : List Char × List Char) : List Char × List Char :=
  (c :: read.1, read.2)

/-- The text up to the closing quote, and what is behind it. -/
def readBody : Mode → List Char → Option (List Char × List Char)
  | _, [] => none
  | .text, c :: rest =>
    if c = '"' then some ([], rest)
    else if c = '\\' then readBody .escape rest
    else (readBody .text rest).map (prepend c)
  | .escape, c :: rest =>
    if c = 'u' then readBody .opening rest
    else (shortEscapes.find? fun e => e.2 = c).bind fun e =>
      (readBody .text rest).map (prepend e.1)
  | .opening, c :: rest => if c = '{' then readBody (.code 0) rest else none
  | .code n, c :: rest =>
    if c = '}' then (readBody .text rest).map (prepend (Char.ofNat n))
    else (toDigit 16 c).bind fun d => readBody (.code (n * 16 + d)) rest

def readDebug : List Char → Option (List Char × List Char)
  | [] => none
  | c :: rest => if c = '"' then readBody .text rest else none

theorem readBody_code (digits : List Char) (hdigits : ∀ c ∈ digits, ∃ d < 16, c = Nat.digitChar d)
    (n : ℕ) (rest : List Char) :
    readBody (.code n) (digits ++ '}' :: rest) = (readBody .text rest).map
      (prepend (Char.ofNat (digits.foldl (fun n c => n * 16 + (toDigit 16 c).getD 0) n))) := by
  induction digits generalizing n with
  | nil => simp [readBody]
  | cons c digits ih =>
    obtain ⟨d, hd, rfl⟩ := hdigits c List.mem_cons_self
    have hbrace : ∀ d < 16, Nat.digitChar d ≠ '}' := by decide
    have hrest := ih fun c hc => hdigits c (List.mem_cons_of_mem _ hc)
    rw [List.cons_append, readBody, if_neg (hbrace d hd), toDigit_digitChar hd (Nat.le_refl 16),
      Option.bind_some, hrest, List.foldl_cons, toDigit_digitChar hd (Nat.le_refl 16),
      Option.getD_some]

theorem readBody_shortEscape {c letter : Char} (h : shortEscapes.lookup c = some letter)
    (rest : List Char) :
    readBody .text ('\\' :: letter :: rest) = (readBody .text rest).map (prepend c) := by
  have hletters : ∀ e ∈ shortEscapes, e.2 ≠ 'u' ∧
      shortEscapes.find? (fun e' => e'.2 = e.2) = some e := by decide
  have hmem : (c, letter) ∈ shortEscapes := by
    obtain ⟨before, after, hsplit, -⟩ := List.lookup_eq_some_iff.mp h
    rw [hsplit]
    exact List.mem_append_right _ List.mem_cons_self
  obtain ⟨hletter, hfind⟩ := hletters _ hmem
  have hquote : '\\' ≠ '"' := by decide
  rw [readBody, if_neg hquote, if_pos rfl, readBody, if_neg hletter, hfind, Option.bind_some]

theorem readBody_escapeDebug (c : Char) (rest : List Char) :
    readBody .text (escapeDebug plain c ++ rest) = (readBody .text rest).map (prepend c) := by
  rw [escapeDebug]
  split
  · next letter h => exact readBody_shortEscape h rest
  · next h =>
    split_ifs with hplain
    · have hquote : c ≠ '"' := by
        rintro rfl
        cases h
      have hbackslash : c ≠ '\\' := by
        rintro rfl
        cases h
      rw [List.singleton_append, readBody, if_neg hquote, if_neg hbackslash]
    · have hquote : '\\' ≠ '"' := by decide
      have hcode := readBody_code (Nat.toDigits 16 c.toNat)
        (fun _ => mem_toDigits (by omega)) 0 rest
      have hvalue : valueOf 16 (Nat.toDigits 16 c.toNat) = c.toNat :=
        valueOf_toDigits (by omega) (Nat.le_refl 16) c.toNat
      rw [valueOf] at hvalue
      rw [hvalue, Char.ofNat_toNat] at hcode
      simp only [List.cons_append, List.append_assoc, List.nil_append]
      rw [readBody, if_neg hquote, if_pos rfl, readBody, if_pos rfl, readBody, if_pos rfl, hcode]

/-- A text comes back, whatever is behind it. -/
theorem readDebug_debug (text rest : List Char) :
    readDebug (debug plain text ++ rest) = some (text, rest) := by
  rw [debug, List.cons_append, readDebug, if_pos rfl]
  induction text with
  | nil => simp [readBody]
  | cons c text ih =>
    rw [List.flatMap_cons, List.append_assoc, List.append_assoc, readBody_escapeDebug]
    rw [List.append_assoc] at ih
    rw [ih]
    rfl

theorem newline_not_mem_escapeDebug (c : Char) : '\n' ∉ escapeDebug plain c := by
  rw [escapeDebug]
  split
  · next letter h =>
    have hletters : ∀ e ∈ shortEscapes, e.2 ≠ '\n' := by decide
    obtain ⟨before, after, hsplit, -⟩ := List.lookup_eq_some_iff.mp h
    have hletter := hletters (c, letter) (hsplit ▸ List.mem_append_right _ List.mem_cons_self)
    simp [hletter.symm]
  · next h =>
    split_ifs
    · have hc : '\n' ≠ c := by
        rintro rfl
        cases h
      simp [hc]
    · have hdigits : ∀ d < 16, Nat.digitChar d ≠ '\n' := by decide
      have hcode : '\n' ∉ Nat.toDigits 16 c.toNat := by
        intro hmem
        obtain ⟨d, hd, hdigit⟩ := mem_toDigits (by omega) hmem
        exact hdigits d hd hdigit.symm
      simp [hcode]

/-- No text breaks the line. -/
theorem newline_not_mem_debug (text : List Char) : '\n' ∉ debug plain text := by
  simp [debug, newline_not_mem_escapeDebug]

end Weverywhere.DebugText
