import Weverywhere.Numerals
import Mathlib.Data.List.Forall2
import Mathlib.Data.List.TakeWhile

/-!
The part of TOML 1.0 that a configuration of named entries is written in: keys with
strings and with inline tables of strings, blank lines, and headers of arrays of
tables. A text of this part is read line by line; any other text is not accepted.
-/
namespace Weverywhere.Toml

open Numerals

/-- Integers, floats, booleans and dates are one case, `other`. -/
inductive Value
  | string (s : String)
  | array (values : List Value)
  | table (entries : List (String × Value))
  | other

/-- The entries of a table, in the order of the text. -/
abbrev Table := List (String × Value)

/-- A control character that may stand nowhere in a TOML text: all but the tab and the
two of line ends. -/
def Forbidden (c : Char) : Prop :=
  c.toNat < 0x20 ∧ c ≠ '\t' ∧ c ≠ '\n' ∧ c ≠ '\r' ∨ c.toNat = 0x7F

instance : DecidablePred Forbidden := fun c =>
  inferInstanceAs (Decidable (c.toNat < 0x20 ∧ _ ∨ _))

def Allowed (s : String) : Prop := ∀ c ∈ s.toList, ¬ Forbidden c

instance : DecidablePred Allowed := fun s => List.decidableBAll _ s.toList

/-! Strings. -/

/-- A character that stands for itself between double quotes. -/
def basicUnescaped (c : Char) : Bool :=
  c == '\t' || (0x20 ≤ c.toNat && c != '"' && c != '\\' && c.toNat != 0x7F)

def simpleEscape (c : Char) : Option Char :=
  if c = '"' then some '"'
  else if c = '\\' then some '\\'
  else if c = 'b' then some (Char.ofNat 8)
  else if c = 'f' then some (Char.ofNat 12)
  else if c = 'n' then some '\n'
  else if c = 'r' then some '\r'
  else if c = 't' then some '\t'
  else none

/-- Where a reader of a string is: in the text, behind a backslash, or in the digits of a
code point, with `left` more to come after the next. -/
inductive Mode
  | text
  | escape
  | code (left value : ℕ)

def prepend (c : Char) (read : List Char × List Char) : List Char × List Char :=
  (c :: read.1, read.2)

/-- The characters of a string up to its closing quote, and the text behind it. -/
def readBasic : Mode → List Char → Option (List Char × List Char)
  | _, [] => none
  | .text, c :: rest =>
    if c = '"' then some ([], rest)
    else if c = '\\' then readBasic .escape rest
    else if basicUnescaped c then (readBasic .text rest).map (prepend c)
    else none
  | .escape, c :: rest =>
    if c = 'u' then readBasic (.code 3 0) rest
    else if c = 'U' then readBasic (.code 7 0) rest
    else (simpleEscape c).bind fun escaped => (readBasic .text rest).map (prepend escaped)
  | .code left value, c :: rest =>
    (toDigit 16 c).bind fun d =>
      match left with
      | 0 =>
        if (value * 16 + d).isValidChar then
          (readBasic .text rest).map (prepend (Char.ofNat (value * 16 + d)))
        else none
      | left + 1 => readBasic (.code left (value * 16 + d)) rest

def readString : List Char → Option (String × List Char)
  | '"' :: rest => (readBasic .text rest).map fun read => (String.ofList read.1, read.2)
  | _ => none

/-- The text is a basic string, and stands for `s`. -/
def Denotes (text s : String) : Prop := readString text.toList = some (s, [])

/-! Keys and values. -/

def isBlank (c : Char) : Bool := c == ' ' || c == '\t'

def isBareKey (c : Char) : Bool := c.isAlphanum || c == '-' || c == '_'

def skipBlanks (s : List Char) : List Char := s.dropWhile isBlank

def readKey (s : List Char) : Option (String × List Char) :=
  if s.takeWhile isBareKey = [] then none
  else some (String.ofList (s.takeWhile isBareKey), s.dropWhile isBareKey)

/-- The character `c`, and the blanks around it. -/
def readSign (c : Char) (s : List Char) : Option (List Char) :=
  match skipBlanks s with
  | d :: rest => if d = c then some (skipBlanks rest) else none
  | [] => none

/-- No key may be given twice. -/
def addEntry (table : Table) (key : String) (value : Value) : Option Table :=
  if (table.lookup key).isSome then none else some (table ++ [(key, value)])

/-- The entries of an inline table up to its closing brace; each takes some of the text,
so `fuel` may be its length. -/
def readEntries : ℕ → Table → List Char → Option (Table × List Char)
  | 0, _, _ => none
  | fuel + 1, table, s => do
    let (key, s) ← readKey s
    let s ← readSign '=' s
    let (value, s) ← readString s
    let table ← addEntry table key (.string value)
    match skipBlanks s with
    | '}' :: rest => some (table, rest)
    | ',' :: rest => readEntries fuel table (skipBlanks rest)
    | _ => none

def readValue (s : List Char) : Option (Value × List Char) :=
  match s with
  | '{' :: rest =>
    match skipBlanks rest with
    | '}' :: rest => some (.table [], rest)
    | rest => (readEntries rest.length [] rest).map fun read => (.table read.1, read.2)
  | s => (readString s).map fun read => (.string read.1, read.2)

/-! Lines. -/

inductive Line
  | blank
  | arrayTable (name : String)
  | keyVal (key : String) (value : Value)

def readLine (s : List Char) : Option Line :=
  match skipBlanks s with
  | [] => some .blank
  | '[' :: '[' :: rest => do
    let (name, rest) ← readKey (skipBlanks rest)
    match skipBlanks rest with
    | ']' :: ']' :: rest => if skipBlanks rest = [] then some (.arrayTable name) else none
    | _ => none
  | s => do
    let (key, s) ← readKey s
    let s ← readSign '=' s
    let (value, s) ← readValue s
    if skipBlanks s = [] then some (.keyVal key value) else none

/-- The entries in front of the first header, and the tables behind the headers, the last
of them first. -/
structure Document where
  root : Table
  entries : List (String × Table)

def Document.addLine (doc : Document) : Line → Option Document
  | .blank => some doc
  | .arrayTable name => some { doc with entries := (name, []) :: doc.entries }
  | .keyVal key value =>
    match doc.entries with
    | [] => (addEntry doc.root key value).map fun root => { doc with root }
    | (name, table) :: entries =>
      (addEntry table key value).map fun table => { doc with entries := (name, table) :: entries }

/-- A table behind the header of an array is the last element of the array. -/
def appendTable (table : Table) (entry : String × Table) : Option Table :=
  match table.lookup entry.1 with
  | none => some (table ++ [(entry.1, .array [.table entry.2])])
  | some (.array values) => some (table.map fun old =>
      if old.1 = entry.1 then (old.1, .array (values ++ [.table entry.2])) else old)
  | some _ => none

def Document.toTable (doc : Document) : Option Table :=
  doc.entries.reverse.foldlM appendTable doc.root

def parse (text : String) : Option Table := do
  let lines ← (text.toList.splitOn '\n').mapM readLine
  let doc ← lines.foldlM Document.addLine ⟨[], []⟩
  doc.toTable

/-- A reader of TOML texts: it reads this part of TOML as `parse` does, and no text with a
character that is forbidden everywhere. -/
structure Conforms (fromStr : String → Option Table) : Prop where
  reads : ∀ text table, parse text = some table → fromStr text = some table
  rejects : ∀ text, ¬ Allowed text → fromStr text = none

/-! No reader takes a forbidden character. -/

/-- `rest` is the text behind some characters of `s` none of which is forbidden. -/
def Took (s rest : List Char) : Prop := ∃ used, s = used ++ rest ∧ ∀ c ∈ used, ¬ Forbidden c

theorem took_refl (s : List Char) : Took s s := ⟨[], rfl, by simp⟩

theorem took_cons {c : Char} {s rest : List Char} (hc : ¬ Forbidden c) (h : Took s rest) :
    Took (c :: s) rest := by
  obtain ⟨used, rfl, hused⟩ := h
  exact ⟨c :: used, rfl, List.forall_mem_cons.mpr ⟨hc, hused⟩⟩

theorem Took.trans {s middle rest : List Char} (h : Took s middle) (h' : Took middle rest) :
    Took s rest := by
  obtain ⟨used, rfl, hused⟩ := h
  obtain ⟨used', rfl, hused'⟩ := h'
  refine ⟨used ++ used', by rw [List.append_assoc], ?_⟩
  intro c hc
  rcases List.mem_append.mp hc with hc | hc
  · exact hused c hc
  · exact hused' c hc

theorem Took.all {s : List Char} (h : Took s []) : ∀ c ∈ s, ¬ Forbidden c := by
  obtain ⟨used, rfl, hused⟩ := h
  rwa [List.append_nil]

theorem took_dropWhile {p : Char → Bool} (hp : ∀ c, p c = true → ¬ Forbidden c) (s : List Char) :
    Took s (s.dropWhile p) :=
  ⟨s.takeWhile p, List.takeWhile_append_dropWhile.symm,
    fun c hc => hp c (List.mem_takeWhile_imp hc)⟩

theorem not_forbidden_of_le {c : Char} (h : 0x20 ≤ c.toNat) (h' : c.toNat ≠ 0x7F) :
    ¬ Forbidden c := by
  rintro (hlow | hdel)
  · omega
  · exact h' hdel

theorem not_forbidden_basicUnescaped {c : Char} (h : basicUnescaped c = true) : ¬ Forbidden c := by
  rw [basicUnescaped, Bool.or_eq_true, beq_iff_eq] at h
  rcases h with rfl | h
  · decide
  · simp only [Bool.and_eq_true, decide_eq_true_eq, bne_iff_ne] at h
    exact not_forbidden_of_le h.1.1.1 h.2

theorem not_forbidden_simpleEscape {c escaped : Char} (h : simpleEscape c = some escaped) :
    ¬ Forbidden c := by
  unfold simpleEscape at h
  split_ifs at h with h1 h2 h3 h4 h5 h6 h7 <;> subst c <;> decide

theorem not_forbidden_toDigit {c : Char} {d : ℕ} (h : toDigit 16 c = some d) : ¬ Forbidden c := by
  have hvalue : hexValue c ≠ none := by
    intro hnone
    rw [toDigit, hnone] at h
    cases h
  have hnine : '9'.toNat = 57 := rfl
  have hf : 'f'.toNat = 102 := rfl
  have hF : 'F'.toNat = 70 := rfl
  have hzero : '0'.toNat = 48 := rfl
  have ha : 'a'.toNat = 97 := rfl
  have hA : 'A'.toNat = 65 := rfl
  unfold hexValue at hvalue
  simp only [Char.le_def, UInt32.le_iff_toNat_le, Char.toNat_val] at hvalue
  split_ifs at hvalue with h1 h2 h3
  · exact not_forbidden_of_le (by omega) (by omega)
  · exact not_forbidden_of_le (by omega) (by omega)
  · exact not_forbidden_of_le (by omega) (by omega)
  · exact absurd rfl hvalue

theorem took_readBasic {s rest : List Char} {mode : Mode} {read : List Char}
    (h : readBasic mode s = some (read, rest)) : Took s rest := by
  induction s generalizing mode read with
  | nil => cases mode <;> cases h
  | cons c s ih =>
    cases mode with
    | text =>
      rw [readBasic] at h
      split_ifs at h with hquote hbackslash hplain
      · obtain ⟨-, rfl⟩ := Prod.mk.inj (Option.some.inj h)
        exact took_cons (by rw [hquote]; decide) (took_refl _)
      · exact took_cons (by rw [hbackslash]; decide) (ih h)
      · obtain ⟨inner, hinner, heq⟩ := Option.map_eq_some_iff.mp h
        obtain ⟨-, rfl⟩ := Prod.mk.inj heq
        exact took_cons (not_forbidden_basicUnescaped hplain) (ih hinner)
    | escape =>
      rw [readBasic] at h
      split_ifs at h with hshort hlong
      · exact took_cons (by rw [hshort]; decide) (ih h)
      · exact took_cons (by rw [hlong]; decide) (ih h)
      · obtain ⟨escaped, hescaped, h⟩ := Option.bind_eq_some_iff.mp h
        obtain ⟨inner, hinner, heq⟩ := Option.map_eq_some_iff.mp h
        obtain ⟨-, rfl⟩ := Prod.mk.inj heq
        exact took_cons (not_forbidden_simpleEscape hescaped) (ih hinner)
    | code left value =>
      rw [readBasic] at h
      obtain ⟨d, hd, h⟩ := Option.bind_eq_some_iff.mp h
      cases left with
      | zero =>
        dsimp only at h
        split_ifs at h
        obtain ⟨inner, hinner, heq⟩ := Option.map_eq_some_iff.mp h
        obtain ⟨-, rfl⟩ := Prod.mk.inj heq
        exact took_cons (not_forbidden_toDigit hd) (ih hinner)
      | succ left => exact took_cons (not_forbidden_toDigit hd) (ih h)

theorem took_readString {s rest : List Char} {read : String}
    (h : readString s = some (read, rest)) : Took s rest := by
  unfold readString at h
  split at h
  · obtain ⟨inner, hinner, heq⟩ := Option.map_eq_some_iff.mp h
    obtain ⟨-, rfl⟩ := Prod.mk.inj heq
    exact took_cons (by decide) (took_readBasic hinner)
  · cases h

theorem took_skipBlanks (s : List Char) : Took s (skipBlanks s) := by
  apply took_dropWhile
  intro c hc
  rw [isBlank, Bool.or_eq_true, beq_iff_eq, beq_iff_eq] at hc
  rcases hc with rfl | rfl
  · decide
  · decide

theorem not_forbidden_isBareKey {c : Char} (h : isBareKey c = true) : ¬ Forbidden c := by
  have hupper : c.isUpper = decide (c.val ≥ 'A'.val ∧ c.val ≤ 'Z'.val) := rfl
  have hlower : c.isLower = (decide (c.val ≥ 'a'.val) && decide (c.val ≤ 'z'.val)) := rfl
  have hdigit : c.isDigit = (decide (c.val ≥ '0'.val) && decide (c.val ≤ '9'.val)) := rfl
  have halphanum : c.isAlphanum = (c.isUpper || c.isLower || c.isDigit) := rfl
  simp only [isBareKey, halphanum, hupper, hlower, hdigit,
    Bool.or_eq_true, Bool.and_eq_true, decide_eq_true_eq, beq_iff_eq, ge_iff_le,
    UInt32.le_iff_toNat_le, Char.toNat_val] at h
  have hbounds : 'A'.toNat = 65 ∧ 'Z'.toNat = 90 ∧ 'a'.toNat = 97 ∧ 'z'.toNat = 122 ∧
      '0'.toNat = 48 ∧ '9'.toNat = 57 := ⟨rfl, rfl, rfl, rfl, rfl, rfl⟩
  rcases h with (h | rfl) | rfl
  · exact not_forbidden_of_le (by omega) (by omega)
  · decide
  · decide

theorem took_readKey {s rest : List Char} {key : String} (h : readKey s = some (key, rest)) :
    Took s rest := by
  unfold readKey at h
  split_ifs at h
  obtain ⟨-, rfl⟩ := Prod.mk.inj (Option.some.inj h)
  exact took_dropWhile (fun _ hc => not_forbidden_isBareKey hc) s

theorem took_readSign {c : Char} (hc : ¬ Forbidden c) {s rest : List Char}
    (h : readSign c s = some rest) : Took s rest := by
  unfold readSign at h
  have hblanks := took_skipBlanks s
  split at h
  · rename_i d after hskip
    split_ifs at h with hd
    rw [hskip, hd] at hblanks
    rw [← Option.some.inj h]
    exact hblanks.trans (took_cons hc (took_skipBlanks after))
  · cases h

theorem took_readEntries {fuel : ℕ} {table read : Table} {s rest : List Char}
    (h : readEntries fuel table s = some (read, rest)) : Took s rest := by
  induction fuel generalizing table s with
  | zero => cases h
  | succ fuel ih =>
    simp only [readEntries, Option.bind_eq_bind, Option.bind_eq_some_iff] at h
    obtain ⟨⟨key, s₁⟩, hkey, s₂, hsign, ⟨value, s₃⟩, hvalue, table', -, h⟩ := h
    have htook := ((took_readKey hkey).trans (took_readSign (by decide) hsign)).trans
      ((took_readString hvalue).trans (took_skipBlanks s₃))
    split at h
    · rename_i after hskip
      obtain ⟨-, rfl⟩ := Prod.mk.inj (Option.some.inj h)
      rw [hskip] at htook
      exact htook.trans (took_cons (by decide) (took_refl _))
    · rename_i after hskip
      rw [hskip] at htook
      exact htook.trans (took_cons (by decide) ((took_skipBlanks after).trans (ih h)))
    · cases h

theorem took_readValue {s rest : List Char} {value : Value}
    (h : readValue s = some (value, rest)) : Took s rest := by
  unfold readValue at h
  split at h
  · rename_i inner
    apply took_cons (by decide)
    apply (took_skipBlanks inner).trans
    split at h
    · rename_i after hskip
      obtain ⟨-, rfl⟩ := Prod.mk.inj (Option.some.inj h)
      rw [hskip]
      exact took_cons (by decide) (took_refl _)
    · obtain ⟨read, hread, heq⟩ := Option.map_eq_some_iff.mp h
      obtain ⟨-, rfl⟩ := Prod.mk.inj heq
      exact took_readEntries hread
  · obtain ⟨read, hread, heq⟩ := Option.map_eq_some_iff.mp h
    obtain ⟨-, rfl⟩ := Prod.mk.inj heq
    exact took_readString hread

/-- A line is read to its end. -/
theorem took_readLine {s : List Char} {line : Line} (h : readLine s = some line) : Took s [] := by
  unfold readLine at h
  apply (took_skipBlanks s).trans
  split at h
  · rename_i hskip
    rw [hskip]
    exact took_refl _
  · rename_i inner hskip
    simp only [Option.bind_eq_bind, Option.bind_eq_some_iff] at h
    obtain ⟨⟨name, s₁⟩, hname, h⟩ := h
    have htook := (took_skipBlanks inner).trans ((took_readKey hname).trans (took_skipBlanks s₁))
    rw [hskip]
    apply took_cons (by decide)
    apply took_cons (by decide)
    split at h
    · rename_i after hskip'
      split_ifs at h with hend
      rw [hskip'] at htook
      have hclose : Took (']' :: ']' :: after) (skipBlanks after) :=
        took_cons (by decide) (took_cons (by decide) (took_skipBlanks after))
      rw [hend] at hclose
      exact htook.trans hclose
    · cases h
  · simp only [Option.bind_eq_bind, Option.bind_eq_some_iff] at h
    obtain ⟨⟨key, s₁⟩, hkey, s₂, hsign, ⟨value, s₃⟩, hvalue, h⟩ := h
    split_ifs at h with hend
    have hlast := took_skipBlanks s₃
    rw [hend] at hlast
    exact ((took_readKey hkey).trans (took_readSign (by decide) hsign)).trans
      ((took_readValue hvalue).trans hlast)

theorem mem_intercalate {α : Type} {x c : α} {lines : List (List α)}
    (h : c ∈ [x].intercalate lines) : c = x ∨ ∃ line ∈ lines, c ∈ line := by
  induction lines with
  | nil => cases h
  | cons line lines ih =>
    cases lines with
    | nil =>
      rw [List.intercalate_singleton] at h
      exact .inr ⟨line, List.mem_singleton_self line, h⟩
    | cons next lines =>
      rw [List.intercalate_cons_cons, List.append_assoc, List.mem_append, List.singleton_append,
        List.mem_cons] at h
      rcases h with h | rfl | h
      · exact .inr ⟨line, List.mem_cons_self, h⟩
      · exact .inl rfl
      · rcases ih h with hx | ⟨other, hother, hc⟩
        · exact .inl hx
        · exact .inr ⟨other, List.mem_cons_of_mem line hother, hc⟩

theorem exists_of_mapM {α β : Type} {f : α → Option β} {xs : List α} {ys : List β}
    (h : xs.mapM f = some ys) {x : α} (hx : x ∈ xs) : ∃ y, f x = some y := by
  induction xs generalizing ys with
  | nil => cases hx
  | cons first xs ih =>
    simp only [List.mapM_cons, Option.bind_eq_bind, Option.bind_eq_some_iff] at h
    obtain ⟨y, hy, ys', hys, -⟩ := h
    rcases List.mem_cons.mp hx with rfl | hx
    · exact ⟨y, hy⟩
    · exact ih hys hx

/-- A text that is read has no forbidden character. -/
theorem allowed_of_parse {text : String} {table : Table} (h : parse text = some table) :
    Allowed text := by
  simp only [parse, Option.bind_eq_bind, Option.bind_eq_some_iff] at h
  obtain ⟨lines, hlines, -⟩ := h
  intro c hc
  have hjoin : ['\n'].intercalate (text.toList.splitOn '\n') = text.toList :=
    List.intercalate_splitOn '\n'
  rw [← hjoin] at hc
  rcases mem_intercalate hc with rfl | ⟨line, hline, hmem⟩
  · decide
  · obtain ⟨read, hread⟩ := exists_of_mapM hlines hline
    exact (took_readLine hread).all c hmem

theorem conforms_parse : Conforms parse where
  reads _ _ h := h
  rejects text h := by
    rw [Option.eq_none_iff_forall_ne_some]
    intro table hread
    exact h (allowed_of_parse hread)

/-! Reading what was written. -/

/-- However the text goes on, it is read as the string `s`. -/
def ReadsAs (text : List Char) (s : String) : Prop :=
  ∀ rest, readString (text ++ rest) = some (s, rest)

theorem readBasic_unescaped {c : Char} (h : basicUnescaped c = true) (rest : List Char) :
    readBasic .text (c :: rest) = (readBasic .text rest).map (prepend c) := by
  have hquote : c ≠ '"' := by
    intro hc
    rw [hc] at h
    cases h
  have hbackslash : c ≠ '\\' := by
    intro hc
    rw [hc] at h
    cases h
  rw [readBasic, if_neg hquote, if_neg hbackslash, if_pos h]

theorem readBasic_escaped {c escaped : Char} (h : simpleEscape c = some escaped)
    (rest : List Char) :
    readBasic .text ('\\' :: c :: rest) = (readBasic .text rest).map (prepend escaped) := by
  have hshort : c ≠ 'u' := by
    intro hc
    rw [hc] at h
    cases h
  have hlong : c ≠ 'U' := by
    intro hc
    rw [hc] at h
    cases h
  rw [readBasic, if_neg (by decide), if_pos rfl, readBasic, if_neg hshort, if_neg hlong, h,
    Option.bind_some]

/-- Something that no blank begins. -/
def NoBlank (s : List Char) : Prop := skipBlanks s = s

theorem noBlank_cons {c : Char} (h : isBlank c = false) (s : List Char) : NoBlank (c :: s) :=
  List.dropWhile_cons_of_neg (by rw [h]; decide)

/-- The characters of a bare key. -/
structure BareKey (key : List Char) : Prop where
  ne_nil : key ≠ []
  bare : ∀ c ∈ key, isBareKey c = true

theorem readKey_append {key : List Char} (hkey : BareKey key) {rest : List Char}
    (hrest : ∀ c ∈ rest.head?, isBareKey c = false) :
    readKey (key ++ rest) = some (String.ofList key, rest) := by
  obtain ⟨htake, hdrop⟩ := span_append hkey.bare hrest
  rw [readKey, htake, hdrop, if_neg hkey.ne_nil]

theorem BareKey.not_mem {key : List Char} (hkey : BareKey key) {c : Char}
    (hc : isBareKey c = false) : c ∉ key := by
  intro hmem
  rw [hkey.bare c hmem] at hc
  cases hc

theorem BareKey.append_ne_cons {key : List Char} (hkey : BareKey key) {c : Char}
    (hc : isBareKey c = false) (rest rest' : List Char) : key ++ rest ≠ c :: rest' := by
  intro heq
  obtain ⟨first, chars, rfl⟩ := List.exists_cons_of_ne_nil hkey.ne_nil
  apply hkey.not_mem hc
  rw [(List.cons.inj heq).1]
  exact List.mem_cons_self

theorem noBlank_key {key : List Char} (hkey : BareKey key) (rest : List Char) :
    NoBlank (key ++ rest) := by
  cases key with
  | nil => exact absurd rfl hkey.ne_nil
  | cons c key =>
    apply noBlank_cons
    have hother : ∀ {d}, isBareKey d = false → c ≠ d := by
      intro d hd hsame
      exact hkey.not_mem hd (hsame ▸ List.mem_cons_self)
    rw [isBlank, Bool.or_eq_false_iff, beq_eq_false_iff_ne, beq_eq_false_iff_ne]
    exact ⟨hother (by decide), hother (by decide)⟩

/-- The sign between a key and its value, as it is usually written. -/
def equals : List Char := [' ', '=', ' ']

theorem readSign_equals {rest : List Char} (hrest : NoBlank rest) :
    readSign '=' (equals ++ rest) = some rest := by
  have hskip : skipBlanks (equals ++ rest) = '=' :: ' ' :: rest := rfl
  have hblank : skipBlanks (' ' :: rest) = skipBlanks rest := rfl
  rw [readSign, hskip]
  simp only [if_pos, hblank]
  rw [hrest]

theorem readKey_equals {key : List Char} (hkey : BareKey key) (rest : List Char) :
    readKey (key ++ (equals ++ rest)) = some (String.ofList key, equals ++ rest) := by
  apply readKey_append hkey
  intro c hc
  obtain rfl : ' ' = c := Option.some.inj hc
  decide

/-- A line with a key and a value. -/
def keyValLine (key text : List Char) : List Char := key ++ (equals ++ text)

theorem readLine_keyValLine {key text : List Char} {value : Value} (hkey : BareKey key)
    (hblank : NoBlank text) (hvalue : readValue text = some (value, [])) :
    readLine (keyValLine key text) = some (.keyVal (String.ofList key) value) := by
  have hhead : ∀ rest, key ++ (equals ++ text) ≠ '[' :: rest :=
    hkey.append_ne_cons (by decide) (equals ++ text)
  have hskip := noBlank_key hkey (equals ++ text)
  rw [NoBlank] at hskip
  rw [keyValLine, readLine, hskip]
  split
  · rename_i hnil
    exact absurd (List.append_eq_nil_iff.mp hnil).1 hkey.ne_nil
  · rename_i heq
    exact absurd heq (hhead _)
  · simp only [Option.bind_eq_bind, readKey_equals hkey, Option.bind_some, readSign_equals hblank,
      hvalue, skipBlanks, List.dropWhile_nil, if_true]

/-- The header of an entry of an array. -/
def headerLine (name : List Char) : List Char := '[' :: '[' :: (name ++ [']', ']'])

theorem readLine_headerLine {name : List Char} (hname : BareKey name) :
    readLine (headerLine name) = some (.arrayTable (String.ofList name)) := by
  have hskip : skipBlanks ('[' :: '[' :: (name ++ [']', ']'])) =
      '[' :: '[' :: (name ++ [']', ']']) := rfl
  have hclose : skipBlanks [']', ']'] = [']', ']'] := rfl
  have hread : readKey (name ++ [']', ']']) = some (String.ofList name, [']', ']']) := by
    apply readKey_append hname
    intro c hc
    obtain rfl : ']' = c := Option.some.inj hc
    decide
  have hblank := noBlank_key hname [']', ']']
  rw [NoBlank] at hblank
  rw [headerLine, readLine, hskip]
  simp only [hblank, Option.bind_eq_bind, hread, Option.bind_some, hclose]
  rfl

/-- A string as the value of a line. -/
theorem readValue_string {text : List Char} {s : String} (h : ReadsAs text s) :
    readValue text = some (.string s, []) := by
  have hread := h []
  rw [List.append_nil] at hread
  unfold readValue
  split
  · cases hread
  · rw [hread, Option.map_some]

theorem readEntries_one {key text : List Char} {s : String} (hkey : BareKey key)
    (hblank : ∀ rest, NoBlank (text ++ rest)) (h : ReadsAs text s) (fuel : ℕ) :
    readEntries (fuel + 1) [] (key ++ (equals ++ (text ++ [' ', '}']))) =
      some ([(String.ofList key, .string s)], []) := by
  have hclose : skipBlanks [' ', '}'] = ['}'] := rfl
  simp only [readEntries, Option.bind_eq_bind, readKey_equals hkey, Option.bind_some,
    readSign_equals (hblank _), h [' ', '}'], hclose]
  rfl

/-- An inline table with one string. -/
def inlineTable (key text : List Char) : List Char :=
  '{' :: ' ' :: (key ++ (equals ++ (text ++ [' ', '}'])))

theorem readValue_inlineTable {key text : List Char} {s : String} (hkey : BareKey key)
    (hblank : ∀ rest, NoBlank (text ++ rest)) (h : ReadsAs text s) :
    readValue (inlineTable key text) = some (.table [(String.ofList key, .string s)], []) := by
  have hskip := noBlank_key hkey (equals ++ (text ++ [' ', '}']))
  have hbrace : ∀ rest, key ++ (equals ++ (text ++ [' ', '}'])) ≠ '}' :: rest :=
    hkey.append_ne_cons (by decide) _
  have hopen : skipBlanks (' ' :: (key ++ (equals ++ (text ++ [' ', '}'])))) =
      key ++ (equals ++ (text ++ [' ', '}'])) := hskip
  have hentries := readEntries_one hkey hblank h
  rw [inlineTable]
  generalize key ++ (equals ++ (text ++ [' ', '}'])) = inner at *
  simp only [readValue, hopen]
  cases inner with
  | nil => cases hentries 0
  | cons c inner => rw [List.length_cons, hentries, Option.map_some]

/-! One entry of an array. -/

/-- Keys that are all given once are taken over in their order. -/
theorem foldlM_addLine (root table : Table) (name : String) (entries : List (String × Table))
    {pairs : Table} (hnodup : ((table ++ pairs).map Prod.fst).Nodup) :
    (pairs.map fun pair => Line.keyVal pair.1 pair.2).foldlM Document.addLine
      ⟨root, (name, table) :: entries⟩ = some ⟨root, (name, table ++ pairs) :: entries⟩ := by
  induction pairs generalizing table with
  | nil => rw [List.append_nil]; rfl
  | cons pair pairs ih =>
    have hsplit : table ++ pair :: pairs = table ++ [pair] ++ pairs := by simp
    rw [hsplit] at hnodup ⊢
    have hfresh : table.lookup pair.1 = none := by
      rw [List.lookup_eq_none_iff]
      intro other hother
      rw [List.map_append, List.map_append, List.append_assoc, List.nodup_append] at hnodup
      have hne := hnodup.2.2 other.1 (List.mem_map_of_mem hother) pair.1 (by simp)
      simpa using hne.symm
    have hadd : Document.addLine ⟨root, (name, table) :: entries⟩ (.keyVal pair.1 pair.2) =
        some ⟨root, (name, table ++ [pair]) :: entries⟩ := by
      simp only [Document.addLine, addEntry, hfresh, Option.isSome_none, Bool.false_eq_true,
        if_false, Option.map_some]
    rw [List.map_cons, List.foldlM_cons, hadd, Option.bind_eq_bind, Option.bind_some]
    exact ih (table ++ [pair]) hnodup

/-- Lines, each of them with its end. -/
def unlines (lines : List (List Char)) : List Char := lines.flatMap fun line => line ++ ['\n']

theorem splitOn_unlines {lines : List (List Char)} (h : ∀ line ∈ lines, '\n' ∉ line) :
    (unlines lines).splitOn '\n' = lines ++ [[]] := by
  induction lines with
  | nil => rfl
  | cons line lines ih =>
    rw [List.forall_mem_cons] at h
    rw [unlines, List.flatMap_cons, List.append_assoc, List.singleton_append,
      List.splitOn_append_cons_self_of_not_mem h.1, ← unlines, ih h.2, List.cons_append]

theorem mapM_of_forall₂ {α β : Type} {f : α → Option β} {xs : List α} {ys : List β}
    (h : List.Forall₂ (fun x y => f x = some y) xs ys) : xs.mapM f = some ys := by
  induction h with
  | nil => rfl
  | cons hx _ ih =>
    rw [List.mapM_cons, hx, Option.bind_eq_bind, Option.bind_some, ih, Option.bind_eq_bind,
      Option.bind_some]
    rfl

/-- A header and the lines of its table are one entry of the array. -/
theorem parse_entry {name : List Char} (hname : BareKey name) {lines : List (List Char)}
    {pairs : Table} (hlines : List.Forall₂ (fun line (pair : String × Value) =>
      readLine line = some (.keyVal pair.1 pair.2)) lines pairs)
    (hplain : ∀ line ∈ lines, '\n' ∉ line) (hnodup : (pairs.map Prod.fst).Nodup) :
    parse (String.ofList (unlines (headerLine name :: lines))) =
      some [(String.ofList name, .array [.table pairs])] := by
  have hheader : '\n' ∉ headerLine name := by
    intro hmem
    simp only [headerLine, List.mem_cons, List.mem_append, List.not_mem_nil, Char.reduceEq,
      false_or, or_false] at hmem
    exact hname.not_mem (by decide) hmem
  have hread : (headerLine name :: lines).mapM readLine =
      some (.arrayTable (String.ofList name) :: pairs.map fun pair => .keyVal pair.1 pair.2) := by
    apply mapM_of_forall₂
    refine .cons (readLine_headerLine hname) ?_
    rw [List.forall₂_map_right_iff]
    exact hlines
  have hlast : ([[]] : List (List Char)).mapM readLine = some [.blank] := rfl
  have htable : (pairs.map fun pair => Line.keyVal pair.1 pair.2).foldlM Document.addLine
      ⟨[], [(String.ofList name, [])]⟩ = some ⟨[], [(String.ofList name, [] ++ pairs)]⟩ :=
    foldlM_addLine [] [] (String.ofList name) [] hnodup
  rw [parse, String.toList_ofList, splitOn_unlines (List.forall_mem_cons.mpr ⟨hheader, hplain⟩),
    List.mapM_append, hread, hlast]
  simp only [Option.bind_eq_bind, Option.bind_some, Option.pure_def, List.cons_append,
    List.foldlM_cons, List.foldlM_append, Document.addLine, htable, List.nil_append]
  rfl

end Weverywhere.Toml
