import Weverywhere.TextCounts
import Weverywhere.Numerals

/-!
The text of XML elements as a parser gives it: line ends are made one, references are
replaced, and what may not stand in a text is refused. A text that comes back with nothing
visible lost has nothing in it that means something else.
-/
namespace Weverywhere.XmlText

open TextCounts

def isChar (c : Char) : Bool :=
  c = '\t' || c = '\n' || c = '\r' ||
    (0x20 ≤ c.toNat && c.toNat != 0xFFFE && c.toNat != 0xFFFF)

/-- One line feed for each line end; a line feed behind a carriage return is its own. -/
def normalize : Bool → List Char → List Char
  | _, [] => []
  | afterReturn, c :: rest =>
    if c = '\r' then '\n' :: normalize true rest
    else if afterReturn = true ∧ c = '\n' then normalize false rest
    else c :: normalize false rest

/-- The predefined entities. -/
def named (name : List Char) : Option Char :=
  if name = ['l', 't'] then some '<'
  else if name = ['g', 't'] then some '>'
  else if name = ['a', 'm', 'p'] then some '&'
  else if name = ['a', 'p', 'o', 's'] then some '\''
  else if name = ['q', 'u', 'o', 't'] then some '"'
  else none

def charOf (base : ℕ) (digits : List Char) : Option Char :=
  if digits ≠ [] ∧ digits.all (Numerals.isDigit base) = true ∧
      (Numerals.valueOf base digits).isValidChar ∧
      isChar (Char.ofNat (Numerals.valueOf base digits)) = true then
    some (Char.ofNat (Numerals.valueOf base digits))
  else none

def numbered (name : List Char) : Option Char :=
  if ['#', 'x'] <+: name then charOf 16 (name.drop 2)
  else if ['#'] <+: name then charOf 10 (name.drop 1)
  else none

def referenceName (rest : List Char) : List Char := rest.takeWhile fun c => c ≠ ';' && c ≠ '<'

/-- What stands behind an ampersand: the character, and how many are taken for it. -/
def reference (rest : List Char) : Option (Char × ℕ) :=
  if (rest.drop (referenceName rest).length).head? = some ';' then
    ((named (referenceName rest)).or (numbered (referenceName rest))).map fun c =>
      (c, (referenceName rest).length + 1)
  else none

/-- The text up to the next markup, and what follows. -/
def content : ℕ → List Char → Option (List Char × List Char)
  | _, [] => none
  | skip + 1, _ :: rest => content skip rest
  | 0, c :: rest =>
    if c = '<' then some ([], c :: rest)
    else if isChar c = false ∨ c = ']' ∧ [']', '>'] <+: rest then none
    else if c = '&' then
      match reference rest with
      | some (r, more) => (content more rest).map fun found => (r :: found.1, found.2)
      | none => none
    else (content 0 rest).map fun found => (c :: found.1, found.2)

/-- The line feeds and the characters beyond ASCII are not counted. -/
def counted (b : UInt8) : Bool := visible b && b != 0x0A

theorem counted_counted : Counted counted := by
  intro b h
  rw [counted, Bool.and_eq_true] at h
  exact h.1

/-- A text without markup, references and what XML does not allow. -/
structure Plain (text : List Char) : Prop where
  markup : ∀ c ∈ text, c ≠ '<' ∧ c ≠ '&'
  allowed : ∀ c ∈ text, isChar c = true
  section_end : ¬ [']', ']', '>'] <:+: text

theorem Plain.tail {c : Char} {text : List Char} (h : Plain (c :: text)) : Plain text :=
  ⟨fun d hd => h.markup d (List.mem_cons_of_mem c hd),
    fun d hd => h.allowed d (List.mem_cons_of_mem c hd),
    fun hend => h.section_end (List.infix_cons hend)⟩

/-- Characters that are plain wherever they stand. -/
def isPlain (c : Char) : Bool :=
  isChar c && c != '<' && c != '&' && c != ']' && c != '\r'

theorem plain_of_all {text : List Char} (h : text.all isPlain = true) :
    '\r' ∉ text ∧ Plain text := by
  have hplain : ∀ c ∈ text, (((isChar c = true ∧ c ≠ '<') ∧ c ≠ '&') ∧ c ≠ ']') ∧ c ≠ '\r' := by
    intro c hc
    simpa [isPlain] using List.all_eq_true.mp h c hc
  refine ⟨fun hmem => (hplain _ hmem).2 rfl, ?_, ?_, ?_⟩
  · exact fun c hc => ⟨(hplain c hc).1.1.1.2, (hplain c hc).1.1.2⟩
  · exact fun c hc => (hplain c hc).1.1.1.1
  · exact fun hend => (hplain _ (hend.subset List.mem_cons_self)).1.2 rfl

/-! Line ends. -/

theorem normalize_append {front : List Char} (h : '\r' ∉ front) (rest : List Char) :
    normalize false (front ++ rest) = front ++ normalize false rest := by
  induction front with
  | nil => rfl
  | cons c front ih =>
    rw [List.mem_cons, not_or] at h
    obtain ⟨hc, hfront⟩ := h
    simp [normalize, Ne.symm hc, ih hfront]

theorem normalize_eq {text : List Char} (h : '\r' ∉ text) : normalize false text = text := by
  have hkept := normalize_append h []
  simpa [normalize] using hkept

/-- A line end does not go on into markup. -/
theorem normalize_markup (text rest : List Char) (afterReturn : Bool) :
    normalize afterReturn (text ++ '<' :: rest) =
      normalize afterReturn text ++ '<' :: normalize false rest := by
  induction text generalizing afterReturn with
  | nil => simp [normalize]
  | cons c text ih =>
    simp only [List.cons_append, normalize, ih]
    split_ifs <;> rfl

theorem normalize_cases (text : List Char) (afterReturn : Bool) :
    (normalize afterReturn text).countP (onChar counted) ≤ text.countP (onChar counted) ∧
      ('\r' ∈ text →
        (normalize afterReturn text).countP (onChar counted) < text.countP (onChar counted)) := by
  induction text generalizing afterReturn with
  | nil => exact ⟨le_rfl, fun h => absurd h List.not_mem_nil⟩
  | cons c text ih =>
    have hreturn : onChar counted '\r' = true := by decide
    have hfeed : onChar counted '\n' = false := by decide
    unfold normalize
    split_ifs with hc hskip
    · subst hc
      have hle := (ih true).1
      rw [List.countP_cons_of_pos hreturn, List.countP_cons_of_neg (by rw [hfeed]; decide)]
      exact ⟨Nat.le_succ_of_le hle, fun _ => Nat.lt_succ_of_le hle⟩
    · obtain ⟨-, rfl⟩ := hskip
      rw [List.countP_cons_of_neg (by rw [hfeed]; decide)]
      exact ⟨(ih false).1, fun h => (ih false).2 (by simpa using h)⟩
    · rw [List.countP_cons, List.countP_cons]
      refine ⟨Nat.add_le_add_right (ih false).1 _, fun h => ?_⟩
      exact Nat.add_lt_add_right ((ih false).2 (by simpa [Ne.symm hc] using h)) _

/-! Text. -/

theorem content_skip (skip : ℕ) (text : List Char) :
    content skip text = content 0 (text.drop skip) := by
  induction skip generalizing text with
  | zero => rw [List.drop_zero]
  | succ skip ih =>
    cases text with
    | nil => rfl
    | cons c rest => rw [List.drop_succ_cons, ← ih rest, content]

/-- Markup does not help to end a section. -/
theorem section_end_of_markup {text after : List Char}
    (h : [']', '>'] <+: text ++ '<' :: after) : [']', ']', '>'] <:+: ']' :: text := by
  cases text with
  | nil =>
    obtain ⟨more, hmore⟩ := h
    cases hmore
  | cons d text =>
    cases text with
    | nil =>
      obtain ⟨more, hmore⟩ := h
      cases hmore
    | cons e text =>
      obtain ⟨more, hmore⟩ := h
      obtain ⟨rfl, hrest⟩ := List.cons.inj hmore
      obtain ⟨rfl, -⟩ := List.cons.inj hrest
      exact List.IsPrefix.isInfix ⟨text, rfl⟩

/-- A plain text is read up to its end. -/
theorem content_of_plain {text : List Char} (h : Plain text) (after : List Char) :
    content 0 (text ++ '<' :: after) = some (text, '<' :: after) := by
  induction text with
  | nil => rfl
  | cons c text ih =>
    obtain ⟨hmarkup, hreference⟩ := h.markup c List.mem_cons_self
    have hallowed := h.allowed c List.mem_cons_self
    have hend : ¬ (c = ']' ∧ [']', '>'] <+: text ++ '<' :: after) := by
      rintro ⟨rfl, hend⟩
      exact h.section_end (section_end_of_markup hend)
    have hrefused : ¬ (isChar c = false ∨ c = ']' ∧ [']', '>'] <+: text ++ '<' :: after) := by
      rw [hallowed]
      simpa using hend
    rw [List.cons_append, content, if_neg hmarkup, if_neg hrefused, if_neg hreference, ih h.tail]
    rfl

/-- A reference has no markup in it and ends in a semicolon. -/
theorem reference_spec {rest : List Char} {r : Char} {more : ℕ}
    (h : reference rest = some (r, more)) :
    '<' ∉ rest.take more ∧ 1 ≤ (rest.take more).countP (onChar counted) := by
  unfold reference at h
  split_ifs at h with hhead
  obtain ⟨c, -, heq⟩ := Option.map_eq_some_iff.mp h
  obtain ⟨-, rfl⟩ := Prod.mk.inj heq
  have hname : rest.take (referenceName rest).length = referenceName rest :=
    (List.prefix_iff_eq_take.mp (List.takeWhile_prefix _)).symm
  have htake : rest.take ((referenceName rest).length + 1) = referenceName rest ++ [';'] := by
    rw [List.head?_drop] at hhead
    rw [List.take_add_one, hname, hhead]
    rfl
  rw [htake]
  refine ⟨?_, ?_⟩
  · intro hmem
    rcases List.mem_append.mp hmem with hmem | hlast
    · have hkept := List.all_eq_true.mp (List.all_takeWhile) _ hmem
      simp at hkept
    · cases List.mem_singleton.mp hlast
  · rw [List.countP_append]
    exact Nat.le_add_left 1 _

theorem plain_cons {c : Char} {front after : List Char} (hmarkup : c ≠ '<') (hreference : c ≠ '&')
    (hrefused : ¬ (isChar c = false ∨ c = ']' ∧ [']', '>'] <+: front ++ after))
    (h : Plain front) : Plain (c :: front) := by
  rw [not_or] at hrefused
  refine ⟨List.forall_mem_cons.mpr ⟨⟨hmarkup, hreference⟩, h.markup⟩,
    List.forall_mem_cons.mpr ⟨by simpa using hrefused.1, h.allowed⟩, ?_⟩
  intro hend
  rcases List.infix_cons_iff.mp hend with hhead | htail
  · obtain ⟨more, hmore⟩ := hhead
    obtain ⟨rfl, hrest⟩ := List.cons.inj hmore
    exact hrefused.2 ⟨rfl, more ++ after, by rw [← hrest]; rfl⟩
  · exact h.section_end htail

/-- What is read of a text is the text, or something counted has been lost. -/
theorem content_cases {text found after : List Char} (h : content 0 text = some (found, after)) :
    ∃ front, text = front ++ after ∧ '<' ∉ front ∧ after.head? = some '<' ∧
      (found = front ∧ Plain front ∨
        found.countP (onChar counted) < front.countP (onChar counted)) := by
  induction hlength : text.length using Nat.strongRecOn generalizing text found with
  | ind n ih =>
    cases text with
    | nil => cases h
    | cons c rest =>
      rw [List.length_cons] at hlength
      rw [content] at h
      split_ifs at h with hmarkup hrefused hreference
      · cases h
        refine ⟨[], rfl, List.not_mem_nil, by rw [hmarkup]; rfl, Or.inl ⟨rfl, ?_⟩⟩
        exact ⟨fun c hc => absurd hc List.not_mem_nil, fun c hc => absurd hc List.not_mem_nil,
          fun hend => by simpa using hend.length_le⟩
      · cases hfound : reference rest with
        | none =>
          rw [hfound] at h
          cases h
        | some r =>
          obtain ⟨r, more⟩ := r
          rw [hfound] at h
          obtain ⟨⟨text, after'⟩, htext, heq⟩ := Option.map_eq_some_iff.mp h
          obtain ⟨rfl, rfl⟩ := Prod.mk.inj heq
          rw [content_skip] at htext
          have hdrop := List.length_drop (i := more) (l := rest)
          obtain ⟨front, hrest, hfront, hhead, hcount⟩ :=
            ih (rest.drop more).length (by omega) htext rfl
          obtain ⟨htake, hone⟩ := reference_spec hfound
          refine ⟨c :: rest.take more ++ front, ?_, ?_, hhead, Or.inr ?_⟩
          · rw [List.cons_append, List.cons_append, List.append_assoc, ← hrest,
              List.take_append_drop]
          · simp only [List.cons_append, List.mem_cons, List.mem_append, not_or]
            exact ⟨fun hc => hmarkup hc.symm, htake, hfront⟩
          · have hle : text.countP (onChar counted) ≤ front.countP (onChar counted) := by
              rcases hcount with ⟨rfl, -⟩ | hlt
              · exact le_rfl
              · exact hlt.le
            have hpos : onChar counted '&' = true := by decide
            rw [hreference, List.cons_append, List.countP_cons_of_pos hpos, List.countP_append,
              List.countP_cons]
            change text.countP (onChar counted) + _ < _
            split_ifs <;> omega
      · obtain ⟨⟨text, after'⟩, htext, heq⟩ := Option.map_eq_some_iff.mp h
        obtain ⟨rfl, rfl⟩ := Prod.mk.inj heq
        obtain ⟨front, hrest, hfront, hhead, hcount⟩ := ih rest.length (by omega) htext rfl
        subst hrest
        refine ⟨c :: front, rfl, ?_, hhead, ?_⟩
        · simp only [List.mem_cons, not_or]
          exact ⟨fun hc => hmarkup hc.symm, hfront⟩
        · rcases hcount with ⟨rfl, hplain⟩ | hlt
          · exact Or.inl ⟨rfl, plain_cons hmarkup hreference hrefused hplain⟩
          · rw [List.countP_cons, List.countP_cons]
            exact Or.inr (Nat.add_lt_add_right hlt _)

/-- A text in front of markup that is read back with nothing counted lost is plain, and it
is what was read. -/
theorem plain_of_content {text after found rest : List Char}
    (h : content 0 (normalize false text ++ '<' :: after) = some (found, rest))
    (hcount : text.countP (onChar counted) ≤ found.countP (onChar counted)) :
    '\r' ∉ text ∧ Plain text ∧ found = text ∧ rest = '<' :: after := by
  obtain ⟨front, hsplit, hmarkup, hhead, hcases⟩ := content_cases h
  obtain ⟨hle, hlt⟩ := normalize_cases text false
  have hfound : found.countP (onChar counted) ≤ front.countP (onChar counted) := by
    rcases hcases with ⟨rfl, -⟩ | hlost
    · exact le_rfl
    · exact hlost.le
  have hfront : front = normalize false text ∧ rest = '<' :: after := by
    rcases List.append_eq_append_iff.mp hsplit with ⟨more, heq, hrest⟩ | ⟨more, heq, hrest⟩
    · cases more with
      | nil => exact ⟨by simpa using heq, by simpa using hrest.symm⟩
      | cons c more =>
        obtain ⟨rfl, -⟩ := List.cons.inj hrest
        exact absurd (heq ▸ List.mem_append_right _ List.mem_cons_self) hmarkup
    · cases more with
      | nil => exact ⟨by simpa using heq.symm, by simpa using hrest⟩
      | cons c more =>
        rw [hrest] at hhead
        have hc : c = '<' := by simpa using hhead
        have hpos : onChar counted '<' = true := by decide
        rw [heq, List.countP_append, hc, List.countP_cons_of_pos hpos] at hle
        omega
  obtain ⟨rfl, rfl⟩ := hfront
  have hreturn : '\r' ∉ text := fun hmem => by
    have := hlt hmem
    omega
  rw [normalize_eq hreturn] at hcases
  rcases hcases with ⟨rfl, hplain⟩ | hlost
  · exact ⟨hreturn, hplain, rfl, rfl⟩
  · omega

/-! Elements. -/

def isSpace (c : Char) : Bool := c = ' ' || c = '\t' || c = '\n' || c = '\r'

def opening : List Char := ['<', 's', 't', 'r', 'i', 'n', 'g', '>']

/-- An end tag without its first character. -/
def closing : List Char := ['/', 's', 't', 'r', 'i', 'n', 'g', '>']

def ending : List Char := ['<', '/', 'a', 'r', 'r', 'a', 'y', '>']

/-- The texts of the strings of an array, up to its end; `fuel` is more than there are. -/
def strings : ℕ → List Char → Option (List (List Char))
  | 0, _ => none
  | fuel + 1, text =>
    if ending <+: text.dropWhile isSpace then some []
    else if opening <+: text.dropWhile isSpace then
      match content 0 ((text.dropWhile isSpace).drop opening.length) with
      | none => none
      | some (found, rest) =>
        if '<' :: closing <+: rest then
          (strings fuel (rest.drop (closing.length + 1))).map (found :: ·)
        else none
    else none

/-- The white space in front of an element. -/
def margin : List Char := ['\n', ' ', ' ', ' ', ' ']

/-- An element of an array on a line of its own. -/
def element (text : List Char) : List Char := margin ++ opening ++ text ++ '<' :: closing

theorem normalize_element (text rest : List Char) :
    normalize false (element text ++ rest) =
      margin ++ opening ++ (normalize false text ++ '<' :: (closing ++ normalize false rest)) := by
  have hshow : element text ++ rest =
      (margin ++ opening) ++ (text ++ '<' :: (closing ++ rest)) := by
    simp [element]
  rw [hshow, normalize_append (by decide), normalize_markup, normalize_append (by decide)]

theorem strings_element (fuel : ℕ) (text : List Char) :
    strings (fuel + 1) (margin ++ opening ++ text) =
      match content 0 text with
      | none => none
      | some (found, rest) =>
        if '<' :: closing <+: rest then
          (strings fuel (rest.drop (closing.length + 1))).map (found :: ·)
        else none := by
  have hspace : (margin ++ opening ++ text).dropWhile isSpace = opening ++ text := rfl
  have hending : ¬ ending <+: opening ++ text := by
    rintro ⟨more, hmore⟩
    cases hmore
  rw [strings, hspace, if_neg hending, if_pos (List.prefix_append _ _), List.drop_left]

theorem strings_ending (fuel : ℕ) (text : List Char) :
    strings (fuel + 1) ('\n' :: ' ' :: ' ' :: (ending ++ text)) = some [] := by
  have hspace : ('\n' :: ' ' :: ' ' :: (ending ++ text)).dropWhile isSpace = ending ++ text := rfl
  rw [strings, hspace, if_pos (List.prefix_append _ _)]

/-- A plain text of an element is read, and then what follows. -/
theorem strings_of_plain {text : List Char} (hreturn : '\r' ∉ text) (h : Plain text) (fuel : ℕ)
    (rest : List Char) :
    strings (fuel + 1) (normalize false (element text ++ rest)) =
      (strings fuel (normalize false rest)).map (text :: ·) := by
  rw [normalize_element, strings_element, normalize_eq hreturn, content_of_plain h]
  simp only
  rw [if_pos ⟨normalize false rest, rfl⟩]
  rfl

/-- An element whose text comes back with nothing counted lost has a plain one. -/
theorem plain_of_strings {fuel : ℕ} {text rest found : List Char} {more : List (List Char)}
    (h : strings (fuel + 1) (normalize false (element text ++ rest)) = some (found :: more))
    (hcount : text.countP (onChar counted) ≤ found.countP (onChar counted)) :
    '\r' ∉ text ∧ Plain text ∧ found = text ∧
      strings fuel (normalize false rest) = some more := by
  rw [normalize_element, strings_element] at h
  cases hcontent : content 0 (normalize false text ++ '<' :: (closing ++ normalize false rest)) with
  | none =>
    rw [hcontent] at h
    cases h
  | some read =>
    obtain ⟨found', after⟩ := read
    rw [hcontent] at h
    simp only at h
    split_ifs at h with hclosing
    obtain ⟨more', hmore, heq⟩ := Option.map_eq_some_iff.mp h
    obtain ⟨rfl, rfl⟩ := List.cons.inj heq
    obtain ⟨hreturn, hplain, hfound, rfl⟩ := plain_of_content hcontent hcount
    exact ⟨hreturn, hplain, hfound, hmore⟩

/-- Plain texts of elements are read one after the other. -/
theorem strings_elements {texts : List (List Char)} (h : ∀ text ∈ texts, '\r' ∉ text ∧ Plain text)
    (fuel : ℕ) (rest : List Char) :
    strings (fuel + texts.length) (normalize false (texts.flatMap element ++ rest)) =
      (strings fuel (normalize false rest)).map (texts ++ ·) := by
  induction texts with
  | nil => simp
  | cons text texts ih =>
    obtain ⟨⟨hreturn, hplain⟩, htexts⟩ := List.forall_mem_cons.mp h
    rw [List.flatMap_cons, List.append_assoc, List.length_cons, ← Nat.add_assoc,
      strings_of_plain hreturn hplain, ih htexts, Option.map_map]
    rfl

/-- The texts of elements that come back with nothing counted lost are plain. -/
theorem plain_of_strings_elements {texts found : List (List Char)} {fuel : ℕ} {rest : List Char}
    (h : strings fuel (normalize false (texts.flatMap element ++ rest)) = some found)
    (hcount : found.map (List.countP (onChar counted)) =
      texts.map (List.countP (onChar counted))) :
    found = texts ∧ ∀ text ∈ texts, '\r' ∉ text ∧ Plain text := by
  induction texts generalizing fuel found with
  | nil => exact ⟨List.map_eq_nil_iff.mp hcount, fun text htext => absurd htext List.not_mem_nil⟩
  | cons text texts ih =>
    rw [List.flatMap_cons, List.append_assoc] at h
    cases fuel with
    | zero => cases h
    | succ fuel =>
      cases found with
      | nil => cases hcount
      | cons first found =>
        obtain ⟨hfirst, hfound⟩ := List.cons.inj hcount
        obtain ⟨hreturn, hplain, rfl, hrest⟩ := plain_of_strings h hfirst.ge
        obtain ⟨rfl, htexts⟩ := ih hrest hfound
        exact ⟨rfl, List.forall_mem_cons.mpr ⟨⟨hreturn, hplain⟩, htexts⟩⟩

theorem length_normalize_elements (texts : List (List Char)) (rest : List Char) :
    (normalize false rest).length + texts.length ≤
      (normalize false (texts.flatMap element ++ rest)).length := by
  induction texts with
  | nil => exact le_rfl
  | cons text texts ih =>
    rw [List.flatMap_cons, List.append_assoc, normalize_element]
    simp only [List.length_append, List.length_cons]
    omega

end Weverywhere.XmlText
