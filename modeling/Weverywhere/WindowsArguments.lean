import Mathlib.Data.List.Basic

/-!
How a Windows command line gives its arguments. The first one is the program, and quotes
around it are not escaped; in the others, backslashes in front of a quote escape it, and two
quotes inside quotes are one.
-/
namespace Weverywhere.WindowsArguments

def isBlank (c : Char) : Bool := c = ' ' || c = '\t'

inductive State
  | between
  /-- `closed` when the last character was a closing quote. -/
  | argument (quoted closed : Bool) (backslashes : ℕ)

/-- More characters in front of the first argument. -/
def push (out : List Char) : List (List Char) → List (List Char)
  | [] => [out]
  | w :: ws => (out ++ w) :: ws

/-- The arguments of a text; inside one, the first of them is the rest of it. -/
def arguments : State → List Char → List (List Char)
  | .between, [] => []
  | .argument _ _ backslashes, [] => [List.replicate backslashes '\\']
  | .between, c :: rest =>
    if isBlank c then arguments .between rest
    else if c = '\\' then arguments (.argument false false 1) rest
    else if c = '"' then arguments (.argument true false 0) rest
    else push [c] (arguments (.argument false false 0) rest)
  | .argument quoted closed backslashes, c :: rest =>
    if c = '\\' then arguments (.argument quoted false (backslashes + 1)) rest
    else if c = '"' then
      if backslashes % 2 = 1 then
        push (List.replicate (backslashes / 2) '\\' ++ ['"'])
          (arguments (.argument quoted false 0) rest)
      else if closed then push ['"'] (arguments (.argument true false 0) rest)
      else
        push (List.replicate (backslashes / 2) '\\')
          (arguments (.argument (!quoted) quoted 0) rest)
    else if isBlank c && !quoted then
      List.replicate backslashes '\\' :: arguments .between rest
    else
      push (List.replicate backslashes '\\' ++ [c]) (arguments (.argument quoted false 0) rest)

/-- The program and what follows it. -/
def program : List Char → List Char × List Char
  | [] => ([], [])
  | c :: rest =>
    if c = '"' then
      (rest.takeWhile (· ≠ '"'), (rest.dropWhile (· ≠ '"')).drop 1)
    else ((c :: rest).takeWhile (!isBlank ·), (c :: rest).dropWhile (!isBlank ·))

def commandLine (text : List Char) : List (List Char) :=
  (program text).1 :: arguments .between (program text).2

/-- Neither blanks nor quotes. -/
def Word (w : List Char) : Prop := ∀ c ∈ w, isBlank c = false ∧ c ≠ '"'

theorem program_quoted {name : List Char} (h : '"' ∉ name) (rest : List Char) :
    program ('"' :: name ++ '"' :: rest) = (name, rest) := by
  have hname : ∀ c ∈ name, (decide (c ≠ '"')) = true :=
    fun c hc => decide_eq_true fun heq => h (heq ▸ hc)
  rw [List.cons_append, program, if_pos rfl, List.takeWhile_append_of_pos hname,
    List.dropWhile_append_of_pos hname]
  simp

/-- Pending backslashes and a word up to its end. -/
theorem arguments_word {w : List Char} (h : Word w) {ending : List Char}
    (hending : ending = [] ∨ ∃ rest, ending = ' ' :: rest) (closed : Bool) (backslashes : ℕ) :
    arguments (.argument false closed backslashes) (w ++ ending) =
      (List.replicate backslashes '\\' ++ w) :: arguments .between ending := by
  induction w generalizing closed backslashes with
  | nil =>
    rcases hending with rfl | ⟨rest, rfl⟩
    · simp [arguments]
    · simp [arguments, isBlank]
  | cons c w ih =>
    obtain ⟨⟨hblank, hquote⟩, hw⟩ := List.forall_mem_cons.mp h
    by_cases hc : c = '\\'
    · subst hc
      simp only [List.cons_append, arguments, if_true]
      rw [ih hw, List.replicate_succ', List.append_assoc]
      rfl
    · simp only [List.cons_append, arguments, hc, hquote, hblank, if_false, Bool.false_and,
        Bool.false_eq_true]
      rw [ih hw]
      simp [push]

theorem arguments_between_word {w : List Char} (hw : Word w) (hne : w ≠ []) {ending : List Char}
    (hending : ending = [] ∨ ∃ rest, ending = ' ' :: rest) :
    arguments .between (w ++ ending) = w :: arguments .between ending := by
  cases w with
  | nil => exact absurd rfl hne
  | cons c w =>
    obtain ⟨⟨hblank, hquote⟩, hrest⟩ := List.forall_mem_cons.mp hw
    by_cases hc : c = '\\'
    · subst hc
      simp only [List.cons_append, arguments, hblank, Bool.false_eq_true, if_false, if_true]
      rw [arguments_word hrest hending]
      rfl
    · simp only [List.cons_append, arguments, hc, hquote, hblank, if_false, Bool.false_eq_true]
      rw [arguments_word hrest hending]
      rfl

theorem arguments_blank (rest : List Char) :
    arguments .between (' ' :: rest) = arguments .between rest := by
  simp [arguments, isBlank]

/-- Where no quote has been read. -/
inductive Unquoted : State → Prop
  | between : Unquoted .between
  | argument (backslashes : ℕ) : Unquoted (.argument false false backslashes)

/-- Characters that are not blanks, put in front of arguments without blanks. -/
theorem not_blank_of_mem_push {out w : List Char} {ws : List (List Char)}
    (hout : ∀ c ∈ out, isBlank c = false) (hws : ∀ w ∈ ws, ∀ c ∈ w, isBlank c = false)
    (h : w ∈ push out ws) : ∀ c ∈ w, isBlank c = false := by
  cases ws with
  | nil =>
    rw [List.mem_singleton.mp h]
    exact hout
  | cons front ws =>
    rcases List.mem_cons.mp h with rfl | hw
    · intro c hc
      rcases List.mem_append.mp hc with hc | hc
      · exact hout c hc
      · exact hws front List.mem_cons_self c hc
    · exact hws w (List.mem_cons_of_mem front hw)

theorem not_blank_of_mem_replicate {n : ℕ} :
    ∀ c ∈ List.replicate n '\\', isBlank c = false := by
  intro c hc
  rw [List.eq_of_mem_replicate hc]
  rfl

/-- Without quotes no argument has a blank in it. -/
theorem not_blank_of_mem_arguments {text : List Char} (htext : '"' ∉ text) {s : State}
    (hs : Unquoted s) {w : List Char} (hw : w ∈ arguments s text) : ∀ c ∈ w, isBlank c = false := by
  induction text generalizing s w with
  | nil =>
    cases hs with
    | between => exact absurd hw List.not_mem_nil
    | argument backslashes =>
      rw [List.mem_singleton.mp hw]
      exact not_blank_of_mem_replicate
  | cons d rest ih =>
    have hd : d ≠ '"' := fun heq => htext (heq ▸ List.mem_cons_self)
    have hrest : '"' ∉ rest := fun h => htext (List.mem_cons_of_mem d h)
    cases hs with
    | between =>
      rw [arguments, if_neg hd] at hw
      split_ifs at hw with hblank hbackslash
      · exact ih hrest Unquoted.between hw
      · exact ih hrest (Unquoted.argument _) hw
      · refine not_blank_of_mem_push ?_ (fun w hw => ih hrest (Unquoted.argument _) hw) hw
        intro c hc
        rw [List.mem_singleton.mp hc]
        simpa using hblank
    | argument backslashes =>
      rw [arguments, if_neg hd] at hw
      split_ifs at hw with hbackslash hblank
      · exact ih hrest (Unquoted.argument _) hw
      · rcases List.mem_cons.mp hw with rfl | hw
        · exact not_blank_of_mem_replicate
        · exact ih hrest Unquoted.between hw
      · refine not_blank_of_mem_push ?_ (fun w hw => ih hrest (Unquoted.argument _) hw) hw
        intro c hc
        rcases List.mem_append.mp hc with hc | hc
        · exact not_blank_of_mem_replicate c hc
        · rw [List.mem_singleton.mp hc]
          simpa using hblank

end Weverywhere.WindowsArguments
