import Weverywhere.TextCounts
import Weverywhere.UnitFiles

/-!
When a command is read from a unit file as it was written there. Reading is followed by
two counts: of the backslashes and percent signs, and of the visible characters. Neither
ever grows, quotes, escapes, specifiers and broken lines make one of them smaller, and so
what is read with nothing lost was read as it stands.
-/
namespace Weverywhere.UnitCounts

open ByteStrings TextCounts UnitFiles

/-! The two counts. -/

def isSyntax (b : UInt8) : Bool := b == backslash || b == percent

theorem visible_of_isBlank {b : UInt8} (h : isBlank b = true) : visible b = true := by
  simp only [isBlank, isEol, Bool.or_eq_true, beq_iff_eq] at h
  rcases h with (rfl | rfl) | rfl | rfl <;> rfl

theorem isBlank_of_isEol {b : UInt8} (h : isEol b = true) : isBlank b = true := by
  rw [isBlank, h, Bool.or_true]

theorem visible_of_isQuote {b : UInt8} (h : isQuote b = true) : visible b = true := by
  simp only [isQuote, Bool.or_eq_true, beq_iff_eq] at h
  rcases h with rfl | rfl <;> rfl

theorem visible_of_isSyntax {b : UInt8} (h : isSyntax b = true) : visible b = true := by
  simp only [isSyntax, Bool.or_eq_true, beq_iff_eq] at h
  rcases h with rfl | rfl <;> rfl

theorem countP_isSyntax_le (bytes : Bytes) :
    bytes.countP isSyntax ≤ bytes.countP visible :=
  List.countP_mono_left fun _ _ => visible_of_isSyntax

/-- A line that is not as it stands in the text has lost something visible. -/
theorem line_cases (body : Bytes) {last eol : UInt8} (hlast : isEol last = false)
    (hne : last ≠ backslash) (heol : isEol eol = true) (after : Bytes) (escaped : Bool) :
    (line escaped (body ++ last :: eol :: after)).countP isSyntax ≤
        (pending escaped ++ body ++ [last]).countP isSyntax ∧
      ((∀ b ∈ body, isEol b = false) ∧
          line escaped (body ++ last :: eol :: after) = pending escaped ++ body ++ [last] ∨
        (line escaped (body ++ last :: eol :: after)).countP visible <
          (pending escaped ++ body ++ [last]).countP visible) := by
  induction body generalizing escaped with
  | nil =>
    have hline : line escaped (last :: eol :: after) = pending escaped ++ [last] := by
      cases escaped <;> simp [line, pending, hlast, hne, heol]
    rw [List.nil_append, hline, List.append_nil]
    exact ⟨le_rfl, Or.inl ⟨fun b hb => absurd hb List.not_mem_nil, rfl⟩⟩
  | cons b body ih =>
    by_cases hb : isEol b = true
    · have hblank := isBlank_of_isEol hb
      cases escaped with
      | false =>
        have hline : line false (b :: body ++ last :: eol :: after) = [] := by
          simp [line, hb]
        rw [hline]
        refine ⟨Nat.zero_le _, Or.inr ?_⟩
        simp [pending, visible_of_isBlank hblank]
      | true =>
        have hline : line true (b :: body ++ last :: eol :: after) =
            0x20 :: line false (body ++ last :: eol :: after) := by
          simp [line, hb]
        have hcounts := ih false
        have hvisible : (line false (body ++ last :: eol :: after)).countP visible ≤
            (body ++ [last]).countP visible := by
          rcases hcounts.2 with ⟨-, heq⟩ | hlt
          · rw [heq]
            exact le_rfl
          · exact hlt.le
        have hmarks : (line false (body ++ last :: eol :: after)).countP isSyntax ≤
            (body ++ [last]).countP isSyntax := hcounts.1
        have hshow : pending true ++ b :: body ++ [last] = backslash :: b :: (body ++ [last]) := rfl
        rw [hline, hshow]
        refine ⟨?_, Or.inr ?_⟩
        · rw [List.countP_cons_of_neg (by decide), List.countP_cons_of_pos (by decide)]
          exact hmarks.trans ((List.Sublist.countP_le (List.sublist_cons_self b _)).trans
            (Nat.le_succ _))
        · rw [List.countP_cons_of_pos (by decide), List.countP_cons_of_pos (by decide),
            List.countP_cons_of_pos (visible_of_isBlank hblank)]
          omega
    · by_cases hescape : escaped = false ∧ b = backslash
      · obtain ⟨rfl, rfl⟩ := hescape
        have hline : line false (backslash :: body ++ last :: eol :: after) =
            line true (body ++ last :: eol :: after) := by
          simp [line, hb]
        rw [hline]
        obtain ⟨hmarks, hrest⟩ := ih true
        refine ⟨hmarks, hrest.imp_left fun hplace => ⟨?_, hplace.2⟩⟩
        exact List.forall_mem_cons.mpr ⟨rfl, hplace.1⟩
      · have hline : line escaped (b :: body ++ last :: eol :: after) =
            pending escaped ++ b :: line false (body ++ last :: eol :: after) := by
          cases escaped with
          | false =>
            have hne : b ≠ backslash := fun h => hescape ⟨rfl, h⟩
            simp [line, pending, hb, hne]
          | true => simp [line, pending, hb]
        have hshow : pending escaped ++ b :: body ++ [last] =
            pending escaped ++ b :: (body ++ [last]) := by simp
        obtain ⟨hmarks, hrest⟩ := ih false
        rw [hline, hshow]
        simp only [List.countP_append, List.countP_cons] at hmarks hrest ⊢
        refine ⟨by simpa [pending] using hmarks, ?_⟩
        rcases hrest with ⟨hbody, heq⟩ | hlt
        · refine Or.inl ⟨List.forall_mem_cons.mpr ⟨by simpa using hb, hbody⟩, ?_⟩
          rw [heq]
          rfl
        · exact Or.inr (by simpa [pending] using hlt)

/-! Escapes in the counts. -/

theorem countP_visible_escaped {isByte : Bool} {n : ℕ} {out : Bytes}
    (h : escaped isByte n = some out) : out.countP visible ≤ 1 := by
  unfold escaped at h
  split_ifs at h
  · rw [← Option.some.inj h]
    exact List.countP_le_length
  · rw [← Option.some.inj h]
    exact countP_char_le counted_visible _

/-- The first byte of an escape is a letter, a digit, a quote or a backslash. -/
theorem visible_of_escape {b : UInt8}
    (h : (simpleEscape b).isSome = true ∨ (numericEscape b).isSome = true) : visible b = true := by
  have hall : ∀ n < 256, (simpleEscape (UInt8.ofNat n)).isSome = true ∨
      (numericEscape (UInt8.ofNat n)).isSome = true → visible (UInt8.ofNat n) = true := by
    decide +kernel
  have hb := hall b.toNat b.toNat_lt
  rw [UInt8.ofNat_toNat] at hb
  exact hb h

/-- A known escape is longer than what it gives. -/
theorem knownEscape_spec {rest out : Bytes} {more : ℕ} (h : knownEscape rest = some (out, more)) :
    out.countP visible ≤ 1 ∧ (rest.drop more).countP visible + 1 ≤ rest.countP visible := by
  have hdrop : ∀ (b : UInt8) (tail : Bytes) (n : ℕ), visible b = true →
      ((b :: tail).drop (n + 1)).countP visible + 1 ≤ (b :: tail).countP visible := by
    intro b tail n hb
    rw [List.drop_succ_cons, List.countP_cons_of_pos hb]
    exact Nat.succ_le_succ (List.Sublist.countP_le (List.drop_sublist n tail))
  cases rest with
  | nil => cases h
  | cons b tail =>
    cases hsimple : simpleEscape b with
    | some c =>
      simp only [knownEscape, hsimple] at h
      obtain ⟨rfl, rfl⟩ := Prod.mk.inj (Option.some.inj h)
      exact ⟨List.countP_le_length,
        hdrop b tail 0 (visible_of_escape (Or.inl (by rw [hsimple]; rfl)))⟩
    | none =>
      simp only [knownEscape, hsimple] at h
      obtain ⟨⟨base, count, offset, isByte⟩, hspec, h⟩ := Option.bind_eq_some_iff.mp h
      obtain ⟨n, hdigits, h⟩ := Option.bind_eq_some_iff.mp h
      obtain ⟨bytes, hbytes, h⟩ := Option.bind_eq_some_iff.mp h
      obtain ⟨rfl, rfl⟩ := Prod.mk.inj (Option.some.inj h)
      have hcount : offset + count ≠ 0 := by
        have := (numericEscape_spec hspec).1
        omega
      obtain ⟨k, hk⟩ := Nat.exists_eq_succ_of_ne_zero hcount
      rw [hk]
      exact ⟨countP_visible_escaped hbytes,
        hdrop b tail k (visible_of_escape (Or.inr (by rw [hspec]; rfl)))⟩

/-! Words in the counts. -/

/-- Outside quotes a word may still be counted; the closing quote pays for it inside. -/
def slack : State → ℕ
  | .between => 1
  | .word => 1
  | .quoted _ => 0

/-- Visible characters, with one between two words. -/
def cost (ws : List Bytes) : ℕ := ws.flatten.countP visible + ws.length

/-- What is emitted and what is left count no more than what there was. -/
structure Bounded (s : State) (b : UInt8) (rest out : Bytes) (more : ℕ) (s' : State) : Prop where
  ne_between : s' ≠ .between
  visible_le : out.countP visible + (rest.drop more).countP visible + slack s' ≤
    (b :: rest).countP visible + slack s
  syntax_le : out.countP isSyntax + (rest.drop more).countP isSyntax ≤
    (b :: rest).countP isSyntax

theorem inside_cases {s : State} {b : UInt8} {rest : Bytes} {act : Action}
    (h : inside s b rest = some act) :
    (b = backslash ∧ ∃ out more, knownEscape rest = some (out, more) ∧ act = .emit out more s) ∨
      (b = backslash ∧ knownEscape rest = none ∧ ∃ c tail, rest = c :: tail ∧
        act = .emit [b, c] 1 s) ∨
      b ≠ backslash ∧ act = .emit [b] 0 s := by
  unfold inside at h
  by_cases hb : b = backslash
  · rw [if_pos hb] at h
    cases hknown : knownEscape rest with
    | some r =>
      obtain ⟨out, more⟩ := r
      rw [hknown] at h
      exact Or.inl ⟨hb, out, more, rfl, (Option.some.inj h).symm⟩
    | none =>
      rw [hknown] at h
      cases rest with
      | nil => cases h
      | cons c tail => exact Or.inr (Or.inl ⟨hb, rfl, c, tail, rfl, (Option.some.inj h).symm⟩)
  · rw [if_neg hb] at h
    exact Or.inr (Or.inr ⟨hb, (Option.some.inj h).symm⟩)

theorem bounded_take {s : State} (hs : s ≠ .between) (b : UInt8) (rest : Bytes) (more : ℕ) :
    Bounded s b rest (b :: rest.take more) more s := by
  have hsplit : ∀ p : UInt8 → Bool, (b :: rest.take more).countP p + (rest.drop more).countP p =
      (b :: rest).countP p := by
    intro p
    rw [← List.countP_append, List.cons_append, List.take_append_drop]
  exact ⟨hs, by rw [hsplit], (hsplit isSyntax).le⟩

theorem bounded_known {s : State} (hs : s ≠ .between) {rest out : Bytes} {more : ℕ}
    (h : knownEscape rest = some (out, more)) : Bounded s backslash rest out more s := by
  obtain ⟨hout, hdrop⟩ := knownEscape_spec h
  refine ⟨hs, ?_, ?_⟩
  · rw [List.countP_cons_of_pos (by decide)]
    omega
  · have hmarks := (countP_isSyntax_le out).trans hout
    have hrest := List.Sublist.countP_le (p := isSyntax) (List.drop_sublist more rest)
    rw [List.countP_cons_of_pos (by decide)]
    omega

theorem inside_bounded {s s' : State} (hs : s ≠ .between) {b : UInt8} {rest out : Bytes} {more : ℕ}
    (h : inside s b rest = some (.emit out more s')) : Bounded s b rest out more s' := by
  rcases inside_cases h with ⟨rfl, out', more', hknown, hact⟩ | ⟨-, -, c, tail, rfl, hact⟩ |
    ⟨-, hact⟩
  · cases hact
    exact bounded_known hs hknown
  · cases hact
    exact bounded_take hs b (c :: tail) 1
  · cases hact
    exact bounded_take hs b rest 0

theorem inWord_bounded {s s' : State} (hs : slack s = 1) {b : UInt8} {rest out : Bytes} {more : ℕ}
    (h : inWord b rest = some (.emit out more s')) : Bounded s b rest out more s' := by
  unfold inWord at h
  split_ifs at h with hquote
  · cases h
    refine ⟨by simp, ?_, ?_⟩
    · rw [List.countP_cons_of_pos (visible_of_isQuote hquote), hs]
      simp only [slack, List.countP_nil, List.drop_zero]
      omega
    · simpa using List.Sublist.countP_le (List.sublist_cons_self b rest)
  · obtain ⟨hne, hvisible, hmarks⟩ := inside_bounded (by simp) h
    exact ⟨hne, by rw [hs]; exact hvisible, hmarks⟩

theorem step_bounded {s s' : State} {b : UInt8} {rest out : Bytes} {more : ℕ}
    (h : step s b rest = some (.emit out more s')) : Bounded s b rest out more s' := by
  cases s with
  | between =>
    simp only [step] at h
    split_ifs at h with hblank hlone hescaped
    · cases h
    · cases h
      obtain ⟨rfl, hhead, -⟩ := hescaped
      obtain ⟨tail, rfl⟩ := List.head?_eq_some_iff.mp hhead
      refine ⟨by simp, ?_, ?_⟩
      · simp only [slack, List.countP_cons, List.countP_nil, List.drop_succ_cons,
          List.drop_zero]
        omega
      · simp only [List.countP_cons, List.countP_nil, List.drop_succ_cons, List.drop_zero]
        omega
    · exact inWord_bounded rfl h
  | word =>
    simp only [step] at h
    split_ifs at h
    · cases h
    · exact inWord_bounded rfl h
  | quoted double =>
    simp only [step] at h
    split_ifs at h with hclose
    · cases h
      have hvisible : visible b = true := by
        rw [hclose]
        cases double <;> rfl
      refine ⟨by simp, ?_, ?_⟩
      · rw [List.countP_cons_of_pos hvisible]
        simp only [slack, List.countP_nil, List.drop_zero]
        omega
      · simpa using List.Sublist.countP_le (List.sublist_cons_self b rest)
    · exact inside_bounded (by simp) h

/-- A step that does not emit reads a blank outside quotes. -/
theorem step_cases {s : State} {b : UInt8} {rest : Bytes} {act : Action}
    (h : step s b rest = some act) :
    (isBlank b = true ∧ s = .between ∧ act = .gap) ∨
      (isBlank b = true ∧ s = .word ∧ act = .close) ∨
      ∃ out more s', act = .emit out more s' := by
  have hinside : ∀ {s : State}, inside s b rest = some act →
      ∃ out more s', act = .emit out more s' := by
    intro s h
    rcases inside_cases h with ⟨-, out, more, -, rfl⟩ | ⟨-, -, c, tail, -, rfl⟩ | ⟨-, rfl⟩
    · exact ⟨out, more, s, rfl⟩
    · exact ⟨[b, c], 1, s, rfl⟩
    · exact ⟨[b], 0, s, rfl⟩
  have hword : inWord b rest = some act → ∃ out more s', act = .emit out more s' := by
    intro h
    unfold inWord at h
    split_ifs at h
    · exact ⟨_, _, _, (Option.some.inj h).symm⟩
    · exact hinside h
  cases s with
  | between =>
    simp only [step] at h
    split_ifs at h with hblank
    · exact Or.inl ⟨hblank, rfl, (Option.some.inj h).symm⟩
    · exact Or.inr (Or.inr ⟨_, _, _, (Option.some.inj h).symm⟩)
    · exact Or.inr (Or.inr (hword h))
  | word =>
    simp only [step] at h
    split_ifs at h with hblank
    · exact Or.inr (Or.inl ⟨hblank, rfl, (Option.some.inj h).symm⟩)
    · exact Or.inr (Or.inr (hword h))
  | quoted double =>
    simp only [step] at h
    split_ifs at h
    · exact Or.inr (Or.inr ⟨_, _, _, (Option.some.inj h).symm⟩)
    · exact Or.inr (Or.inr (hinside h))

theorem scan_cons_cases {s : State} {b : UInt8} {rest : Bytes} {ws : List Bytes}
    (h : scan 0 s (b :: rest) = some ws) :
    (isBlank b = true ∧ s = .between ∧ scan 0 .between rest = some ws) ∨
      (isBlank b = true ∧ s = .word ∧ ∃ ws', scan 0 .between rest = some ws' ∧ ws = [] :: ws') ∨
      ∃ out more s' ws', step s b rest = some (.emit out more s') ∧
        scan 0 s' (rest.drop more) = some ws' ∧ ws = push out ws' := by
  rw [scan_cons] at h
  cases hstep : step s b rest with
  | none =>
    rw [hstep] at h
    cases h
  | some act =>
    rw [hstep] at h
    rcases step_cases hstep with ⟨hblank, hs, rfl⟩ | ⟨hblank, hs, rfl⟩ | ⟨out, more, s', rfl⟩
    · exact Or.inl ⟨hblank, hs, h⟩
    · obtain ⟨ws', hws', heq⟩ := Option.map_eq_some_iff.mp h
      exact Or.inr (Or.inl ⟨hblank, hs, ws', hws', heq.symm⟩)
    · obtain ⟨ws', hws', heq⟩ := Option.map_eq_some_iff.mp h
      exact Or.inr (Or.inr ⟨out, more, s', ws', rfl, hws', heq.symm⟩)

theorem scan_ne_nil {s : State} {bytes : Bytes} {ws : List Bytes} (hs : s ≠ .between)
    (h : scan 0 s bytes = some ws) : ws ≠ [] := by
  cases bytes with
  | nil =>
    cases s with
    | between => exact absurd rfl hs
    | word =>
      cases h
      exact List.cons_ne_nil _ _
    | quoted double => cases h
  | cons b rest =>
    rcases scan_cons_cases h with ⟨-, hbetween, -⟩ | ⟨-, -, ws', -, rfl⟩ |
      ⟨out, more, s', ws', -, -, rfl⟩
    · exact absurd hbetween hs
    · exact List.cons_ne_nil _ _
    · cases ws' <;> exact List.cons_ne_nil _ _

theorem flatten_push (out : Bytes) {ws : List Bytes} (h : ws ≠ []) :
    (push out ws).flatten = out ++ ws.flatten ∧ (push out ws).length = ws.length := by
  cases ws with
  | nil => exact absurd rfl h
  | cons w ws => exact ⟨List.append_assoc _ _ _, rfl⟩

theorem cost_push (out : Bytes) {ws : List Bytes} (h : ws ≠ []) :
    cost (push out ws) = out.countP visible + cost ws := by
  obtain ⟨hflatten, hlength⟩ := flatten_push out h
  rw [cost, cost, hflatten, hlength, List.countP_append, Nat.add_assoc]

/-- No reading counts more than its text. -/
theorem scan_bound {s : State} {bytes : Bytes} {ws : List Bytes} (h : scan 0 s bytes = some ws) :
    cost ws ≤ bytes.countP visible + slack s ∧
      ws.flatten.countP isSyntax ≤ bytes.countP isSyntax := by
  induction hlength : bytes.length using Nat.strongRecOn generalizing s bytes ws with
  | ind n ih =>
    cases bytes with
    | nil =>
      cases s with
      | between =>
        cases h
        exact ⟨Nat.zero_le _, le_rfl⟩
      | word =>
        cases h
        exact ⟨le_rfl, le_rfl⟩
      | quoted double => cases h
    | cons b rest =>
      rw [List.length_cons] at hlength
      rcases scan_cons_cases h with ⟨hblank, rfl, hrest⟩ | ⟨hblank, rfl, ws', hrest, rfl⟩ |
        ⟨out, more, s', ws', hstep, hrest, rfl⟩
      · obtain ⟨hvisible, hmarks⟩ := ih rest.length (by omega) hrest rfl
        have hsub := List.sublist_cons_self b rest
        exact ⟨hvisible.trans (Nat.add_le_add_right hsub.countP_le 1),
          hmarks.trans hsub.countP_le⟩
      · obtain ⟨hvisible, hmarks⟩ := ih rest.length (by omega) hrest rfl
        refine ⟨?_, hmarks.trans (List.sublist_cons_self b rest).countP_le⟩
        rw [List.countP_cons_of_pos (visible_of_isBlank hblank)]
        simp only [cost, slack, List.flatten_cons, List.nil_append, List.length_cons]
          at hvisible ⊢
        omega
      · obtain ⟨hne, hvisible, hmarks⟩ := step_bounded hstep
        have hnil := scan_ne_nil hne hrest
        have hdrop := List.length_drop (i := more) (l := rest)
        obtain ⟨hvisible', hmarks'⟩ := ih (rest.drop more).length (by omega) hrest rfl
        rw [cost_push out hnil, (flatten_push out hnil).1, List.countP_append]
        exact ⟨by omega, by omega⟩

theorem step_word_cases {b : UInt8} {rest out : Bytes} {more : ℕ} {s' : State}
    (h : step .word b rest = some (.emit out more s')) :
    (isQuote b = true ∧ out = [] ∧ more = 0 ∧ slack s' = 0) ∨
      (b = backslash ∧ knownEscape rest = some (out, more) ∧ s' = .word) ∨
      (b = backslash ∧ knownEscape rest = none ∧ ∃ c tail, rest = c :: tail ∧ out = [b, c] ∧
        more = 1 ∧ s' = .word) ∨
      (b ≠ backslash ∧ isBlank b = false ∧ isQuote b = false ∧ out = [b] ∧ more = 0 ∧
        s' = .word) := by
  simp only [step] at h
  split_ifs at h with hblank
  · cases h
  · unfold inWord at h
    split_ifs at h with hquote
    · cases h
      exact Or.inl ⟨hquote, rfl, rfl, rfl⟩
    · rcases inside_cases h with ⟨hb, out', more', hknown, hact⟩ |
        ⟨hb, hknown, c, tail, hrest, hact⟩ | ⟨hb, hact⟩
      · cases hact
        exact Or.inr (Or.inl ⟨hb, hknown, rfl⟩)
      · cases hact
        exact Or.inr (Or.inr (Or.inl ⟨hb, hknown, c, tail, hrest, rfl, rfl, rfl⟩))
      · cases hact
        exact Or.inr (Or.inr (Or.inr ⟨hb, by simpa using hblank, by simpa using hquote, rfl, rfl,
          rfl⟩))

theorem eq_cons_of_push {out w : Bytes} {ws ws' : List Bytes} (hws' : ws' ≠ [])
    (h : w :: ws = push out ws') : ∃ front, ws' = front :: ws ∧ w = out ++ front := by
  cases ws' with
  | nil => exact absurd rfl hws'
  | cons front ws' =>
    obtain ⟨rfl, rfl⟩ := List.cons.inj h
    exact ⟨front, rfl, rfl⟩

/-- Where nothing visible is lost, the first word is untouched and stands in front of a
blank or at the end. -/
theorem untouched_of_cost {bytes w : Bytes} {ws : List Bytes}
    (h : scan 0 .word bytes = some (w :: ws))
    (hcost : cost (w :: ws) = bytes.countP visible + 1) :
    Untouched w = true ∧ (bytes = w ∧ ws = [] ∨ ∃ blank rest, isBlank blank = true ∧
      bytes = w ++ blank :: rest ∧ scan 0 .between rest = some ws ∧
        cost ws = rest.countP visible + 1) := by
  induction hlength : bytes.length using Nat.strongRecOn generalizing bytes w ws with
  | ind n ih =>
    cases bytes with
    | nil =>
      cases h
      exact ⟨rfl, Or.inl ⟨rfl, rfl⟩⟩
    | cons b rest =>
      rw [List.length_cons] at hlength
      rcases scan_cons_cases h with ⟨-, hs, -⟩ | ⟨hblank, -, ws', hrest, heq⟩ |
        ⟨out, more, s', ws', hstep, hrest, heq⟩
      · cases hs
      · obtain ⟨rfl, rfl⟩ := List.cons.inj heq
        refine ⟨rfl, Or.inr ⟨b, rest, hblank, rfl, hrest, ?_⟩⟩
        rw [List.countP_cons_of_pos (visible_of_isBlank hblank)] at hcost
        simp only [cost, List.flatten_cons, List.nil_append, List.length_cons] at hcost ⊢
        omega
      · have hnil := scan_ne_nil (step_bounded hstep).ne_between hrest
        have hbound := (scan_bound hrest).1
        rw [heq, cost_push out hnil] at hcost
        obtain ⟨front, rfl, rfl⟩ := eq_cons_of_push hnil heq
        rcases step_word_cases hstep with ⟨hquote, rfl, rfl, hslack⟩ | ⟨rfl, hknown, rfl⟩ |
          ⟨rfl, hknown, c, tail, rfl, rfl, rfl, rfl⟩ | ⟨hb, hblank, hquote, rfl, rfl, rfl⟩
        · rw [List.countP_cons_of_pos (visible_of_isQuote hquote)] at hcost
          simp only [List.drop_zero, hslack, List.countP_nil] at hbound hcost
          omega
        · have hspec := knownEscape_spec hknown
          rw [List.countP_cons_of_pos (show visible backslash = true from rfl)] at hcost
          simp only [slack] at hbound
          omega
        · simp only [List.drop_succ_cons, List.drop_zero] at hrest
          simp only [List.countP_cons, List.countP_nil] at hcost
          simp only [List.length_cons] at hlength
          obtain ⟨hfront, hplace⟩ := ih tail.length (by omega) hrest (by omega) rfl
          rcases hplace with ⟨rfl, hws⟩ | ⟨blank, after, hafter, rfl, hscan, hcost⟩
          · exact ⟨(untouched_escape c tail).mpr ⟨hknown, hfront⟩, Or.inl ⟨rfl, hws⟩⟩
          · have hshort : knownEscape (c :: front) = none := by
              cases hfound : knownEscape (c :: front) with
              | none => rfl
              | some r =>
                have hmore := knownEscape_append hfound (blank :: after)
                rw [List.cons_append, hknown] at hmore
                cases hmore
            exact ⟨(untouched_escape c front).mpr ⟨hshort, hfront⟩,
              Or.inr ⟨blank, after, hafter, rfl, hscan, hcost⟩⟩
        · simp only [List.drop_zero] at hrest
          simp only [List.countP_cons, List.countP_nil] at hcost
          obtain ⟨hfront, hplace⟩ := ih rest.length (by omega) hrest (by omega) rfl
          refine ⟨(untouched_cons hb front).mpr ⟨hblank, hquote, hfront⟩, ?_⟩
          rcases hplace with ⟨rfl, hws⟩ | ⟨blank, after, hafter, rfl, hscan, hcost⟩
          · exact Or.inl ⟨rfl, hws⟩
          · exact Or.inr ⟨blank, after, hafter, rfl, hscan, hcost⟩

/-- Where nothing visible is lost, no blank is left out in front of a word. -/
theorem scan_word_of_between {bytes : Bytes} {ws : List Bytes}
    (h : scan 0 .between bytes = some ws) (hcost : cost ws = bytes.countP visible + 1) :
    scan 0 .word bytes = some ws := by
  cases bytes with
  | nil =>
    cases h
    cases hcost
  | cons b rest =>
    rcases scan_cons_cases h with ⟨hblank, -, hrest⟩ | ⟨-, hs, -⟩ |
      ⟨out, more, s', ws', hstep, hrest, rfl⟩
    · have hbound := (scan_bound hrest).1
      rw [List.countP_cons_of_pos (visible_of_isBlank hblank)] at hcost
      simp only [slack] at hbound
      omega
    · cases hs
    · have hbound := (scan_bound hrest).1
      rw [cost_push out (scan_ne_nil (step_bounded hstep).ne_between hrest)] at hcost
      have hcopy := hstep
      simp only [step] at hcopy
      split_ifs at hcopy with hblank hlone hescaped
      · cases hcopy
      · cases hcopy
        obtain ⟨rfl, hhead, -⟩ := hescaped
        obtain ⟨tail, rfl⟩ := List.head?_eq_some_iff.mp hhead
        rw [List.countP_cons_of_pos (show visible backslash = true from rfl)] at hcost
        simp only [List.drop_succ_cons, List.drop_zero, slack, List.countP_cons,
          List.countP_nil] at hbound hcost
        omega
      · have hword : step .word b rest = some (.emit out more s') := by
          simp only [step]
          rw [if_neg hblank, hcopy]
        rw [scan_cons, hword]
        simp only
        rw [hrest]
        rfl

/-- No value brings backslashes or percent signs with it. -/
def Clean (specifier : Specifiers) : Prop :=
  ∀ c value, specifier c = some value → value.countP isSyntax = 0

theorem expand_cases {specifier : Specifiers} (hclean : Clean specifier) (w : Bytes) :
    NoSpecifier specifier w ∨
      (expand specifier w).countP isSyntax < w.countP isSyntax := by
  have hle : ∀ {rest : Bytes}, NoSpecifier specifier rest ∨
      (expand specifier rest).countP isSyntax < rest.countP isSyntax →
      (expand specifier rest).countP isSyntax ≤ rest.countP isSyntax := by
    intro rest h
    rcases h with h | h
    · rw [expand_of_noSpecifier h]
    · exact h.le
  have hpercent : isSyntax percent = true := rfl
  fun_induction expand specifier w with
  | case1 => exact Or.inl trivial
  | case2 => exact Or.inl trivial
  | case3 rest ih =>
    refine Or.inr ?_
    rw [List.countP_cons_of_pos hpercent, List.countP_cons_of_pos hpercent,
      List.countP_cons_of_pos hpercent]
    have := hle ih
    omega
  | case4 c rest hc value hvalue ih =>
    refine Or.inr ?_
    rw [List.countP_append, hclean c value hvalue, List.countP_cons_of_pos hpercent,
      List.countP_cons]
    have := hle ih
    omega
  | case5 c rest hc hnone ih =>
    rcases ih with ih | ih
    · exact Or.inl ⟨fun _ => ⟨hc, hnone⟩, ih.cons hc⟩
    · refine Or.inr ?_
      simp only [List.countP_cons]
      omega
  | case6 b c rest hb ih =>
    rcases ih with ih | ih
    · exact Or.inl ⟨fun heq => absurd heq hb, ih⟩
    · refine Or.inr ?_
      rw [List.countP_cons, List.countP_cons (l := c :: rest)]
      omega

theorem map_expand_cases {specifier : Specifiers} (hclean : Clean specifier) (ws : List Bytes) :
    (∀ w ∈ ws, NoSpecifier specifier w) ∨
      (ws.map (expand specifier)).flatten.countP isSyntax < ws.flatten.countP isSyntax := by
  induction ws with
  | nil => exact Or.inl fun w hw => absurd hw List.not_mem_nil
  | cons w ws ih =>
    rw [List.map_cons, List.flatten_cons, List.flatten_cons, List.countP_append, List.countP_append]
    rcases expand_cases hclean w with hw | hw
    · rcases ih with hws | hws
      · exact Or.inl (List.forall_mem_cons.mpr ⟨hw, hws⟩)
      · rw [expand_of_noSpecifier hw]
        exact Or.inr (Nat.add_lt_add_left hws _)
    · refine Or.inr (Nat.add_lt_add_of_lt_of_le hw ?_)
      rcases ih with hws | hws
      · rw [map_expand_of_noSpecifier hws]
      · exact hws.le

/-- A command that counts no less than its text is the text as it stands: the line is not
broken, nothing is expanded, and each word is read without its first blanks. -/
theorem command_eq_text {specifier : Specifiers} (hclean : Clean specifier) {body after : Bytes}
    {last eol : UInt8} (hlast : isEol last = false) (hne : last ≠ backslash)
    (heol : isEol eol = true) {ws : List Bytes}
    (h : command specifier (body ++ last :: eol :: after) = some ws)
    (hmarks : (body ++ [last]).countP isSyntax ≤ ws.flatten.countP isSyntax)
    (hvisible : (body ++ [last]).countP visible + 1 ≤ cost ws) :
    (∀ b ∈ body, isEol b = false) ∧ (∀ w ∈ ws, NoSpecifier specifier w) ∧
      scan 0 .word (body ++ [last]) = some ws ∧
        cost ws = (body ++ [last]).countP visible + 1 := by
  obtain ⟨read, hread, rfl⟩ := Option.map_eq_some_iff.mp h
  obtain ⟨hline, hplace⟩ := line_cases body hlast hne heol after false
  obtain ⟨hcost, hcount⟩ := scan_bound hread
  change _ ≤ (body ++ [last]).countP isSyntax at hline
  change (_ ∧ _ = body ++ [last]) ∨ _ < (body ++ [last]).countP visible at hplace
  change cost read ≤ _ + 1 at hcost
  rcases map_expand_cases hclean read with hall | hlt
  · rw [map_expand_of_noSpecifier hall] at hmarks hvisible ⊢
    rcases hplace with ⟨hbody, heq⟩ | hlt
    · rw [words, heq] at hread
      rw [heq] at hcost
      have hexact := le_antisymm hcost hvisible
      exact ⟨hbody, hall, scan_word_of_between hread hexact, hexact⟩
    · omega
  · omega

/-- Where nothing visible is lost and the first word counts what stands in front of a blank,
it is that, and the words behind it are those of the rest. -/
theorem first_word {front rest w : Bytes} {ws : List Bytes}
    (h : scan 0 .word (front ++ 0x20 :: rest) = some (w :: ws))
    (hcost : cost (w :: ws) = (front ++ 0x20 :: rest).countP visible + 1)
    (hw : w.countP visible = front.countP visible) :
    Untouched w = true ∧ w = front ∧ scan 0 .word rest = some ws ∧
      cost ws = rest.countP visible + 1 := by
  obtain ⟨hplain, hplace⟩ := untouched_of_cost h hcost
  have hblank : visible 0x20 = true := rfl
  refine ⟨hplain, ?_⟩
  rcases hplace with ⟨heq, -⟩ | ⟨blank, after, hafter, heq, hscan, hrest⟩
  · have hcount := congrArg (List.countP visible) heq
    rw [List.countP_append, List.countP_cons_of_pos hblank] at hcount
    omega
  · have hvisible := visible_of_isBlank hafter
    rcases List.append_eq_append_iff.mp heq with ⟨more, hmore, htail⟩ | ⟨more, hmore, htail⟩
    · cases more with
      | nil =>
        obtain ⟨rfl, rfl⟩ := List.cons.inj htail
        exact ⟨by simpa using hmore, scan_word_of_between hscan hrest, hrest⟩
      | cons b more =>
        obtain ⟨rfl, -⟩ := List.cons.inj htail
        rw [hmore, List.countP_append, List.countP_cons_of_pos hblank] at hw
        omega
    · cases more with
      | nil =>
        obtain ⟨rfl, rfl⟩ := List.cons.inj htail
        exact ⟨by simpa using hmore.symm, scan_word_of_between hscan hrest, hrest⟩
      | cons b more =>
        obtain ⟨rfl, -⟩ := List.cons.inj htail
        rw [hmore, List.countP_append, List.countP_cons_of_pos hvisible] at hw
        omega

end Weverywhere.UnitCounts
