import Mathlib.Tactic.IntervalCases
import Weverywhere.NetworkMap
import Weverywhere.TextCounts

/-!
Paths and what `Path::display` makes of them. A path is bytes on unix and 16-bit units on
Windows; what is no text in it is shown as replacement characters, and everything that is
ASCII is shown as it is.
-/
namespace Weverywhere.PathDisplay

open ByteStrings TextCounts NetworkMap

/-- An absolute path on unix. -/
structure UnixPath where
  bytes : Bytes
  absolute : bytes.head? = some 0x2F
  no_null : 0 ∉ bytes

/-- A path as Windows allows it: it is not empty and has no quotes. -/
structure WindowsPath where
  units : List UInt16
  nonempty : units ≠ []
  no_quote : 0x22 ∉ units

def UnixPath.display (path : UnixPath) : String := fromUtf8Lossy path.bytes

/-- One unit that is not half of a pair. -/
def unitChar (u : UInt16) : Char :=
  if 0xD800 ≤ u ∧ u < 0xE000 then replacement else Char.ofNat u.toNat

def utf16Lossy : List UInt16 → List Char
  | [] => []
  | [u] => [unitChar u]
  | u :: v :: rest =>
    if (0xD800 ≤ u ∧ u < 0xDC00) ∧ 0xDC00 ≤ v ∧ v < 0xE000 then
      Char.ofNat (0x10000 + (u.toNat - 0xD800) * 0x400 + (v.toNat - 0xDC00)) :: utf16Lossy rest
    else unitChar u :: utf16Lossy (v :: rest)

def WindowsPath.display (path : WindowsPath) : String := String.ofList (utf16Lossy path.units)

def utf16Char (c : Char) : List UInt16 :=
  if c.toNat < 0x10000 then [UInt16.ofNat c.toNat]
  else [UInt16.ofNat (0xD800 + (c.toNat - 0x10000) / 0x400),
    UInt16.ofNat (0xDC00 + (c.toNat - 0x10000) % 0x400)]

def utf16 (chars : List Char) : List UInt16 := chars.flatMap utf16Char

/-! UTF-8. -/

/-- What is due makes a character beyond ASCII. -/
def Sound (s : Utf8State) : Prop :=
  ∀ low high due, s.due = (low, high) :: due →
    0x80 ≤ low ∧ high ≤ 0xBF ∧ (∀ bounds ∈ due, bounds = (0x80, 0xBF)) ∧
      (2 ≤ s.bits ∨ due ≠ [] ∧ (1 ≤ s.bits ∨ 0x90 ≤ low))

theorem toNat_of_valid {n : ℕ} (h : n.isValidChar) : (Char.ofNat n).toNat = n := by
  rw [Char.ofNat, dif_pos h]
  rfl

/-- What is no character is read as a null, which is not counted either. -/
theorem onChar_ofNat {p : UInt8 → Bool} (hp : Counted p) {n : ℕ} (h : 0x80 ≤ n) :
    onChar p (Char.ofNat n) = false := by
  by_cases hvalid : n.isValidChar
  · rw [onChar, toNat_of_valid hvalid, decide_eq_false (Nat.not_lt.mpr h), Bool.false_and]
  · have hnull : Char.ofNat n = Char.ofNat 0 := by
      rw [Char.ofNat, dif_neg hvalid]
      rfl
    rw [hnull, Bool.eq_false_iff]
    intro hcounted
    have hzero : p 0 = true := (Bool.and_eq_true_iff.mp hcounted).2
    have hvisible := hp 0 hzero
    revert hvisible
    decide

theorem onChar_replacement {p : UInt8 → Bool} (hp : Counted p) : onChar p replacement = false :=
  onChar_ofNat hp (n := 0xFFFD) (by decide)

theorem onChar_byte (p : UInt8 → Bool) {b : UInt8} (h : b < 0x80) :
    onChar p (Char.ofNat b.toNat) = p b := by
  have hb : b.toNat < 0x80 := h
  have hvalid : b.toNat.isValidChar := Or.inl (by omega)
  rw [onChar, toNat_of_valid hvalid, decide_eq_true hb, Bool.true_and, UInt8.ofNat_toNat]

theorem not_counted {p : UInt8 → Bool} (hp : Counted p) {b : UInt8} (h : 0x80 ≤ b) :
    p b = false := by
  rw [Bool.eq_false_iff]
  intro hcounted
  have hvisible := hp b hcounted
  rw [visible, Bool.and_eq_true, decide_eq_true_eq, decide_eq_true_eq] at hvisible
  exact absurd hvisible.2 (UInt8.not_lt.mpr h)

theorem sound_idle : Sound .idle := fun _ _ _ h => by cases h

theorem sound_of {low high : UInt8} {due : List (UInt8 × UInt8)} {bits : ℕ} (hlow : 0x80 ≤ low)
    (hhigh : high ≤ 0xBF) (hdue : ∀ bounds ∈ due, bounds = (0x80, 0xBF))
    (hbits : 2 ≤ bits ∨ due ≠ [] ∧ (1 ≤ bits ∨ 0x90 ≤ low)) :
    Sound ⟨(low, high) :: due, bits⟩ := by
  intro low' high' due' h
  obtain ⟨hbounds, rfl⟩ := List.cons.inj h
  obtain ⟨rfl, rfl⟩ := Prod.mk.inj hbounds
  exact ⟨hlow, hhigh, hdue, hbits⟩

/-- A byte that begins a longer character is beyond ASCII, as is what is due then. -/
theorem utf8First_spec {p : UInt8 → Bool} (hp : Counted p) (b : UInt8) :
    ((utf8First b).1.countP (onChar p) = if p b then 1 else 0) ∧ Sound (utf8First b).2 := by
  by_cases hascii : b < 0x80
  · simp only [utf8First, hascii, if_true, List.countP_singleton, onChar_byte p hascii]
    exact ⟨trivial, sound_idle⟩
  · have hb : p b = false := not_counted hp (UInt8.not_lt.mp hascii)
    rw [hb]
    simp only [utf8First, hascii, if_false, Bool.false_eq_true]
    simp only [UInt8.le_iff_toNat_le]
    split_ifs with htwo hE0 hED hthree hF0 hfour hF4
    · refine ⟨rfl, sound_of (by decide) (by decide) (by simp) (Or.inl ?_)⟩
      have hlow : 0xC2 ≤ b.toNat := htwo.1
      have hhigh : b.toNat ≤ 0xDF := htwo.2
      omega
    · exact ⟨rfl, sound_of (by decide) (by decide) (by simp) (Or.inr ⟨by simp, Or.inr (by decide)⟩)⟩
    · subst hED
      exact ⟨rfl, sound_of (by decide) (by decide) (by simp) (Or.inl (by decide))⟩
    · refine ⟨rfl, sound_of (by decide) (by decide) (by simp) (Or.inr ⟨by simp, Or.inl ?_⟩)⟩
      have hlow : 0xE1 ≤ b.toNat := hthree.1
      have hhigh : b.toNat ≤ 0xEF := hthree.2
      omega
    · exact ⟨rfl, sound_of (by decide) (by decide) (by simp) (Or.inr ⟨by simp, Or.inr (by decide)⟩)⟩
    · refine ⟨rfl, sound_of (by decide) (by decide) (by simp) (Or.inr ⟨by simp, Or.inl ?_⟩)⟩
      have hlow : 0xF1 ≤ b.toNat := hfour.1
      have hhigh : b.toNat ≤ 0xF3 := hfour.2
      omega
    · subst hF4
      exact ⟨rfl, sound_of (by decide) (by decide) (by simp) (Or.inl (by decide))⟩
    · refine ⟨?_, sound_idle⟩
      rw [List.countP_singleton, onChar_replacement hp]
      rfl

theorem utf8Next_spec {p : UInt8 → Bool} (hp : Counted p) {s : Utf8State} (hs : Sound s)
    (b : UInt8) :
    ((utf8Next s b).1.countP (onChar p) = if p b then 1 else 0) ∧ Sound (utf8Next s b).2 := by
  obtain ⟨due, bits⟩ := s
  cases due with
  | nil => exact utf8First_spec hp b
  | cons bounds due =>
    obtain ⟨low, high⟩ := bounds
    obtain ⟨hlow, hhigh, hdue, hbits⟩ := hs low high due rfl
    change 2 ≤ bits ∨ due ≠ [] ∧ (1 ≤ bits ∨ 0x90 ≤ low) at hbits
    by_cases hin : low ≤ b ∧ b ≤ high
    · have hb : p b = false := not_counted hp (UInt8.le_trans hlow hin.1)
      have hbound : b.toNat ≤ 0xBF := UInt8.le_trans hin.2 hhigh
      have hlowNat : low.toNat ≤ b.toNat := hin.1
      have hmin : 0x80 ≤ low.toNat := hlow
      have hnext : 2 ≤ bits * 64 + b.toNat % 64 := by
        rcases hbits with hbits | ⟨-, hbits | hwide⟩
        · omega
        · omega
        · have hwideNat : 0x90 ≤ low.toNat := hwide
          omega
      rw [hb]
      cases due with
      | nil =>
        have hhigh : 2 ≤ bits := hbits.resolve_right fun h => h.1 rfl
        simp only [utf8Next, hin, and_self, if_true, List.isEmpty_nil, List.countP_singleton]
        rw [onChar_ofNat hp (by omega)]
        exact ⟨rfl, sound_idle⟩
      | cons bounds due =>
        obtain ⟨rfl, hrest⟩ := List.forall_mem_cons.mp hdue
        simp only [utf8Next, hin, and_self, if_true, List.isEmpty_cons, Bool.false_eq_true,
          if_false]
        exact ⟨rfl, sound_of (by decide) (by decide) hrest (Or.inl hnext)⟩
    · obtain ⟨hcount, hsound⟩ := utf8First_spec hp b
      simp only [utf8Next, hin, if_false]
      rw [List.countP_cons_of_neg (by rw [onChar_replacement hp]; decide)]
      exact ⟨hcount, hsound⟩

/-- What is counted is shown as it is. -/
theorem countP_utf8Lossy {p : UInt8 → Bool} (hp : Counted p) {s : Utf8State} (hs : Sound s)
    (bytes : Bytes) : (utf8Lossy s bytes).countP (onChar p) = bytes.countP p := by
  induction bytes generalizing s with
  | nil =>
    unfold utf8Lossy
    split_ifs
    · rfl
    · rw [List.countP_singleton, onChar_replacement hp]
      rfl
  | cons b rest ih =>
    obtain ⟨hcount, hnext⟩ := utf8Next_spec hp hs b
    simp only [utf8Lossy, List.countP_append]
    rw [hcount, ih hnext, List.countP_cons, Nat.add_comm]

theorem countP_display {p : UInt8 → Bool} (hp : Counted p) (path : UnixPath) :
    (utf8 path.display).countP p = path.bytes.countP p := by
  rw [UnixPath.display, fromUtf8Lossy, countP_utf8 hp]
  exact countP_utf8Lossy hp (fun low high due h => by cases h) path.bytes

/-- An absolute path is shown as one. -/
theorem head_display (path : UnixPath) : (utf8 path.display).head? = some 0x2F := by
  obtain ⟨rest, hrest⟩ := List.head?_eq_some_iff.mp path.absolute
  rw [UnixPath.display, hrest, fromUtf8Lossy, utf8_ofList]
  rfl

/-! UTF-16. -/

theorem char_lt (c : Char) : c.toNat < 0xD800 ∨ 0xE000 ≤ c.toNat ∧ c.toNat < 0x110000 := by
  have h := c.valid
  simp only [UInt32.isValidChar, Nat.isValidChar] at h
  show c.val.toNat < _ ∨ _ ≤ c.val.toNat ∧ c.val.toNat < _
  omega

/-- A unit that is no half of a pair is read by itself. -/
theorem utf16Lossy_cons {u : UInt16} (h : ¬ (0xD800 ≤ u ∧ u < 0xDC00)) (rest : List UInt16) :
    utf16Lossy (u :: rest) = unitChar u :: utf16Lossy rest := by
  cases rest with
  | nil => rfl
  | cons v rest => rw [utf16Lossy, if_neg fun hpair => h hpair.1]

theorem utf16Lossy_utf16Char (c : Char) (rest : List UInt16) :
    utf16Lossy (utf16Char c ++ rest) = c :: utf16Lossy rest := by
  unfold utf16Char
  split_ifs with hsmall
  · have hunit : (UInt16.ofNat c.toNat).toNat = c.toNat := UInt16.toNat_ofNat_of_lt hsmall
    have hnot : ¬ (0xD800 ≤ (UInt16.ofNat c.toNat).toNat ∧
        (UInt16.ofNat c.toNat).toNat < 0xE000) := by
      have := char_lt c
      omega
    have hchar : unitChar (UInt16.ofNat c.toNat) = c := by
      rw [unitChar, if_neg fun h => hnot ⟨h.1, h.2⟩, hunit, Char.ofNat_toNat]
    rw [List.singleton_append, utf16Lossy_cons, hchar]
    intro h
    exact hnot ⟨h.1, Nat.lt_trans h.2 (by decide)⟩
  · have hc := char_lt c
    have hhigh : (UInt16.ofNat (0xD800 + (c.toNat - 0x10000) / 0x400)).toNat =
        0xD800 + (c.toNat - 0x10000) / 0x400 :=
      UInt16.toNat_ofNat_of_lt (show _ < 65536 by omega)
    have hlow : (UInt16.ofNat (0xDC00 + (c.toNat - 0x10000) % 0x400)).toNat =
        0xDC00 + (c.toNat - 0x10000) % 0x400 :=
      UInt16.toNat_ofNat_of_lt (show _ < 65536 by omega)
    have hpair : 0x10000 + (0xD800 + (c.toNat - 0x10000) / 0x400 - 0xD800) * 0x400 +
        (0xDC00 + (c.toNat - 0x10000) % 0x400 - 0xDC00) = c.toNat := by omega
    rw [List.cons_append, List.cons_append, List.nil_append, utf16Lossy, if_pos, hhigh, hlow, hpair,
      Char.ofNat_toNat]
    simp only [UInt16.le_iff_toNat_le, UInt16.lt_iff_toNat_lt, hhigh, hlow]
    refine ⟨⟨?_, ?_⟩, ?_, ?_⟩
    · exact Nat.le_add_right _ _
    · show _ < 0xDC00
      omega
    · exact Nat.le_add_right _ _
    · show _ < 0xE000
      omega

theorem utf16Lossy_utf16 (chars : List Char) : utf16Lossy (utf16 chars) = chars := by
  induction chars with
  | nil => rfl
  | cons c chars ih =>
    have hcons : utf16 (c :: chars) = utf16Char c ++ utf16 chars := List.flatMap_cons
    rw [hcons, utf16Lossy_utf16Char, ih]

theorem utf16_injective : Function.Injective utf16 := by
  intro a b h
  rw [← utf16Lossy_utf16 a, h, utf16Lossy_utf16]

theorem unitChar_ne_quote {u : UInt16} (h : u ≠ 0x22) : unitChar u ≠ '"' := by
  unfold unitChar
  split_ifs with hsurrogate
  · decide
  · intro heq
    have hlt := u.toNat_lt
    have hvalid : u.toNat.isValidChar := by
      simp only [UInt16.le_iff_toNat_le, UInt16.lt_iff_toNat_lt] at hsurrogate
      change ¬ (0xD800 ≤ u.toNat ∧ u.toNat < 0xE000) at hsurrogate
      simp only [Nat.isValidChar]
      omega
    have hnat := congrArg Char.toNat heq
    rw [toNat_of_valid hvalid] at hnat
    exact h (UInt16.toNat_inj.mp hnat)

/-- A pair is a character beyond the 16-bit ones. -/
theorem pair_ne_quote (u v : UInt16) :
    Char.ofNat (0x10000 + (u.toNat - 0xD800) * 0x400 + (v.toNat - 0xDC00)) ≠ '"' := by
  generalize hn : 0x10000 + (u.toNat - 0xD800) * 0x400 + (v.toNat - 0xDC00) = n
  intro heq
  have hnat := congrArg Char.toNat heq
  by_cases hvalid : n.isValidChar
  · rw [toNat_of_valid hvalid] at hnat
    change n = 0x22 at hnat
    omega
  · rw [Char.ofNat, dif_neg hvalid] at hnat
    exact absurd hnat (by decide)

theorem no_quote_display {units : List UInt16} (h : 0x22 ∉ units) : '"' ∉ utf16Lossy units := by
  fun_induction utf16Lossy units with
  | case1 => exact List.not_mem_nil
  | case2 u =>
    rw [List.mem_singleton] at h ⊢
    exact fun heq => unitChar_ne_quote (Ne.symm h) heq.symm
  | case3 u v rest hpair ih =>
    simp only [List.mem_cons, not_or] at h ⊢
    exact ⟨fun heq => pair_ne_quote u v heq.symm, ih h.2.2⟩
  | case4 u v rest hpair ih =>
    simp only [List.mem_cons, not_or] at h ih ⊢
    exact ⟨fun heq => unitChar_ne_quote (Ne.symm h.1) heq.symm, ih h.2⟩

theorem quote_not_mem_display (path : WindowsPath) : '"' ∉ path.display.toList := by
  rw [WindowsPath.display, String.toList_ofList]
  exact no_quote_display path.no_quote

/-! Text comes back. -/

theorem utf8First_two {k : ℕ} (hlow : 2 ≤ k) (hhigh : k < 32) :
    utf8First (UInt8.ofNat (k + 0xC0)) = ([], ⟨[(0x80, 0xBF)], k⟩) := by
  interval_cases k <;> rfl

theorem utf8First_three {k : ℕ} (h : k < 16) :
    utf8First (UInt8.ofNat (k + 0xE0)) =
      ([], ⟨[(if k = 0 then 0xA0 else 0x80, if k = 13 then 0x9F else 0xBF), (0x80, 0xBF)], k⟩) := by
  interval_cases k <;> rfl

theorem utf8First_four {k : ℕ} (h : k < 5) :
    utf8First (UInt8.ofNat (k + 0xF0)) =
      ([], ⟨[(if k = 0 then 0x90 else 0x80, if k = 4 then 0x8F else 0xBF), (0x80, 0xBF),
        (0x80, 0xBF)], k⟩) := by
  interval_cases k <;> rfl

/-- A byte that is due. -/
theorem utf8Next_due {low high : UInt8} (due : List (UInt8 × UInt8)) (bits : ℕ) {k : ℕ}
    (hk : k < 64) (hlow : low.toNat ≤ k + 0x80) (hhigh : k + 0x80 ≤ high.toNat) :
    utf8Next ⟨(low, high) :: due, bits⟩ (UInt8.ofNat (k + 0x80)) =
      if due.isEmpty then ([Char.ofNat (bits * 64 + k)], .idle)
      else ([], ⟨due, bits * 64 + k⟩) := by
  have hb : (UInt8.ofNat (k + 0x80)).toNat = k + 0x80 :=
    UInt8.toNat_ofNat_of_lt (show k + 0x80 < 256 by omega)
  have hin : low ≤ UInt8.ofNat (k + 0x80) ∧ UInt8.ofNat (k + 0x80) ≤ high := by
    rw [UInt8.le_iff_toNat_le, UInt8.le_iff_toNat_le, hb]
    exact ⟨hlow, hhigh⟩
  have hmod : (k + 0x80) % 64 = k := by omega
  simp only [utf8Next, hin, and_self, if_true, hb, hmod]

theorem utf8Lossy_due {low high : UInt8} {due : List (UInt8 × UInt8)} (hdue : due ≠ [])
    (bits : ℕ) {k : ℕ} (hk : k < 64) (hlow : low.toNat ≤ k + 0x80)
    (hhigh : k + 0x80 ≤ high.toNat) (rest : Bytes) :
    utf8Lossy ⟨(low, high) :: due, bits⟩ (UInt8.ofNat (k + 0x80) :: rest) =
      utf8Lossy ⟨due, bits * 64 + k⟩ rest := by
  have hempty : due.isEmpty = false := by simpa using hdue
  simp only [utf8Lossy, utf8Next_due due bits hk hlow hhigh, hempty, Bool.false_eq_true, if_false,
    List.nil_append]

theorem utf8Lossy_last (bits : ℕ) {k : ℕ} (hk : k < 64) (rest : Bytes) :
    utf8Lossy ⟨[(0x80, 0xBF)], bits⟩ (UInt8.ofNat (k + 0x80) :: rest) =
      Char.ofNat (bits * 64 + k) :: utf8Lossy .idle rest := by
  have hlow : (0x80 : UInt8).toNat ≤ k + 0x80 := Nat.le_add_left 0x80 k
  have hhigh : k + 0x80 ≤ (0xBF : UInt8).toNat := by
    show k + 0x80 ≤ 0xBF
    omega
  simp only [utf8Lossy, utf8Next_due [] bits hk hlow hhigh, List.isEmpty_nil, if_true,
    List.singleton_append]

theorem utf8Lossy_first {b : UInt8} {chars : List Char} {s : Utf8State}
    (h : utf8First b = (chars, s)) (rest : Bytes) :
    utf8Lossy .idle (b :: rest) = chars ++ utf8Lossy s rest := by
  simp only [utf8Lossy, utf8Next, Utf8State.idle, h]

/-- The bytes of a character are read as that character. -/
theorem utf8Lossy_char (c : Char) (rest : Bytes) :
    utf8Lossy .idle (String.utf8EncodeChar c ++ rest) = c :: utf8Lossy .idle rest := by
  have hvalid : c.val.toNat < 0xD800 ∨ 0xE000 ≤ c.val.toNat ∧ c.val.toNat < 0x110000 := char_lt c
  have hc : ∀ {m : ℕ}, m = c.val.toNat → Char.ofNat m = c := by
    rintro m rfl
    exact Char.ofNat_toNat c
  have hend : ∀ k, k % 0x40 < 64 := fun k => Nat.mod_lt k (by decide)
  simp only [String.utf8EncodeChar]
  generalize c.val.toNat = n at hvalid hc ⊢
  split_ifs with hone htwo hthree
  · have hn : (UInt8.ofNat n).toNat = n := UInt8.toNat_ofNat_of_lt (show n < 256 by omega)
    have hb : UInt8.ofNat n < 0x80 := by
      rw [UInt8.lt_iff_toNat_lt, hn]
      exact Nat.lt_succ_of_le hone
    have hfirst : utf8First (UInt8.ofNat n) = ([c], .idle) := by
      simp only [utf8First, hb, if_true, hn, hc rfl]
    rw [List.singleton_append, utf8Lossy_first hfirst, List.singleton_append]
  · simp only [List.cons_append, List.nil_append]
    rw [utf8Lossy_first (utf8First_two (by omega) (by omega)), List.nil_append,
      utf8Lossy_last _ (hend _), hc (by omega)]
  · simp only [List.cons_append, List.nil_append]
    rw [utf8Lossy_first (utf8First_three (by omega)), List.nil_append,
      utf8Lossy_due (List.cons_ne_nil _ _) _ (hend _) ?_ ?_, utf8Lossy_last _ (hend _),
      hc (by omega)]
    · split_ifs with hzero
      · show 0xA0 ≤ _
        omega
      · exact Nat.le_add_left _ _
    · split_ifs with hsurrogate
      · show _ ≤ 0x9F
        omega
      · show _ ≤ 0xBF
        omega
  · simp only [List.cons_append, List.nil_append]
    rw [utf8Lossy_first (utf8First_four (by omega)), List.nil_append,
      utf8Lossy_due (List.cons_ne_nil _ _) _ (hend _) ?_ ?_,
      utf8Lossy_due (List.cons_ne_nil _ _) _ (hend _) ?_ ?_, utf8Lossy_last _ (hend _),
      hc (by omega)]
    · exact Nat.le_add_left _ _
    · show _ ≤ 0xBF
      omega
    · split_ifs with hzero
      · show 0x90 ≤ _
        omega
      · exact Nat.le_add_left _ _
    · split_ifs with hlast
      · show _ ≤ 0x8F
        omega
      · show _ ≤ 0xBF
        omega

theorem fromUtf8Lossy_utf8 (s : String) : fromUtf8Lossy (utf8 s) = s := by
  have hchars : ∀ chars, utf8Lossy .idle (chars.flatMap String.utf8EncodeChar) = chars := by
    intro chars
    induction chars with
    | nil => rfl
    | cons c chars ih => rw [List.flatMap_cons, utf8Lossy_char, ih]
  have hs : utf8 s = s.toList.flatMap String.utf8EncodeChar := by
    rw [← utf8_ofList, String.ofList_toList]
  rw [fromUtf8Lossy, hs, hchars, String.ofList_toList]

/-- A path is shown as it is when it is UTF-8. -/
theorem utf8_display_iff (path : UnixPath) :
    utf8 path.display = path.bytes ↔ ∃ text, utf8 text = path.bytes := by
  constructor
  · intro h
    exact ⟨path.display, h⟩
  · rintro ⟨text, htext⟩
    rw [UnixPath.display, ← htext, fromUtf8Lossy_utf8]

theorem utf16_display_iff (path : WindowsPath) :
    utf16 path.display.toList = path.units ↔ ∃ text, utf16 text = path.units := by
  rw [WindowsPath.display, String.toList_ofList]
  constructor
  · intro h
    exact ⟨_, h⟩
  · rintro ⟨text, htext⟩
    rw [← htext, utf16Lossy_utf16]

end Weverywhere.PathDisplay
