import Weverywhere.Cbor

/-!
Well-formed data items: every major type, tags, simple values and floats, and
strings, arrays and maps of definite and of indefinite length. The grammar says
which byte strings are one item; a reader that skips one item decides it, with
the length of its input as a bound on the nesting.
-/
namespace Weverywhere.CborItems

open ByteStrings Cbor

/-- The byte that ends an item of indefinite length. -/
def breakByte : UInt8 := 0xFF

/-- A head of the major type with the argument `n`, in any of its forms. -/
def IsHead (major n : ℕ) (h : Bytes) : Prop := readHead h = some (major, n, [])

/-- A simple value or a float at the front; the two-byte form of a simple value
is for 32 and above. -/
def skipSimple : Bytes → Option Bytes
  | [] => none
  | b :: rest =>
    let info := b.toNat % 32
    if b.toNat / 32 ≠ 7 then none
    else if info < 24 then some rest
    else do
      let width ← argumentWidth info
      let (n, rest) ← readArgument width rest
      if info = 24 ∧ n < 32 then none else some rest

def IsSimple (h : Bytes) : Prop := skipSimple h = some []

/-- A string of definite length. -/
def IsString (major : ℕ) (s : Bytes) : Prop :=
  ∃ h content, s = h ++ content ∧ IsHead major content.length h

/-- One data item and nothing else. -/
inductive WellFormed : Bytes → Prop
  | integer {major n : ℕ} {h : Bytes} (hmajor : major = 0 ∨ major = 1) (hhead : IsHead major n h) :
      WellFormed h
  | string {major : ℕ} {s : Bytes} (hmajor : major = 2 ∨ major = 3) (hstring : IsString major s) :
      WellFormed s
  | chunks {major : ℕ} {chunks : List Bytes} (hmajor : major = 2 ∨ major = 3)
      (hchunks : ∀ chunk ∈ chunks, IsString major chunk) :
      WellFormed (initialByte major 31 :: chunks.flatten ++ [breakByte])
  | array {h : Bytes} {items : List Bytes} (hhead : IsHead 4 items.length h)
      (hitems : ∀ item ∈ items, WellFormed item) : WellFormed (h ++ items.flatten)
  | openArray {items : List Bytes} (hitems : ∀ item ∈ items, WellFormed item) :
      WellFormed (initialByte 4 31 :: items.flatten ++ [breakByte])
  | map {n : ℕ} {h : Bytes} {items : List Bytes} (hhead : IsHead 5 n h)
      (hpairs : items.length = 2 * n) (hitems : ∀ item ∈ items, WellFormed item) :
      WellFormed (h ++ items.flatten)
  | openMap {items : List Bytes} (hpairs : 2 ∣ items.length)
      (hitems : ∀ item ∈ items, WellFormed item) :
      WellFormed (initialByte 5 31 :: items.flatten ++ [breakByte])
  | tag {n : ℕ} {h item : Bytes} (hhead : IsHead 6 n h) (hitem : WellFormed item) :
      WellFormed (h ++ item)
  | simple {h : Bytes} (hsimple : IsSimple h) : WellFormed h

/-! Reading past one item. -/

def skipString (major : ℕ) (bytes : Bytes) : Option Bytes := do
  let (found, n, rest) ← readHead bytes
  if found = major then (readBytes n rest).map Prod.snd else none

def skipMany (item : Bytes → Option Bytes) : ℕ → Bytes → Option Bytes
  | 0, bytes => some bytes
  | n + 1, bytes => do
    let rest ← item bytes
    skipMany item n rest

/-- The number of items up to the break and what follows it. -/
def skipToBreak (item : Bytes → Option Bytes) : ℕ → Bytes → Option (ℕ × Bytes)
  | 0, _ => none
  | _ + 1, [] => none
  | fuel + 1, b :: rest =>
    if b = breakByte then some (0, rest)
    else do
      let rest ← item (b :: rest)
      let (n, rest) ← skipToBreak item fuel rest
      pure (n + 1, rest)

/-- An item of indefinite length, behind its first byte. -/
def skipOpen (item : Bytes → Option Bytes) (fuel major : ℕ) (rest : Bytes) : Option Bytes :=
  match major with
  | 2 | 3 => (skipToBreak (skipString major) fuel rest).map Prod.snd
  | 4 => (skipToBreak item fuel rest).map Prod.snd
  | 5 => do
    let (n, rest) ← skipToBreak item fuel rest
    if 2 ∣ n then some rest else none
  | _ => none

/-- An item with a head, behind that head. -/
def skipBody (item : Bytes → Option Bytes) (major n : ℕ) (rest : Bytes) : Option Bytes :=
  match major with
  | 0 | 1 => some rest
  | 2 | 3 => (readBytes n rest).map Prod.snd
  | 4 => skipMany item n rest
  | 5 => skipMany item (2 * n) rest
  | 6 => item rest
  | _ => none

def skipItem : ℕ → Bytes → Option Bytes
  | 0, _ => none
  | _ + 1, [] => none
  | fuel + 1, b :: rest =>
    if b.toNat % 32 = 31 then skipOpen (skipItem fuel) fuel (b.toNat / 32) rest
    else if b.toNat / 32 = 7 then skipSimple (b :: rest)
    else do
      let (major, n, rest) ← readHead (b :: rest)
      skipBody (skipItem fuel) major n rest

/-! Heads, strings and simple values. -/

theorem readArgument_eq_some {width n : ℕ} {bytes rest : Bytes}
    (h : readArgument width bytes = some (n, rest)) :
    ∃ argument, bytes = argument ++ rest ∧ argument.length = width ∧ n = ofBeBytes argument := by
  unfold readArgument at h
  split_ifs at h with hwidth
  obtain ⟨rfl, rfl⟩ := Prod.mk.inj (Option.some.inj h)
  exact ⟨bytes.take width, (List.take_append_drop width bytes).symm, by simp [hwidth], rfl⟩

theorem readArgument_append (argument rest : Bytes) :
    readArgument argument.length (argument ++ rest) = some (ofBeBytes argument, rest) := by
  simp [readArgument]

/-- A head that is read is followed by the rest and is read alone too. -/
theorem readHead_eq_some {bytes rest : Bytes} {major n : ℕ}
    (h : readHead bytes = some (major, n, rest)) :
    ∃ b t, bytes = b :: t ++ rest ∧ IsHead major n (b :: t) ∧ major = b.toNat / 32 ∧
      b.toNat % 32 ≠ 31 := by
  cases bytes with
  | nil => cases h
  | cons b tail =>
    simp only [readHead] at h
    split_ifs at h with hshort
    · simp only [Option.some.injEq, Prod.mk.injEq] at h
      obtain ⟨rfl, rfl, rfl⟩ := h
      refine ⟨b, [], rfl, ?_, rfl, by omega⟩
      simp [IsHead, readHead, hshort]
    · simp only [Option.bind_eq_bind, Option.bind_eq_some_iff, Option.pure_def,
        Option.some.injEq, Prod.mk.injEq, Prod.exists] at h
      obtain ⟨width, hwidth, n', rest', hargument, rfl, rfl, rfl⟩ := h
      obtain ⟨argument, rfl, hlength, rfl⟩ := readArgument_eq_some hargument
      have hread := readArgument_append argument []
      rw [List.append_nil, hlength] at hread
      refine ⟨b, argument, rfl, ?_, rfl, ?_⟩
      · simp [IsHead, readHead, hshort, hwidth, hread]
      · intro hopen
        rw [hopen] at hwidth
        cases hwidth

theorem IsHead.readHead_append {major n : ℕ} {h : Bytes} (hh : IsHead major n h) (rest : Bytes) :
    readHead (h ++ rest) = some (major, n, rest) := by
  cases h with
  | nil => cases hh
  | cons b tail =>
    simp only [IsHead, readHead] at hh
    simp only [List.cons_append, readHead]
    split_ifs at hh ⊢ with hshort
    · simp only [Option.some.injEq, Prod.mk.injEq] at hh
      obtain ⟨rfl, rfl, rfl⟩ := hh
      rfl
    · simp only [Option.bind_eq_bind, Option.bind_eq_some_iff, Option.pure_def,
        Option.some.injEq, Prod.mk.injEq, Prod.exists] at hh
      obtain ⟨width, hwidth, n', rest', hargument, rfl, rfl, rfl⟩ := hh
      obtain ⟨argument, rfl, hlength, rfl⟩ := readArgument_eq_some hargument
      have hread := readArgument_append argument rest
      rw [hlength] at hread
      simp [hwidth, hread]

/-- The first byte of a head tells its major type and announces no open item. -/
theorem IsHead.first {major n : ℕ} {h : Bytes} (hh : IsHead major n h) :
    ∃ b t, h = b :: t ∧ major = b.toNat / 32 ∧ b.toNat % 32 ≠ 31 := by
  obtain ⟨b, t, heq, -, hmajor, hinfo⟩ := readHead_eq_some hh
  exact ⟨b, t, by simpa using heq, hmajor, hinfo⟩

theorem readBytes_append_right (content rest : Bytes) {n : ℕ} (h : content.length = n) :
    readBytes n (content ++ rest) = some (content, rest) := by
  subst h
  exact readBytes_append content rest

theorem skipSimple_eq_some {bytes rest : Bytes} (h : skipSimple bytes = some rest) :
    ∃ b t, bytes = b :: t ++ rest ∧ IsSimple (b :: t) ∧ b.toNat / 32 = 7 ∧ b.toNat % 32 ≠ 31 := by
  cases bytes with
  | nil => cases h
  | cons b tail =>
    simp only [skipSimple] at h
    split_ifs at h with hmajor hshort
    · simp only [Option.some.injEq] at h
      subst h
      exact ⟨b, [], rfl, by simp [IsSimple, skipSimple, not_not.mp hmajor, hshort],
        not_not.mp hmajor, by omega⟩
    · simp only [Option.bind_eq_bind, Option.bind_eq_some_iff, Prod.exists] at h
      obtain ⟨width, hwidth, n, rest', hargument, hform⟩ := h
      split_ifs at hform with hsmall
      obtain rfl := Option.some.inj hform
      obtain ⟨argument, rfl, hlength, rfl⟩ := readArgument_eq_some hargument
      have hread := readArgument_append argument []
      rw [List.append_nil, hlength] at hread
      refine ⟨b, argument, rfl, ?_, not_not.mp hmajor, ?_⟩
      · simp only [IsSimple, skipSimple, hmajor, if_false, hshort, hwidth, hread,
          Option.bind_eq_bind, Option.bind_some, hsmall]
      · intro hopen
        rw [hopen] at hwidth
        cases hwidth

theorem IsSimple.skipSimple_append {h : Bytes} (hh : IsSimple h) (rest : Bytes) :
    skipSimple (h ++ rest) = some rest := by
  cases h with
  | nil => cases hh
  | cons b tail =>
    simp only [IsSimple, skipSimple] at hh
    simp only [List.cons_append, skipSimple]
    split_ifs at hh ⊢ with hmajor hshort
    · rw [Option.some.inj hh]
      rfl
    · simp only [Option.bind_eq_bind, Option.bind_eq_some_iff, Prod.exists] at hh
      obtain ⟨width, hwidth, n, rest', hargument, hform⟩ := hh
      split_ifs at hform with hsmall
      obtain rfl := Option.some.inj hform
      obtain ⟨argument, rfl, hlength, rfl⟩ := readArgument_eq_some hargument
      have hread := readArgument_append argument rest
      rw [hlength] at hread
      simp only [List.append_nil, hwidth, hread, Option.bind_eq_bind, Option.bind_some, hsmall,
        if_false]

theorem IsSimple.first {h : Bytes} (hh : IsSimple h) :
    ∃ b t, h = b :: t ∧ b.toNat / 32 = 7 ∧ b.toNat % 32 ≠ 31 := by
  obtain ⟨b, t, heq, -, hmajor, hinfo⟩ := skipSimple_eq_some hh
  exact ⟨b, t, by simpa using heq, hmajor, hinfo⟩

theorem skipString_eq_some {major : ℕ} {bytes rest : Bytes}
    (h : skipString major bytes = some rest) : ∃ s, bytes = s ++ rest ∧ IsString major s := by
  simp only [skipString, Option.bind_eq_bind, Option.bind_eq_some_iff, Prod.exists] at h
  obtain ⟨found, n, tail, hread, hcontent⟩ := h
  split_ifs at hcontent with hfound
  obtain ⟨⟨content, _⟩, hsplit, rfl⟩ := Option.map_eq_some_iff.mp hcontent
  obtain ⟨b, t, rfl, hhead, -, -⟩ := readHead_eq_some hread
  obtain ⟨rfl, rfl⟩ := readBytes_eq_some hsplit
  subst hfound
  exact ⟨(b :: t) ++ content, by simp, b :: t, content, rfl, hhead⟩

theorem IsString.skipString_append {major : ℕ} {s : Bytes} (hs : IsString major s)
    (rest : Bytes) : skipString major (s ++ rest) = some rest := by
  obtain ⟨h, content, rfl, hhead⟩ := hs
  simp [skipString, hhead.readHead_append, readBytes_append_right content rest rfl]

/-- An item starts with a byte, and not with the break. -/
def Starts (x : Bytes) : Prop := ∃ b t, x = b :: t ∧ b ≠ breakByte

theorem starts_of_info {x : Bytes} {b : UInt8} {t : Bytes} (hx : x = b :: t)
    (hinfo : b.toNat % 32 ≠ 31) : Starts x := by
  refine ⟨b, t, hx, ?_⟩
  rintro rfl
  exact hinfo rfl

theorem IsString.starts {major : ℕ} {s : Bytes} (hs : IsString major s) : Starts s := by
  obtain ⟨h, content, rfl, hhead⟩ := hs
  obtain ⟨b, t, rfl, -, hinfo⟩ := hhead.first
  exact starts_of_info rfl hinfo

theorem initialByte_ne_break {major : ℕ} (hmajor : major < 7) :
    initialByte major 31 ≠ breakByte := by
  intro h
  have hnat := congrArg UInt8.toNat h
  rw [toNat_initialByte major 31 (by omega) (by omega)] at hnat
  have hbreak : breakByte.toNat = 255 := rfl
  omega

theorem WellFormed.starts {x : Bytes} (h : WellFormed x) : Starts x := by
  cases h with
  | integer hmajor hhead =>
    obtain ⟨b, t, hx, -, hinfo⟩ := hhead.first
    exact starts_of_info hx hinfo
  | string hmajor hstring => exact hstring.starts
  | chunks hmajor hchunks => exact ⟨_, _, rfl, initialByte_ne_break (by omega)⟩
  | array hhead hitems =>
    obtain ⟨b, t, rfl, -, hinfo⟩ := hhead.first
    exact starts_of_info rfl hinfo
  | openArray hitems => exact ⟨_, _, rfl, initialByte_ne_break (by omega)⟩
  | map hhead hpairs hitems =>
    obtain ⟨b, t, rfl, -, hinfo⟩ := hhead.first
    exact starts_of_info rfl hinfo
  | openMap hpairs hitems => exact ⟨_, _, rfl, initialByte_ne_break (by omega)⟩
  | tag hhead hitem =>
    obtain ⟨b, t, rfl, -, hinfo⟩ := hhead.first
    exact starts_of_info rfl hinfo
  | simple hsimple =>
    obtain ⟨b, t, hx, -, hinfo⟩ := hsimple.first
    exact starts_of_info hx hinfo

/-! Sequences of items. -/

section Sequences

variable {P : Bytes → Prop} {item : Bytes → Option Bytes}

theorem skipMany_eq_some (hitem : ∀ bytes rest, item bytes = some rest →
    ∃ x, bytes = x ++ rest ∧ P x) {n : ℕ} {bytes rest : Bytes}
    (h : skipMany item n bytes = some rest) :
    ∃ items : List Bytes, bytes = items.flatten ++ rest ∧ items.length = n ∧
      ∀ x ∈ items, P x := by
  induction n generalizing bytes with
  | zero => exact ⟨[], by simpa [skipMany] using h, rfl, by simp⟩
  | succ n ih =>
    simp only [skipMany, Option.bind_eq_bind, Option.bind_eq_some_iff] at h
    obtain ⟨tail, hfirst, hrest⟩ := h
    obtain ⟨x, rfl, hx⟩ := hitem _ _ hfirst
    obtain ⟨items, rfl, rfl, hitems⟩ := ih hrest
    exact ⟨x :: items, by simp, rfl, List.forall_mem_cons.mpr ⟨hx, hitems⟩⟩

theorem skipMany_flatten {items : List Bytes}
    (hitems : ∀ x ∈ items, ∀ rest, item (x ++ rest) = some rest) (rest : Bytes) :
    skipMany item items.length (items.flatten ++ rest) = some rest := by
  induction items with
  | nil => rfl
  | cons x items ih =>
    have hx := hitems x List.mem_cons_self (items.flatten ++ rest)
    simp only [List.length_cons, List.flatten_cons, List.append_assoc, skipMany, hx,
      Option.bind_eq_bind, Option.bind_some]
    exact ih fun y hy => hitems y (List.mem_cons_of_mem x hy)

theorem skipToBreak_eq_some (hitem : ∀ bytes rest, item bytes = some rest →
    ∃ x, bytes = x ++ rest ∧ P x) {fuel n : ℕ} {bytes rest : Bytes}
    (h : skipToBreak item fuel bytes = some (n, rest)) :
    ∃ items : List Bytes, bytes = items.flatten ++ breakByte :: rest ∧ items.length = n ∧
      ∀ x ∈ items, P x := by
  induction fuel generalizing n bytes with
  | zero => cases h
  | succ fuel ih =>
    cases bytes with
    | nil => cases h
    | cons b tail =>
      rw [skipToBreak] at h
      split_ifs at h with hbreak
      · obtain ⟨rfl, rfl⟩ := Prod.mk.inj (Option.some.inj h)
        exact ⟨[], by simp [hbreak], rfl, by simp⟩
      · simp only [Option.bind_eq_bind, Option.bind_eq_some_iff, Option.pure_def,
          Option.some.injEq, Prod.mk.injEq, Prod.exists] at h
        obtain ⟨tail', hfirst, n', rest', hrest, rfl, rfl⟩ := h
        obtain ⟨x, hsplit, hx⟩ := hitem _ _ hfirst
        obtain ⟨items, rfl, rfl, hitems⟩ := ih hrest
        exact ⟨x :: items, by simp [hsplit], rfl, List.forall_mem_cons.mpr ⟨hx, hitems⟩⟩

/-- One unit of fuel for each item and one for the break are enough. -/
theorem skipToBreak_flatten {items : List Bytes}
    (hitems : ∀ x ∈ items, Starts x ∧ ∀ rest, item (x ++ rest) = some rest) {fuel : ℕ}
    (hfuel : items.length < fuel) (rest : Bytes) :
    skipToBreak item fuel (items.flatten ++ breakByte :: rest) = some (items.length, rest) := by
  induction items generalizing fuel with
  | nil =>
    obtain ⟨fuel, rfl⟩ := Nat.exists_eq_succ_of_ne_zero (Nat.ne_of_gt hfuel)
    simp [skipToBreak]
  | cons x items ih =>
    obtain ⟨fuel, rfl⟩ := Nat.exists_eq_succ_of_ne_zero (Nat.ne_of_gt (Nat.zero_lt_of_lt hfuel))
    obtain ⟨⟨b, t, rfl, hb⟩, hx⟩ := hitems _ List.mem_cons_self
    have hrest := ih (fun y hy => hitems y (List.mem_cons_of_mem _ hy))
      (Nat.lt_of_succ_lt_succ hfuel)
    have hfirst := hx (items.flatten ++ breakByte :: rest)
    rw [List.cons_append] at hfirst
    simp only [List.flatten_cons, List.append_assoc, List.cons_append, skipToBreak, hb, if_false,
      hfirst, hrest, Option.bind_eq_bind, Option.bind_some, Option.pure_def, List.length_cons]

end Sequences

/-! The reader decides the grammar. -/

theorem initialByte_div_mod (b : UInt8) : initialByte (b.toNat / 32) (b.toNat % 32) = b := by
  apply UInt8.toNat_inj.mp
  have hlt := b.toNat_lt
  rw [toNat_initialByte _ _ (by omega) (by omega)]
  omega

theorem skipOpen_eq_some {item : Bytes → Option Bytes} (hitem : ∀ bytes rest,
    item bytes = some rest → ∃ x, bytes = x ++ rest ∧ WellFormed x) {fuel major : ℕ}
    {bytes rest : Bytes} (h : skipOpen item fuel major bytes = some rest) :
    ∃ x, bytes = x ++ rest ∧ WellFormed (initialByte major 31 :: x) := by
  have hstrings : ∀ major, major = 2 ∨ major = 3 →
      (skipToBreak (skipString major) fuel bytes).map Prod.snd = some rest →
      ∃ x, bytes = x ++ rest ∧ WellFormed (initialByte major 31 :: x) := by
    intro major hmajor h
    obtain ⟨⟨n, _⟩, hread, rfl⟩ := Option.map_eq_some_iff.mp h
    obtain ⟨chunks, rfl, -, hchunks⟩ :=
      skipToBreak_eq_some (fun _ _ => skipString_eq_some) hread
    exact ⟨chunks.flatten ++ [breakByte], by simp, .chunks hmajor hchunks⟩
  unfold skipOpen at h
  split at h
  · exact hstrings 2 (Or.inl rfl) h
  · exact hstrings 3 (Or.inr rfl) h
  · obtain ⟨⟨n, _⟩, hread, rfl⟩ := Option.map_eq_some_iff.mp h
    obtain ⟨items, rfl, -, hitems⟩ := skipToBreak_eq_some hitem hread
    exact ⟨items.flatten ++ [breakByte], by simp, .openArray hitems⟩
  · simp only [Option.bind_eq_bind, Option.bind_eq_some_iff, Prod.exists] at h
    obtain ⟨n, tail, hread, heven⟩ := h
    split_ifs at heven with hpairs
    obtain rfl := Option.some.inj heven
    obtain ⟨items, rfl, rfl, hitems⟩ := skipToBreak_eq_some hitem hread
    exact ⟨items.flatten ++ [breakByte], by simp, .openMap hpairs hitems⟩
  · cases h

theorem skipBody_eq_some {item : Bytes → Option Bytes} (hitem : ∀ bytes rest,
    item bytes = some rest → ∃ x, bytes = x ++ rest ∧ WellFormed x) {major n : ℕ} {head : Bytes}
    (hhead : IsHead major n head) {bytes rest : Bytes}
    (h : skipBody item major n bytes = some rest) :
    ∃ x, bytes = x ++ rest ∧ WellFormed (head ++ x) := by
  have hstrings : ∀ major, major = 2 ∨ major = 3 → IsHead major n head →
      (readBytes n bytes).map Prod.snd = some rest →
      ∃ x, bytes = x ++ rest ∧ WellFormed (head ++ x) := by
    intro major hmajor hhead h
    obtain ⟨⟨content, _⟩, hread, rfl⟩ := Option.map_eq_some_iff.mp h
    obtain ⟨rfl, rfl⟩ := readBytes_eq_some hread
    exact ⟨content, rfl, .string hmajor ⟨head, content, rfl, hhead⟩⟩
  unfold skipBody at h
  split at h
  · exact ⟨[], by simpa using h, by simpa using WellFormed.integer (Or.inl rfl) hhead⟩
  · exact ⟨[], by simpa using h, by simpa using WellFormed.integer (Or.inr rfl) hhead⟩
  · exact hstrings 2 (Or.inl rfl) hhead h
  · exact hstrings 3 (Or.inr rfl) hhead h
  · obtain ⟨items, rfl, rfl, hitems⟩ := skipMany_eq_some hitem h
    exact ⟨items.flatten, rfl, .array hhead hitems⟩
  · obtain ⟨items, rfl, hpairs, hitems⟩ := skipMany_eq_some hitem h
    exact ⟨items.flatten, rfl, .map hhead hpairs hitems⟩
  · obtain ⟨x, rfl, hx⟩ := hitem _ _ h
    exact ⟨x, rfl, .tag hhead hx⟩
  · cases h

/-- What is skipped is one item. -/
theorem skipItem_eq_some {fuel : ℕ} {bytes rest : Bytes} (h : skipItem fuel bytes = some rest) :
    ∃ x, bytes = x ++ rest ∧ WellFormed x := by
  induction fuel generalizing bytes rest with
  | zero => cases h
  | succ fuel ih =>
    cases bytes with
    | nil => cases h
    | cons b tail =>
      rw [skipItem] at h
      split_ifs at h with hopen hsimple
      · obtain ⟨x, rfl, hx⟩ := skipOpen_eq_some (fun _ _ => ih) h
        rw [← hopen, initialByte_div_mod] at hx
        exact ⟨b :: x, rfl, hx⟩
      · obtain ⟨b', t, hsplit, hx, -, -⟩ := skipSimple_eq_some h
        exact ⟨b' :: t, hsplit, .simple hx⟩
      · simp only [Option.bind_eq_bind, Option.bind_eq_some_iff, Prod.exists] at h
        obtain ⟨major, n, tail', hread, hbody⟩ := h
        obtain ⟨b', t, hsplit, hhead, -, -⟩ := readHead_eq_some hread
        obtain ⟨x, rfl, hx⟩ := skipBody_eq_some (fun _ _ => ih) hhead hbody
        exact ⟨b' :: t ++ x, by simpa using hsplit, hx⟩

theorem skipItem_head {major n : ℕ} {h : Bytes} (hhead : IsHead major n h) (hmajor : major ≠ 7)
    (fuel : ℕ) (rest : Bytes) :
    skipItem (fuel + 1) (h ++ rest) = skipBody (skipItem fuel) major n rest := by
  have hread := hhead.readHead_append rest
  obtain ⟨b, t, rfl, rfl, hinfo⟩ := hhead.first
  rw [List.cons_append] at hread ⊢
  rw [skipItem, if_neg hinfo, if_neg hmajor, hread]
  rfl

theorem skipItem_open {major : ℕ} (hmajor : major < 8) (fuel : ℕ) (rest : Bytes) :
    skipItem (fuel + 1) (initialByte major 31 :: rest) =
      skipOpen (skipItem fuel) fuel major rest := by
  have hbyte := toNat_initialByte major 31 hmajor (by omega)
  have hinfo : (initialByte major 31).toNat % 32 = 31 := by omega
  have hdiv : (initialByte major 31).toNat / 32 = major := by omega
  rw [skipItem, if_pos hinfo, hdiv]

theorem length_le_flatten {items : List Bytes} {x : Bytes} (h : x ∈ items) :
    x.length ≤ items.flatten.length :=
  (List.sublist_flatten_of_mem h).length_le

theorem length_le_length_flatten {items : List Bytes} (h : ∀ x ∈ items, Starts x) :
    items.length ≤ items.flatten.length := by
  induction items with
  | nil => simp
  | cons x items ih =>
    obtain ⟨b, t, rfl, -⟩ := h _ List.mem_cons_self
    have hrest := ih fun y hy => h y (List.mem_cons_of_mem _ hy)
    simp only [List.length_cons, List.flatten_cons, List.cons_append, List.length_append]
    omega

theorem Starts.exists_fuel {x : Bytes} (h : Starts x) {fuel : ℕ} (hfuel : x.length ≤ fuel) :
    ∃ less, fuel = less + 1 := by
  obtain ⟨b, t, rfl, -⟩ := h
  rw [List.length_cons] at hfuel
  exact ⟨fuel - 1, by omega⟩

/-- Every item of a sequence is skipped with the fuel that covers them all. -/
theorem skipItems_of_fuel {items : List Bytes} (hitems : ∀ x ∈ items, WellFormed x)
    (hskip : ∀ x ∈ items, ∀ rest fuel, x.length ≤ fuel + 1 →
      skipItem (fuel + 1) (x ++ rest) = some rest) {fuel : ℕ}
    (hfuel : items.flatten.length ≤ fuel) :
    ∀ x ∈ items, ∀ rest, skipItem fuel (x ++ rest) = some rest := by
  intro x hmem rest
  have hless := Nat.le_trans (length_le_flatten hmem) hfuel
  obtain ⟨fuel, rfl⟩ := (hitems x hmem).starts.exists_fuel hless
  exact hskip x hmem rest fuel hless

theorem skipToBreak_items {items : List Bytes} (hitems : ∀ x ∈ items, WellFormed x)
    (hskip : ∀ x ∈ items, ∀ rest fuel, x.length ≤ fuel + 1 →
      skipItem (fuel + 1) (x ++ rest) = some rest) {fuel : ℕ}
    (hfuel : items.flatten.length < fuel) (rest : Bytes) :
    skipToBreak (skipItem fuel) fuel (items.flatten ++ breakByte :: rest) =
      some (items.length, rest) := by
  have hpast := skipItems_of_fuel hitems hskip (Nat.le_of_lt hfuel)
  have hcount := length_le_length_flatten fun item hmem => (hitems item hmem).starts
  exact skipToBreak_flatten (fun item hmem => ⟨(hitems item hmem).starts, hpast item hmem⟩)
    (Nat.lt_of_le_of_lt hcount hfuel) rest

/-- What follows a head has a unit of fuel less to do with. -/
theorem IsHead.length_body_le {major n fuel : ℕ} {h body : Bytes} (hh : IsHead major n h)
    (hfuel : (h ++ body).length ≤ fuel + 1) : body.length ≤ fuel := by
  obtain ⟨b, t, rfl, -⟩ := hh.first
  simp only [List.length_append, List.length_cons] at hfuel
  omega

/-- With the length of the item as fuel the reader gets past it. -/
theorem WellFormed.skipItem_append {x : Bytes} (h : WellFormed x) {fuel : ℕ}
    (hfuel : x.length ≤ fuel) (rest : Bytes) : skipItem fuel (x ++ rest) = some rest := by
  obtain ⟨fuel, rfl⟩ := h.starts.exists_fuel hfuel
  induction h generalizing fuel rest with
  | @integer major n h hmajor hhead =>
    rw [skipItem_head hhead (by omega)]
    rcases hmajor with rfl | rfl <;> rfl
  | @string major s hmajor hstring =>
    obtain ⟨h, content, rfl, hhead⟩ := hstring
    have hread := readBytes_append content rest
    rw [List.append_assoc, skipItem_head hhead (by omega)]
    rcases hmajor with rfl | rfl <;> simp [skipBody, hread]
  | @chunks major chunks hmajor hchunks =>
    have hstarts : ∀ chunk ∈ chunks, Starts chunk := fun chunk hmem => (hchunks chunk hmem).starts
    have hcount := length_le_length_flatten hstarts
    simp only [List.length_cons, List.length_append, List.cons_append, List.append_assoc] at hfuel ⊢
    have hskip : ∀ chunk ∈ chunks, Starts chunk ∧
        ∀ rest, skipString major (chunk ++ rest) = some rest :=
      fun chunk hmem => ⟨hstarts chunk hmem, (hchunks chunk hmem).skipString_append⟩
    have hread := skipToBreak_flatten hskip (show chunks.length < fuel by omega) rest
    rw [skipItem_open (by omega)]
    rcases hmajor with rfl | rfl <;> simp [skipOpen, hread]
  | @array h items hhead hitems ih =>
    have hskip := skipItems_of_fuel hitems ih (hhead.length_body_le hfuel)
    rw [List.append_assoc, skipItem_head hhead (by omega)]
    exact skipMany_flatten hskip rest
  | @openArray items hitems ih =>
    simp only [List.length_cons, List.length_append, List.cons_append, List.append_assoc,
      List.length_nil] at hfuel ⊢
    have hread := skipToBreak_items hitems ih (show items.flatten.length < fuel by omega) rest
    rw [skipItem_open (by omega)]
    simp [skipOpen, hread]
  | @map n h items hhead hpairs hitems ih =>
    have hskip := skipItems_of_fuel hitems ih (hhead.length_body_le hfuel)
    rw [List.append_assoc, skipItem_head hhead (by omega)]
    have hread := skipMany_flatten hskip rest
    rw [hpairs] at hread
    exact hread
  | @openMap items hpairs hitems ih =>
    simp only [List.length_cons, List.length_append, List.cons_append, List.append_assoc,
      List.length_nil] at hfuel ⊢
    have hread := skipToBreak_items hitems ih (show items.flatten.length < fuel by omega) rest
    rw [skipItem_open (by omega)]
    simp [skipOpen, hread, hpairs]
  | @tag n h item hhead hitem ih =>
    have hless := hhead.length_body_le hfuel
    obtain ⟨fuel, rfl⟩ := hitem.starts.exists_fuel hless
    rw [List.append_assoc, skipItem_head hhead (by omega)]
    exact ih rest fuel hless
  | @simple h hsimple =>
    have hskip := hsimple.skipSimple_append rest
    obtain ⟨b, t, rfl, hmajor, hinfo⟩ := hsimple.first
    rw [List.cons_append] at hskip ⊢
    rw [skipItem, if_neg hinfo, if_pos hmajor, hskip]

/-- A byte string is one item exactly when skipping one item leaves nothing. -/
theorem wellFormed_iff (bytes : Bytes) :
    WellFormed bytes ↔ skipItem bytes.length bytes = some [] := by
  constructor
  · intro h
    have hskip := h.skipItem_append (Nat.le_refl _) []
    rwa [List.append_nil] at hskip
  · intro h
    obtain ⟨x, hsplit, hx⟩ := skipItem_eq_some h
    rw [List.append_nil] at hsplit
    rwa [hsplit]

instance : DecidablePred WellFormed := fun bytes => decidable_of_iff' _ (wellFormed_iff bytes)

/-- No item is a proper prefix of another. -/
theorem WellFormed.eq_of_append {x y a b : Bytes} (hx : WellFormed x) (hy : WellFormed y)
    (h : x ++ a = y ++ b) : x = y := by
  have hskipx := hx.skipItem_append (Nat.le_max_left x.length y.length) a
  have hskipy := hy.skipItem_append (Nat.le_max_right x.length y.length) b
  rw [h, hskipy] at hskipx
  rw [Option.some.inj hskipx] at h
  exact List.append_cancel_right h

/-! The encoder writes items. -/

theorem isHead_head {major n : ℕ} (hmajor : major < 8) (hn : n < 2 ^ 64) :
    IsHead major n (head major n) := by
  have hread := readHead_head major n hmajor hn []
  rwa [List.append_nil] at hread

/-- The entries of a map are its keys and values in turn. -/
theorem encodeEntries_eq_flatten (entries : List (Value × Value)) :
    encodeEntries entries = (entries.flatMap fun kv => [encode kv.1, encode kv.2]).flatten := by
  rw [encodeEntries_eq_flatMap]
  induction entries with
  | nil => rfl
  | cons kv entries ih => simp [ih]

theorem wellFormed_encode (depth : ℕ) (v : Value) (hv : Serializable depth v) :
    WellFormed (encode v) := by
  induction depth generalizing v with
  | zero => exact hv.elim
  | succ depth ih =>
    cases v with
    | integer i =>
      obtain ⟨hlow, hhigh⟩ := hv
      rw [encode]
      split_ifs
      · exact .integer (Or.inl rfl) (isHead_head (by omega) (by omega))
      · exact .integer (Or.inr rfl) (isHead_head (by omega) (by omega))
    | bytes b =>
      rw [encode]
      exact .string (Or.inl rfl) ⟨_, b, rfl, isHead_head (by omega) hv⟩
    | text s =>
      rw [encode]
      exact .string (Or.inr rfl) ⟨_, utf8 s, rfl, isHead_head (by omega) hv⟩
    | array items =>
      obtain ⟨hlength, hitems⟩ := hv
      have hhead : IsHead 4 items.length (head 4 items.length) := isHead_head (by omega) hlength
      rw [encode, encodeItems_eq_flatMap, List.flatMap_def]
      rw [← List.length_map encode] at hhead
      refine .array (by simpa using hhead) ?_
      intro item hmem
      obtain ⟨v, hv, rfl⟩ := List.mem_map.mp hmem
      exact ih v (hitems v hv)
    | map entries =>
      obtain ⟨hlength, hentries⟩ := hv
      have hpairs : (entries.flatMap fun kv => [encode kv.1, encode kv.2]).length =
          2 * entries.length := by
        simp [List.length_flatMap, Nat.mul_comm]
      rw [encode, encodeEntries_eq_flatten]
      refine .map (isHead_head (by omega) hlength) hpairs ?_
      intro item hmem
      obtain ⟨kv, hkv, hitem⟩ := List.mem_flatMap.mp hmem
      rcases List.mem_cons.mp hitem with rfl | hitem
      · exact ih kv.1 (hentries kv hkv).1
      · rw [List.mem_singleton.mp hitem]
        exact ih kv.2 (hentries kv hkv).2

end Weverywhere.CborItems
