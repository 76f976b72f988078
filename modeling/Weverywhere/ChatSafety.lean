import Weverywhere.ChatWalk

/-!
What a payload can make `poll_messages` do (`src/example-programs/chat.c`). The
walk over the records is safe; the decoder of a payload is not confined to it. It
stays inside exactly when each head it looks at lies inside and the length it
takes for the text does not wrap around.
-/
namespace Weverywhere.ChatSafety

open ByteStrings Cbor MessageLog MessagesRead Chat ChatWalk

/-! The decoder looks at nothing but the head itself. -/

theorem chead_length_pos (mem : Memory) (p : ℤ) : 1 ≤ (chead mem p).length := by
  unfold chead
  dsimp only
  split_ifs <;> simp

theorem chead_length_congr {mem mem' : Memory} {p q : ℤ} (hfirst : mem p = mem' q) :
    (chead mem p).length = (chead mem' q).length := by
  unfold chead
  dsimp only
  rw [hfirst]
  split_ifs <;> rfl

theorem chead_congr {mem mem' : Memory} {p q : ℤ}
    (h : bytesFrom mem p (chead mem p).length = bytesFrom mem' q (chead mem p).length) :
    chead mem p = chead mem' q := by
  have hat : ∀ i : ℕ, i < (chead mem p).length → mem (p + i) = mem' (q + i) := by
    intro i hi
    have hget := congrArg (fun bytes => bytes[i]?) h
    simpa [bytesFrom, hi] using hget
  have hpositive := chead_length_pos mem p
  have hfirst : mem p = mem' q := by
    have hzero := hat 0 (by omega)
    simpa using hzero
  unfold chead at hat ⊢
  dsimp only at hat ⊢
  rw [← hfirst]
  split_ifs at hat ⊢
  · rfl
  · have hone : mem (p + 1) = mem' (q + 1) := hat 1 (show 1 < 2 by omega)
    rw [hone]
  · have hone : mem (p + 1) = mem' (q + 1) := hat 1 (show 1 < 3 by omega)
    have htwo : mem (p + 2) = mem' (q + 2) := hat 2 (show 2 < 3 by omega)
    rw [hone, htwo]
  · have hone : mem (p + 1) = mem' (q + 1) := hat 1 (show 1 < 5 by omega)
    have htwo : mem (p + 2) = mem' (q + 2) := hat 2 (show 2 < 5 by omega)
    have hthree : mem (p + 3) = mem' (q + 3) := hat 3 (show 3 < 5 by omega)
    have hfour : mem (p + 4) = mem' (q + 4) := hat 4 (show 4 < 5 by omega)
    rw [hone, htwo, hthree, hfour]
  · have hbytes : bytesFrom mem (p + 1) 8 = bytesFrom mem' (q + 1) 8 := by
      apply List.map_congr_left
      intro i hi
      have hsmall := List.mem_range.mp hi
      have hnext := hat (i + 1) (show i + 1 < 9 by omega)
      push_cast at hnext
      rw [add_assoc, add_assoc, add_comm 1 (i : ℤ)]
      exact hnext
    rw [hbytes]

/-! A payload on its own. -/

/-- The payload as the only thing in memory. -/
def ofBytes (t : Bytes) : Memory := fun i => if 0 ≤ i then t.getD i.toNat 0 else 0

/-- A head that starts at `o` lies within the payload. -/
def HeadInside (t : Bytes) (o : ℤ) : Prop := 0 ≤ o ∧ o + (chead (ofBytes t) o).length ≤ t.length

/-- The heads that the decoder looks at lie within the payload, and the sum that it
compares with the payload's length does not wrap where the element is a string. -/
def DecodesInside (t : Bytes) : Prop :=
  t ≠ [] → HeadInside t 0 ∧
    let outer := chead (ofBytes t) 0
    (outer.major = 4 ∧ 1 ≤ outer.val ∧ (outer.length : ℤ) < t.length →
      HeadInside t outer.length ∧
      let inner := chead (ofBytes t) outer.length
      (2 ≤ outer.val ∧ elementEnd outer inner < t.length →
        HeadInside t (elementEnd outer inner)) ∧
      ((inner.major = 3 ∨ inner.major = 2) ∧ elementEnd outer inner ≤ t.length →
        outer.length + inner.length + cInt inner.val.toNat ≤ t.length))

instance (t : Bytes) (o : ℤ) : Decidable (HeadInside t o) :=
  inferInstanceAs (Decidable (_ ∧ _))

instance : DecidablePred DecodesInside := fun t =>
  inferInstanceAs (Decidable (t ≠ [] → HeadInside t 0 ∧ (_ → HeadInside t _ ∧ (_ → _) ∧ (_ → _))))

theorem ofBytes_eq {mem : Memory} {p : ℤ} {t : Bytes} (hheld : Holds mem p t) {i : ℕ}
    (hi : i < t.length) : mem (p + i) = ofBytes t i := by
  have hget := congrArg (fun bytes => bytes[i]?) hheld
  simp only [bytesFrom, List.getElem?_map, List.getElem?_range hi, Option.map_some] at hget
  rw [ofBytes, if_pos (Int.natCast_nonneg i), Int.toNat_natCast, List.getD_eq_getElem?_getD,
    ← hget, Option.getD_some]

theorem bytesFrom_ofBytes {mem : Memory} {p : ℤ} {t : Bytes} (hheld : Holds mem p t) {o k : ℕ}
    (hk : o + k ≤ t.length) : bytesFrom mem (p + o) k = bytesFrom (ofBytes t) o k := by
  apply List.map_congr_left
  intro i hi
  have hsmall := List.mem_range.mp hi
  have heq := ofBytes_eq hheld (show o + i < t.length by omega)
  push_cast at heq
  rw [add_assoc]
  exact heq

/-- Wherever the payload lies, a head inside it reads as it does on its own. -/
theorem HeadInside.chead_eq {mem : Memory} {p : ℤ} {t : Bytes} (hheld : Holds mem p t) {o : ℤ}
    (h : HeadInside t o) : chead mem (p + o) = chead (ofBytes t) o := by
  obtain ⟨hlow, hhigh⟩ := h
  obtain ⟨k, rfl⟩ := Int.eq_ofNat_of_zero_le hlow
  exact (chead_congr (bytesFrom_ofBytes hheld (by omega)).symm).symm

/-- The reads of a head keep to the payload when the head does. -/
theorem within_iff_headInside {mem : Memory} {p : ℤ} {t : Bytes} (hheld : Holds mem p t) (o : ℤ) :
    Within p (p + t.length) ⟨p + o, (chead mem (p + o)).length⟩ ↔ HeadInside t o := by
  have hpositive := chead_length_pos mem (p + o)
  have hpositive' := chead_length_pos (ofBytes t) o
  have hsame : 0 ≤ o → o < t.length →
      (chead mem (p + o)).length = (chead (ofBytes t) o).length := by
    intro hlow hhigh
    obtain ⟨k, rfl⟩ := Int.eq_ofNat_of_zero_le hlow
    exact chead_length_congr (ofBytes_eq hheld (by omega))
  constructor
  · intro h
    rcases h with hnone | ⟨hstart, hend⟩
    · dsimp only at hnone
      omega
    · dsimp only at hstart hend
      have hlength := hsame (by omega) (by omega)
      exact ⟨by omega, by omega⟩
  · rintro ⟨hlow, hhigh⟩
    have hlength := hsame hlow (by omega)
    refine .inr ⟨?_, ?_⟩ <;> dsimp only <;> omega

/-! A payload in the reply. -/

/-- The range to display lies between `low` and `high`; a length below one displays
nothing. -/
def RangeInside (low high : ℤ) (shown : Shown) : Prop :=
  shown.dispL ≤ 0 ∨ low ≤ shown.dispP ∧ shown.dispP + shown.dispL ≤ high

theorem displayed_inside_iff {p textL : ℤ} {outer inner : Head} (hlow : 0 ≤ p)
    (hhigh : p + textL < 2 ^ 31) (hheads : (outer.length : ℤ) + inner.length ≤ textL)
    (kind : ℤ) (reads : List Read) :
    RangeInside p (p + textL) ⟨(displayed p textL outer inner).1,
        (displayed p textL outer inner).2, kind, reads⟩ ↔
      ((inner.major = 3 ∨ inner.major = 2) ∧ elementEnd outer inner ≤ textL →
        outer.length + inner.length + cInt inner.val.toNat ≤ textL) := by
  unfold RangeInside displayed
  split_ifs with hstring
  · have hplace : cInt (p + outer.length + inner.length) = p + outer.length + inner.length :=
      cInt_of_fits (by omega) (by omega)
    dsimp only
    rw [hplace]
    constructor
    · intro h _
      omega
    · intro h
      have hfits := h hstring
      omega
  · constructor
    · intro _ h
      exact absurd h hstring
    · intro _
      dsimp only
      omega

/-- The decoder keeps to a payload anywhere in the reply exactly when the payload
lets it. -/
theorem decodePayload_inside_iff {mem : Memory} {p : ℤ} {t : Bytes} (hlow : 0 ≤ p)
    (hhigh : p + t.length < 2 ^ 31) (hheld : Holds mem p t) :
    ((∀ r ∈ (decodePayload mem p t.length).reads, Within p (p + t.length) r) ∧
      RangeInside p (p + t.length) (decodePayload mem p t.length)) ↔ DecodesInside t := by
  have hwithin := within_iff_headInside hheld
  have hzero := hwithin 0
  rw [add_zero] at hzero
  by_cases hempty : t = []
  · subst hempty
    simp [decodePayload, RangeInside, DecodesInside]
  have hlength : 1 ≤ t.length := List.length_pos_of_ne_nil hempty
  have hopen : 0 ≤ p ∧ 1 ≤ (t.length : ℤ) := ⟨hlow, by omega⟩
  unfold decodePayload DecodesInside
  rw [if_pos hopen, forall_prop_of_true hempty]
  dsimp only
  by_cases houter : HeadInside t 0
  · have hchead : chead mem p = chead (ofBytes t) 0 := by
      have heq := houter.chead_eq hheld
      rwa [add_zero] at heq
    have hfirst := hzero.mpr houter
    rw [hchead] at hfirst ⊢
    by_cases hcond : (chead (ofBytes t) 0).major = 4 ∧ 1 ≤ (chead (ofBytes t) 0).val ∧
        ((chead (ofBytes t) 0).length : ℤ) < t.length
    · rw [if_pos hcond, forall_prop_of_true hcond]
      generalize chead (ofBytes t) 0 = outer at *
      have hsecond := hwithin outer.length
      by_cases hinner : HeadInside t outer.length
      · have hchead₂ := hinner.chead_eq hheld
        have hplace := hsecond.mpr hinner
        rw [hchead₂] at hplace ⊢
        have hheads := hinner.2
        generalize chead (ofBytes t) outer.length = inner at *
        by_cases hkind : 2 ≤ outer.val ∧ elementEnd outer inner < t.length
        · rw [if_pos hkind, forall_prop_of_true hkind,
            displayed_inside_iff hlow (by omega) hheads]
          simp only [List.forall_mem_cons, List.not_mem_nil, false_implies, implies_true, and_true,
            hfirst, hplace, true_and, hwithin, houter, hinner]
        · rw [if_neg hkind, displayed_inside_iff hlow (by omega) hheads]
          simp only [List.forall_mem_cons, List.not_mem_nil, false_implies, implies_true, and_true,
            hfirst, hplace, true_and, houter, hinner, hkind]
      · -- the head of the first element is cut off
        constructor
        · rintro ⟨hreads, -⟩
          have hread := hreads ⟨p + outer.length, (chead mem (p + outer.length)).length⟩
            (by split_ifs <;> simp)
          exact absurd (hsecond.mp hread) hinner
        · rintro ⟨-, h, -⟩
          exact absurd h hinner
    · rw [if_neg hcond]
      have hraw : RangeInside p (p + t.length) ⟨p, t.length, Kind.chat.toNat,
          [⟨p, (chead (ofBytes t) 0).length⟩]⟩ := .inr ⟨le_refl p, le_refl _⟩
      simp only [List.mem_singleton, forall_eq, hfirst, hraw, houter, hcond, false_implies,
        and_self]
  · -- the first head is cut off
    constructor
    · rintro ⟨hreads, -⟩
      have hread := hreads ⟨p, (chead mem p).length⟩ (by split_ifs <;> simp)
      exact absurd (hzero.mp hread) houter
    · rintro ⟨h, -⟩
      exact absurd h houter

/-! A line for a record. -/

/-- The line is within `comp`, and was made from the first `n` bytes of `rbuf`. -/
structure Sound (n : ℕ) (l : Line) : Prop where
  fits : l.comp.length ≤ LINEW
  reads : ∀ r ∈ l.reads, Within 0 n r

variable {n : ℕ} {l : Line}

theorem sound_empty (n : ℕ) : Sound n .empty := ⟨Nat.zero_le _, by simp [Line.empty]⟩

theorem Sound.putBelow (h : Sound n l) {limit : ℕ} (hlimit : limit ≤ LINEW) (b : UInt8) :
    Sound n (l.putBelow limit b) := by
  unfold Line.putBelow
  split_ifs with hroom
  · refine ⟨?_, h.reads⟩
    rw [Line.put, List.length_append, List.length_singleton]
    omega
  · exact h

theorem Sound.copy (h : Sound n l) {limit : ℕ} (hlimit : limit ≤ LINEW) (mem : Memory)
    {src len : ℤ} (hrange : len ≤ 0 ∨ 0 ≤ src ∧ src + len ≤ n) :
    Sound n (l.copy mem limit src len) := by
  have hfits := h.fits
  constructor
  · rw [Line.copy, List.length_append, bytesFrom_length]
    omega
  · intro r hr
    rcases List.mem_append.mp hr with hr | hr
    · exact h.reads r hr
    · rw [List.mem_singleton.mp hr, Within]
      dsimp only
      omega

theorem Sound.putHex (h : Sound n l) (mem : Memory) {pkP : ℤ} {k : ℕ} (hlow : 0 ≤ pkP)
    (hhigh : pkP + k + 1 ≤ n) : Sound n (putHex mem pkP l k) := by
  unfold Chat.putHex
  split_ifs
  · have hread : Sound n ⟨l.comp, l.reads ++ [⟨pkP + k, 1⟩]⟩ := by
      refine ⟨h.fits, ?_⟩
      intro r hr
      rcases List.mem_append.mp hr with hr | hr
      · exact h.reads r hr
      · rw [List.mem_singleton.mp hr, Within]
        dsimp only
        omega
    exact (hread.putBelow (Nat.sub_le _ _) _).putBelow (Nat.sub_le _ _) _
  · exact h

theorem Sound.putText (h : Sound n l) (s : Bytes) : Sound n (putText l s) := by
  unfold Chat.putText
  induction s generalizing l with
  | nil => exact h
  | cons b s ih => exact ih (h.putBelow (le_refl _) b)

/-- The name and the key of a record lie in the reply. -/
structure FieldsInside (n : ℕ) (r : Record) : Prop where
  name : 0 ≤ r.nameP ∧ r.nameP + r.nameL ≤ n
  pk : 0 ≤ r.pkP ∧ r.pkP + r.pkL ≤ n

theorem Sound.putIdent (h : Sound n l) (mem : Memory) {r : Record} (hr : FieldsInside n r) :
    Sound n (putIdent mem r l) := by
  have hname := h.copy (Nat.sub_le LINEW 2) mem (.inr hr.name)
  unfold Chat.putIdent
  dsimp only
  split_ifs
  · apply Sound.putBelow _ (Nat.sub_le _ _)
    have hopen := (hname.putBelow (Nat.sub_le LINEW 2) 32).putBelow (Nat.sub_le LINEW 2) 40
    -- four bytes at most, and no more than the key has
    have hloop : ∀ ks : List ℕ, (∀ k ∈ ks, k < min 4 r.pkL.toNat) → ∀ l, Sound n l →
        Sound n (ks.foldl (Chat.putHex mem r.pkP) l) := by
      intro ks
      induction ks with
      | nil => exact fun _ l hl => hl
      | cons k ks ih =>
        intro hks l hl
        have hk := hks k (by simp)
        have hpk := hr.pk
        exact ih (fun j hj => hks j (List.mem_cons_of_mem k hj)) _
          (hl.putHex mem hpk.1 (by omega))
    exact hloop _ (fun k hk => List.mem_range.mp hk) _ hopen
  · exact hname

/-- A line is made from the reply when the range it displays lies there. -/
theorem sound_composeLine (mem : Memory) {r : Record} (hr : FieldsInside n r) {shown : Shown}
    (hrange : RangeInside 0 n shown) : Sound n (composeLine mem r shown) := by
  unfold composeLine
  dsimp only
  split_ifs with hnotice
  · apply Sound.putText
    apply Sound.putIdent _ mem hr
    exact (sound_empty n).putText _
  · apply Sound.putText
    apply Sound.putIdent _ mem hr
    exact (sound_empty n).putText _
  all_goals apply Sound.copy _ (le_refl _) mem hrange
  · have hident := (sound_empty n).putIdent mem hr
    refine ⟨?_, hident.reads⟩
    simp only [Line.put, List.length_append, List.length_singleton]
    omega
  · exact (sound_empty n).putIdent mem hr

/-! A turn, and a poll. -/

/-- The decoder kept to the payload of the record. -/
def PayloadInside (t : Turn) : Prop :=
  (∀ r ∈ t.shown.reads, Within t.record.textP (t.record.textP + t.record.textL) r) ∧
    RangeInside t.record.textP (t.record.textP + t.record.textL) t.shown

section Turn

variable {mem : Memory} {p : ℤ} {m : StoredMessage} {t : Turn}

theorem payloadInside_iff (h : TurnAt mem n p m t) (hn : n < 2 ^ 31) :
    PayloadInside t ↔ DecodesInside m.text := by
  have hlow := h.low
  have hhigh := h.high
  rw [PayloadInside, h.record, h.shown]
  exact decodePayload_inside_iff (by omega) (by omega) h.text

theorem fieldsInside_of_turnAt (h : TurnAt mem n p m t) : FieldsInside n t.record := by
  have hlow := h.low
  have hhigh := h.high
  have hpk : pkOff m = nameOff m + (utf8 m.fromName).length +
      (1 + headLength m.fromPubkey.length) := rfl
  have htext : textOff m = pkOff m + m.fromPubkey.length + (1 + headLength m.epochS.toNat) +
      (1 + headLength m.text.length) := rfl
  rw [h.record]
  constructor
  · show 0 ≤ p + nameOff m ∧ p + nameOff m + (utf8 m.fromName).length ≤ n
    omega
  · show 0 ≤ p + pkOff m ∧ p + pkOff m + m.fromPubkey.length ≤ n
    omega

/-- A turn that keeps to its payload keeps to the reply and to the line. -/
theorem sound_of_turnAt (h : TurnAt mem n p m t) (hinside : PayloadInside t) :
    (∀ r ∈ t.shown.reads, Within 0 n r) ∧ Sound n t.line := by
  have hlow := h.low
  have hhigh := h.high
  obtain ⟨hreads, hrange⟩ := hinside
  have htextP : t.record.textP = p + textOff m := by rw [h.record]; rfl
  have htextL : t.record.textL = m.text.length := by rw [h.record]; rfl
  rw [htextP, htextL] at hreads hrange
  constructor
  · intro r hr
    exact (hreads r hr).mono (by omega) (by omega)
  · rw [h.line]
    apply sound_composeLine mem (fieldsInside_of_turnAt h)
    unfold RangeInside at hrange ⊢
    omega

end Turn

theorem exists_of_forall₂ {α β : Type} {R : α → β → Prop} {as : List α} {bs : List β}
    (h : List.Forall₂ R as bs) {a : α} (ha : a ∈ as) : ∃ b ∈ bs, R a b := by
  induction h with
  | nil => cases ha
  | cons hab hrest ih =>
    rcases List.mem_cons.mp ha with rfl | ha
    · exact ⟨_, List.mem_cons_self, hab⟩
    · obtain ⟨b, hb, hrel⟩ := ih ha
      exact ⟨b, List.mem_cons_of_mem _ hb, hrel⟩

section Polled

variable {mem : Memory} {s s' : Poll} {msgs : List StoredMessage} {turns : List Turn}

theorem polled_exists_turn (h : Polled mem n s msgs turns s') {m : StoredMessage}
    (hm : m ∈ msgs) : ∃ t ∈ turns, ∃ p, TurnAt mem n p m t :=
  exists_of_forall₂ h.forall₂ hm

theorem polled_exists_message (h : Polled mem n s msgs turns s') {t : Turn} (ht : t ∈ turns) :
    ∃ m ∈ msgs, ∃ p, TurnAt mem n p m t := by
  have hflipped : List.Forall₂ (fun t m => ∃ p, TurnAt mem n p m t) turns msgs :=
    List.Forall₂.flip h.forall₂
  exact exists_of_forall₂ hflipped ht

theorem polled_transcript_eq (h : Polled mem n s msgs turns s') :
    s'.transcript = turns.foldl (fun tr t => tr.appendLine t.line.comp) s.transcript := by
  induction h with
  | nil s => rfl
  | cons hturn hrest ih => rw [ih, hturn.transcript, List.foldl_cons]

/-- Until the count of lines reaches its end, it counts, and every line goes to a row
of `lines`. -/
theorem polled_lineCount_eq (h : Polled mem n s msgs turns s')
    (hlow : 0 ≤ s.transcript.lineCount.toInt)
    (hhigh : s.transcript.lineCount.toInt + msgs.length < 2 ^ 31) :
    s'.transcript.lineCount.toInt = s.transcript.lineCount.toInt + msgs.length ∧
      ∀ t ∈ turns, 0 ≤ t.slot ∧ t.slot < MAXLINES := by
  induction h with
  | nil s => simp
  | @cons s s₁ s₂ m msgs t turns hturn hrest ih =>
    rw [List.length_cons] at hhigh
    have hnext : s₁.transcript.lineCount.toInt = s.transcript.lineCount.toInt + 1 := by
      rw [hturn.transcript, Transcript.appendLine, Int32.toInt_add]
      exact Int.bmod_eq_of_le (by show _ ≤ _ + (1 : ℤ); omega) (by show _ + (1 : ℤ) < _; omega)
    obtain ⟨hcount, hslots⟩ := ih (by omega) (by omega)
    constructor
    · rw [hcount, hnext, List.length_cons]
      omega
    · intro t' ht'
      rcases List.mem_cons.mp ht' with rfl | ht'
      · rw [hturn.slot, Transcript.slot]
        exact ⟨Int.tmod_nonneg _ hlow, Int.tmod_lt_of_pos _ (by decide)⟩
      · exact hslots t' ht'

/-- `*after` grows with the numbers met. -/
theorem polled_after_eq (h : Polled mem n s msgs turns s') (hseq : ∀ m ∈ msgs, m.seq < 2 ^ 63) :
    s.after.toInt ≤ s'.after.toInt ∧ (∀ m ∈ msgs, (m.seq : ℤ) ≤ s'.after.toInt) ∧
      (s'.after = s.after ∨ ∃ m ∈ msgs, s'.after.toInt = m.seq) := by
  induction h with
  | nil s => simp
  | @cons s s₁ s₂ m msgs t turns hturn hrest ih =>
    have hsmall := hseq m (by simp)
    have hvalue : (UInt64.ofNat m.seq).toInt64.toInt = m.seq := Int64.toInt_ofNat_of_lt hsmall
    obtain ⟨hgrows, hall, hlast⟩ := ih fun m' hm' => hseq m' (List.mem_cons_of_mem m hm')
    have hstep := hturn.after
    by_cases hnew : s.after < (UInt64.ofNat m.seq).toInt64
    · rw [if_pos hnew] at hstep
      rw [Int64.lt_iff_toInt_lt, hvalue] at hnew
      rw [hstep, hvalue] at hgrows
      refine ⟨by omega, ?_, .inr ?_⟩
      · intro m' hm'
        rcases List.mem_cons.mp hm' with rfl | hm'
        · exact hgrows
        · exact hall m' hm'
      · rcases hlast with hlast | ⟨m', hm', hlast⟩
        · exact ⟨m, List.mem_cons_self, by rw [hlast, hstep, hvalue]⟩
        · exact ⟨m', List.mem_cons_of_mem m hm', hlast⟩
    · rw [if_neg hnew] at hstep
      rw [Int64.lt_iff_toInt_lt, hvalue] at hnew
      rw [hstep] at hgrows hlast
      refine ⟨hgrows, ?_, ?_⟩
      · intro m' hm'
        rcases List.mem_cons.mp hm' with rfl | hm'
        · omega
        · exact hall m' hm'
      · rcases hlast with hlast | ⟨m', hm', hlast⟩
        · exact .inl hlast
        · exact .inr ⟨m', List.mem_cons_of_mem m hm', hlast⟩

theorem polled_reads_inside (h : Polled mem n s msgs turns s')
    (hstart : ∀ r ∈ s.walk.reads, Within 0 n r)
    (hturns : ∀ t ∈ turns, (∀ r ∈ t.shown.reads, Within 0 n r) ∧ Sound n t.line) :
    ∀ r ∈ s'.walk.reads, Within 0 n r := by
  induction h with
  | nil s => exact hstart
  | cons hturn hrest ih =>
    apply ih
    · intro r hr
      obtain ⟨hshown, hline⟩ := hturns _ List.mem_cons_self
      rcases hturn.reads r hr with hr | hr | hr | hr
      · exact hstart r hr
      · exact hr
      · exact hshown r hr
      · exact hline.reads r hr
    · intro t ht
      exact hturns t (List.mem_cons_of_mem _ ht)

end Polled

/-! A poll of the message store. -/

/-- What a poll owes to its arrays and to the messages in the `n` bytes of its
reply. -/
structure PollSafe (n : ℕ) (msgs : List StoredMessage) (after : Int64) (transcript : Transcript)
    (s : Poll) : Prop where
  reads : ∀ r ∈ s.walk.reads, Within 0 n r
  payloads : ∀ t ∈ s.turns, PayloadInside t
  comp : ∀ t ∈ s.turns, t.line.comp.length ≤ LINEW
  lines : ∀ t ∈ s.turns, 0 ≤ t.slot ∧ t.slot < MAXLINES
  turns : s.turns.length = msgs.length
  appended : s.transcript = s.turns.foldl (fun tr t => tr.appendLine t.line.comp) transcript
  lineCount : s.transcript.lineCount.toInt = transcript.lineCount.toInt + msgs.length
  unchanged : msgs = [] → s.after = after
  largest : msgs ≠ [] → (∃ m ∈ msgs, s.after.toInt = m.seq) ∧ ∀ m ∈ msgs, m.seq ≤ s.after.toInt

theorem pollSafe_iff {mem : Memory} {n : ℕ} (hn : n < 2 ^ 31) {after : Int64}
    {transcript : Transcript} (hcount : 0 ≤ transcript.lineCount.toInt)
    {msgs : List StoredMessage} (hseq : ∀ m ∈ msgs, m.seq < 2 ^ 63)
    (hnew : ∀ m ∈ msgs, after.toInt < m.seq)
    (hheld : Holds mem 0 (encode (.array (msgs.map toValue))))
    (hlength : (encode (.array (msgs.map toValue))).length = n) :
    PollSafe n msgs after transcript (pollMessages mem n after transcript) ↔
      (∀ m ∈ msgs, DecodesInside m.text) ∧
        transcript.lineCount.toInt + msgs.length < 2 ^ 31 := by
  obtain ⟨w, turns, hwalk, hpolled⟩ := pollMessages_encode hn after transcript msgs
    (fun m hm => (hseq m hm).trans (by omega)) hheld hlength
  have hturns : (pollMessages mem n after transcript).turns = turns := hpolled.turns_eq
  have htranscript := polled_transcript_eq hpolled
  constructor
  · intro h
    constructor
    · intro m hm
      obtain ⟨t, ht, p, hat⟩ := polled_exists_turn hpolled hm
      exact (payloadInside_iff hat hn).mp (h.payloads t (by rwa [hturns]))
    · rw [← h.lineCount]
      exact Int32.toInt_lt _
  · rintro ⟨hinside, hroom⟩
    have hpayloads : ∀ t ∈ turns, PayloadInside t := by
      intro t ht
      obtain ⟨m, hm, p, hat⟩ := polled_exists_message hpolled ht
      exact (payloadInside_iff hat hn).mpr (hinside m hm)
    have hsound : ∀ t ∈ turns, (∀ r ∈ t.shown.reads, Within 0 n r) ∧ Sound n t.line := by
      intro t ht
      obtain ⟨m, hm, p, hat⟩ := polled_exists_message hpolled ht
      exact sound_of_turnAt hat (hpayloads t ht)
    obtain ⟨hlineCount, hslots⟩ := polled_lineCount_eq hpolled hcount hroom
    obtain ⟨-, hlargest, hlast⟩ := polled_after_eq hpolled hseq
    refine ⟨polled_reads_inside hpolled hwalk hsound, ?_, ?_, ?_, ?_, ?_, hlineCount, ?_, ?_⟩
    · rwa [hturns]
    · intro t ht
      rw [hturns] at ht
      exact (hsound t ht).2.fits
    · rwa [hturns]
    · rw [hturns]
      exact hpolled.forall₂.length_eq.symm
    · rw [hturns]
      exact htranscript
    · rintro rfl
      rcases hlast with hlast | ⟨m, hm, -⟩
      · exact hlast
      · cases hm
    · intro hsome
      refine ⟨?_, hlargest⟩
      rcases hlast with hlast | hlast
      · -- the first number is already larger than the mark was
        obtain ⟨m, hm⟩ := List.exists_mem_of_ne_nil msgs hsome
        have hgrown := hlargest m hm
        have hbefore := hnew m hm
        rw [hlast] at hgrown
        dsimp only at hgrown
        omega
      · exact hlast

/-- The reply of a store to the chat program, and the messages in it. -/
theorem messagesRead_eq {toVec : Value → Option Bytes} (htoVec : StandardEncoder toVec)
    {s : MessageStore} (hs : Readable s) (after : Int64) :
    ∃ msgs : List StoredMessage, messagesRead toVec s after 16384 =
        encode (.array (msgs.map toValue)) ∧
      (encode (.array (msgs.map toValue))).length ≤ 16384 ∧
      recordsOf (messagesRead toVec s after 16384) = some msgs ∧
      ∀ m ∈ msgs, m ∈ s.msgs ∧ after.toInt < m.seq := by
  have hcap : (16384 : Int32).toNatClampNeg = 16384 := by decide
  obtain ⟨n, -, hresult, hsmall, -⟩ := encodeLoop_spec toVec (s.readAfter after.toNatClampNeg)
    16384 (s.readAfter after.toNatClampNeg).length
  obtain ⟨hserializable, hfirst⟩ := hs.encodeFirst_eq htoVec after.toNatClampNeg n
  rw [hfirst] at hresult hsmall
  have hfits : (encode (.array (((s.readAfter after.toNatClampNeg).take n).map
      toValue))).length ≤ 16384 := by
    rcases hsmall with rfl | hsmall
    · rw [List.take_zero]
      decide
    · exact hsmall
  have hreply : messagesRead toVec s after 16384 =
      encode (.array (((s.readAfter after.toNatClampNeg).take n).map toValue)) := by
    rw [messagesRead, encodeMessagesCbor, hcap, hresult]
    exact writeGuestBytes_of_le hfits
  refine ⟨(s.readAfter after.toNatClampNeg).take n, hreply, hfits, ?_, ?_⟩
  · rw [hreply]
    exact recordsOf_encode _ hserializable
  · intro m hm
    exact (mem_readAfter_iff hs after m).mp (List.mem_of_mem_take hm)

/-- A poll of any store, from any mark, is safe exactly when no payload leads the
decoder out of it and the count of lines does not reach its end. -/
theorem poll_safe_iff {toVec : Value → Option Bytes} (htoVec : StandardEncoder toVec)
    (s : MessageStore) (hs : Readable s) (after : Int64) (transcript : Transcript)
    (hcount : 0 ≤ transcript.lineCount.toInt) (mem : Memory)
    (hheld : Holds mem 0 (messagesRead toVec s after 16384)) :
    ∃ msgs, recordsOf (messagesRead toVec s after 16384) = some msgs ∧
      (PollSafe (messagesRead toVec s after 16384).length msgs after transcript
          (pollMessages mem (messagesRead toVec s after 16384).length after transcript) ↔
        (∀ m ∈ msgs, DecodesInside m.text) ∧
          transcript.lineCount.toInt + msgs.length < 2 ^ 31) := by
  obtain ⟨msgs, hreply, hfits, hrecords, hmsgs⟩ := messagesRead_eq htoVec hs after
  refine ⟨msgs, hrecords, ?_⟩
  rw [hreply] at hheld ⊢
  apply pollSafe_iff (by omega) hcount _ _ hheld rfl
  · intro m hm
    exact hs.seq_lt m (hmsgs m hm).1
  · intro m hm
    exact (hmsgs m hm).2

/-! Two payloads. -/

/-- The chat line of the earlier run with another payload. -/
def pushWith (text : Bytes) : Push := { shortPush with text := text }

def storeWith (text : Bytes) : MessageStore := (MessageStore.new 4096).run [.push (pushWith text)]

/-- Its reply to the first poll. -/
def replyWith (text : Bytes) : Bytes :=
  messagesRead (fun v => some (encode v)) (storeWith text) 0 16384

def emptyTranscript : Transcript := ⟨fun _ => [], 0⟩

def firstPoll (text : Bytes) : Poll :=
  pollMessages (ofBytes (replyWith text)) (replyWith text).length 0 emptyTranscript

/-- A chat line. -/
def hiPayload : Bytes := [0x81, 0x62, 0x68, 0x69]

/-- A list of two integers, the first of them 2^31. -/
def farPayload : Bytes := [0x82, 0x1A, 0x80, 0x00, 0x00, 0x00, 0x01]

theorem holds_ofBytes (t : Bytes) : Holds (ofBytes t) 0 t := by
  apply List.ext_getElem (bytesFrom_length _ _ _)
  intro i hi hi'
  simp [bytesFrom, ofBytes, hi']

/-- The first poll finds the payload. -/
theorem replyWith_eq {text : Bytes} (htext : text = hiPayload ∨ text = farPayload) :
    replyWith text = encode (.array ([Push.stored (pushWith text, 1)].map toValue)) ∧
      recordsOf (replyWith text) = some [Push.stored (pushWith text, 1)] := by
  rcases htext with rfl | rfl <;> decide +kernel

theorem readable_storeWith {text : Bytes} (htext : text.length < 2 ^ 64) :
    Readable (storeWith text) := by
  apply readable_run 4096 [.push (pushWith text)] (show 1 < 2 ^ 63 by omega)
  intro p hp seq
  obtain ⟨hname, hpubkey, -⟩ := sizesHeld_longThenShort shortPush (by simp [longThenShort]) seq
  rw [Call.push.inj (List.mem_singleton.mp hp)]
  exact ⟨hname, hpubkey, htext⟩

/-- The poll of the chat line is safe. -/
theorem poll_safe_iff_line :
    ∃ msgs, recordsOf (replyWith hiPayload) = some msgs ∧
      PollSafe (replyWith hiPayload).length msgs 0 emptyTranscript (firstPoll hiPayload) := by
  obtain ⟨msgs, hrecords, hsafe⟩ := poll_safe_iff standardEncoder_encode (storeWith hiPayload)
    (readable_storeWith (by decide)) 0 emptyTranscript (by decide) (ofBytes (replyWith hiPayload))
    (holds_ofBytes _)
  refine ⟨msgs, hrecords, hsafe.mpr ?_⟩
  have hone := (replyWith_eq (.inl rfl)).2
  rw [replyWith, hrecords] at hone
  rw [Option.some.inj hone, List.forall_mem_singleton]
  exact ⟨by decide, by decide⟩

/-- The list of integers sends the decoder to an address 2^31 below. -/
theorem farPayload_leaves :
    ∃ msgs, recordsOf (replyWith farPayload) = some msgs ∧
      ¬ PollSafe (replyWith farPayload).length msgs 0 emptyTranscript (firstPoll farPayload) := by
  obtain ⟨hreply, hrecords⟩ := replyWith_eq (.inr rfl)
  refine ⟨_, hrecords, ?_⟩
  intro hsafe
  have hheld := holds_ofBytes (replyWith farPayload)
  have hnew : ∀ m ∈ [Push.stored (pushWith farPayload, 1)], (0 : Int64).toInt < m.seq := by decide
  have hlength := congrArg List.length hreply
  have hshort : (replyWith farPayload).length < 2 ^ 31 := by decide +kernel
  nth_rewrite 2 [hreply] at hheld
  have hiff := pollSafe_iff hshort (show 0 ≤ emptyTranscript.lineCount.toInt by decide)
    (by decide) hnew hheld hlength.symm
  obtain ⟨hinside, -⟩ := hiff.mp hsafe
  exact absurd (hinside _ List.mem_cons_self) (by decide)

end Weverywhere.ChatSafety
