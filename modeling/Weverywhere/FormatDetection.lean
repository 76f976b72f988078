import Weverywhere.OrderedChoice
import Weverywhere.Cbor
import Weverywhere.Bare
import Weverywhere.Numerals

/-!
Reading a message whose format is not known (`src/src/universal_serde.rs`). The bytes carry
no tag, so `deserialize` is an ordered choice between the formats and
`deserialize_expected` tries one of them before it. The three codecs are parameters.
-/
namespace Weverywhere.FormatDetection

open ByteStrings Cbor OrderedChoice

inductive Format
  | json
  | cbor
  | bare
  deriving DecidableEq

/-- `Box<dyn Error>`: a codec's error is known by its debug text only. -/
inductive DynError
  | codec (debug : String)
  | message (text : String)

abbrev DynResult := Except DynError

/-- What the three codecs do with the values of a type. The CBOR reader may stop before
the end of its input; what is left is the second part of its result. -/
structure Serde (T : Type) where
  jsonToString : T → DynResult String
  jsonFromStr : String → DynResult T
  cborToVec : T → DynResult Bytes
  cborDeserialize : Bytes → DynResult (T × Bytes)
  bareToVec : T → DynResult Bytes
  bareFromSlice : Bytes → DynResult T
  utf8Error : Bytes → DynError
  strDebug : String → String

namespace Serde

variable {T : Type} (serde : Serde T)

/-- Each codec decodes what it encodes. -/
structure Lawful : Prop where
  json : ∀ t s, serde.jsonToString t = .ok s → serde.jsonFromStr s = .ok t
  cbor : ∀ t b, serde.cborToVec t = .ok b → serde.cborDeserialize b = .ok (t, [])
  bare : ∀ t b, serde.bareToVec t = .ok b → serde.bareFromSlice b = .ok t

/-- `format!("{:?}", e)` -/
def debug : DynError → String
  | .codec text => text
  | .message text => serde.strDebug text

/-- `str::from_utf8` -/
def fromUtf8 (bytes : Bytes) : DynResult String :=
  match ofUtf8 bytes with
  | some s => .ok s
  | none => .error (serde.utf8Error bytes)

def deserializeJson (networkMessage : Bytes) : DynResult (T × Format) := do
  let s ← serde.fromUtf8 networkMessage
  let t ← serde.jsonFromStr s
  .ok (t, .json)

/-- What the reader leaves is not looked at. -/
def deserializeCbor (networkMessage : Bytes) : DynResult (T × Format) := do
  let (t, _) ← serde.cborDeserialize networkMessage
  .ok (t, .cbor)

def deserializeBare (networkMessage : Bytes) : DynResult (T × Format) := do
  let t ← serde.bareFromSlice networkMessage
  .ok (t, .bare)

def deserializers : List (Bytes → DynResult (T × Format)) :=
  [serde.deserializeJson, serde.deserializeCbor, serde.deserializeBare]

/-- The debug texts of the errors, a line each. -/
def allErrs (networkMessage : Bytes) : String :=
  serde.deserializers.foldl (fun errs deFunc =>
    match deFunc networkMessage with
    | .error e => errs ++ (serde.debug e ++ "\n")
    | .ok _ => errs) ""

def deserialize (networkMessage : Bytes) : DynResult (T × Format) :=
  match serde.deserializers.findSome? fun deFunc => (deFunc networkMessage).toOption with
  | some r => .ok r
  | none => .error (.message ("Data could not be parsed; attempted formats JSON, CBOR, BARE.\n" ++
      "Parse errors:\n" ++ serde.strDebug (serde.allErrs networkMessage)))

/-- The function of one format. -/
def deserializeAs : Format → Bytes → DynResult (T × Format)
  | .json => serde.deserializeJson
  | .cbor => serde.deserializeCbor
  | .bare => serde.deserializeBare

def deserializeExpected (networkMessage : Bytes) (expectedFormat : Format) :
    DynResult (T × Format) :=
  match serde.deserializeAs expectedFormat networkMessage with
  | .ok r => .ok r
  | .error _ => serde.deserialize networkMessage

def serialize (t : T) : Format → DynResult Bytes
  | .json => do
    let s ← serde.jsonToString t
    .ok (utf8 s)
  | .cbor => serde.cborToVec t
  | .bare => serde.bareToVec t

end Serde

namespace Format

def order : List Format := [json, cbor, bare]

/-- The formats that are tried before one. -/
def triedBefore : Format → List Format
  | json => []
  | cbor => [json]
  | bare => [json, cbor]

theorem order_eq (f : Format) : ∃ after, order = f.triedBefore ++ f :: after := by
  cases f with
  | json => exact ⟨[cbor, bare], rfl⟩
  | cbor => exact ⟨[bare], rfl⟩
  | bare => exact ⟨[], rfl⟩

theorem not_mem_triedBefore (f : Format) : f ∉ f.triedBefore := by
  cases f <;> decide

theorem mem_order (f : Format) : f ∈ order := by
  cases f <;> decide

end Format

variable {T : Type} (serde : Serde T)

theorem ok_of_bind {α β : Type} {x : DynResult α} {f : α → DynResult β} {b : β}
    (h : (x >>= f) = .ok b) : ∃ a, x = .ok a ∧ f a = .ok b := by
  cases x with
  | error _ => cases h
  | ok a => exact ⟨a, rfl, h⟩

/-- The value of the bytes in one format. -/
def Decodes (f : Format) (b : Bytes) (t : T) : Prop := serde.deserializeAs f b = .ok (t, f)

/-- The format decodes the bytes, and none that is tried before it does. -/
structure DecodesFirst (f : Format) (b : Bytes) (t : T) : Prop where
  decodes : Decodes serde f b t
  first : ∀ g ∈ f.triedBefore, ∀ u, ¬ Decodes serde g b u

def decode (f : Format) (b : Bytes) : Option T :=
  (serde.deserializeAs f b).toOption.map Prod.fst

/-- The format a function returns is its own. -/
theorem deserializeAs_format {f g : Format} {b : Bytes} {t : T}
    (h : serde.deserializeAs f b = .ok (t, g)) : g = f := by
  cases f with
  | json =>
    change serde.deserializeJson b = _ at h
    obtain ⟨_, _, h⟩ := ok_of_bind h
    obtain ⟨_, _, h⟩ := ok_of_bind h
    cases h
    rfl
  | cbor =>
    change serde.deserializeCbor b = _ at h
    obtain ⟨_, _, h⟩ := ok_of_bind h
    cases h
    rfl
  | bare =>
    change serde.deserializeBare b = _ at h
    obtain ⟨_, _, h⟩ := ok_of_bind h
    cases h
    rfl

theorem decode_cases (f : Format) (b : Bytes) :
    (∃ t, serde.deserializeAs f b = .ok (t, f) ∧ decode serde f b = some t) ∨
      (∃ e, serde.deserializeAs f b = .error e) ∧ decode serde f b = none := by
  cases h : serde.deserializeAs f b with
  | error e =>
    refine Or.inr ⟨⟨e, rfl⟩, ?_⟩
    rw [decode, h]
    rfl
  | ok r =>
    obtain ⟨t, g⟩ := r
    have hformat := deserializeAs_format serde h
    subst hformat
    refine Or.inl ⟨t, rfl, ?_⟩
    rw [decode, h]
    rfl

theorem decode_eq_some_iff {f : Format} {b : Bytes} {t : T} :
    decode serde f b = some t ↔ Decodes serde f b t := by
  unfold Decodes
  rcases decode_cases serde f b with ⟨u, hok, hu⟩ | ⟨⟨e, he⟩, hnone⟩
  · rw [hok, hu]
    constructor
    · rintro ⟨⟩
      rfl
    · rintro ⟨⟩
      rfl
  · rw [he, hnone]
    constructor
    · rintro ⟨⟩
    · rintro ⟨⟩

theorem decode_eq_none_iff {f : Format} {b : Bytes} :
    decode serde f b = none ↔ ∀ u, ¬ Decodes serde f b u := by
  rw [Option.eq_none_iff_forall_ne_some]
  exact forall_congr' fun u => not_congr (decode_eq_some_iff serde)

/-- `deserialize` is the ordered choice. -/
theorem deserialize_ok_iff {b : Bytes} {f : Format} {t : T} :
    serde.deserialize b = .ok (t, f) ↔ choose (decode serde) Format.order b = some (f, t) := by
  have hchoice : (serde.deserializers.findSome? fun deFunc => (deFunc b).toOption) =
      (choose (decode serde) Format.order b).map Prod.swap := by
    show (Format.order.map serde.deserializeAs).findSome? (fun deFunc => (deFunc b).toOption) = _
    rw [choose, List.findSome?_map, List.map_findSome?]
    congr 1
    funext f
    rcases decode_cases serde f b with ⟨u, hok, hu⟩ | ⟨⟨e, he⟩, hnone⟩
    · simp only [Function.comp_apply, hok, hu]
      rfl
    · simp only [Function.comp_apply, he, hnone]
      rfl
  unfold Serde.deserialize
  rw [hchoice]
  cases choose (decode serde) Format.order b with
  | none => simp
  | some r =>
    obtain ⟨g, u⟩ := r
    simp [and_comm]

theorem deserializeExpected_ok_iff {b : Bytes} {hint f : Format} {t : T} :
    serde.deserializeExpected b hint = .ok (t, f) ↔
      chooseHinted (decode serde) Format.order hint b = some (f, t) := by
  unfold Serde.deserializeExpected
  rcases decode_cases serde hint b with ⟨u, hok, hu⟩ | ⟨⟨e, he⟩, hnone⟩
  · rw [hok, chooseHinted_of_reads hu]
    simp [and_comm]
  · rw [he, chooseHinted_of_none hnone]
    exact deserialize_ok_iff serde

theorem readsFirst_iff {b : Bytes} {f : Format} {t : T} :
    ReadsFirst (decode serde) Format.order b f t ↔ DecodesFirst serde f b t := by
  obtain ⟨after, horder⟩ := f.order_eq
  constructor
  · intro h
    have hown := (choose_eq_own_iff horder f.not_mem_triedBefore h.reads).mp
      (choose_eq_some_iff.mpr h)
    exact ⟨(decode_eq_some_iff serde).mp h.reads,
      fun g hg => (decode_eq_none_iff serde).mp (hown g hg)⟩
  · intro h
    exact ⟨(decode_eq_some_iff serde).mpr h.decodes, f.triedBefore, after, horder,
      fun g hg => (decode_eq_none_iff serde).mpr (h.first g hg)⟩

variable {serde}

theorem decodes_of_serialize (lawful : serde.Lawful) {t : T} {f : Format} {b : Bytes}
    (h : serde.serialize t f = .ok b) : Decodes serde f b t := by
  cases f with
  | json =>
    obtain ⟨s, hs, hb⟩ := ok_of_bind h
    cases hb
    show serde.deserializeJson (utf8 s) = _
    rw [Serde.deserializeJson, Serde.fromUtf8, ofUtf8_utf8]
    show (serde.jsonFromStr s >>= _) = _
    rw [lawful.json t s hs]
    rfl
  | cbor =>
    show serde.deserializeCbor b = _
    rw [Serde.deserializeCbor, lawful.cbor t b h]
    rfl
  | bare =>
    show serde.deserializeBare b = _
    rw [Serde.deserializeBare, lawful.bare t b h]
    rfl

/-- With the right hint a message is read as it was written; without one, exactly where no
format tried before its own decodes the bytes. A hint never decides whether bytes are read,
and the value is the same exactly where the hinted format and the first one agree. -/
theorem format_detection (lawful : serde.Lawful) :
    (∀ t f b, serde.serialize t f = .ok b →
      serde.deserializeExpected b f = .ok (t, f) ∧
        (serde.deserialize b = .ok (t, f) ↔
          ∀ g ∈ f.triedBefore, ∀ u, ¬ Decodes serde g b u)) ∧
      ∀ b hint,
        ((∃ r, serde.deserializeExpected b hint = .ok r) ↔ ∃ r, serde.deserialize b = .ok r) ∧
          ((∀ r s, serde.deserializeExpected b hint = .ok r → serde.deserialize b = .ok s →
              r.1 = s.1) ↔
            ∀ t f u, Decodes serde hint b t → DecodesFirst serde f b u → t = u) := by
  refine ⟨?_, ?_⟩
  · intro t f b h
    have hread := (decode_eq_some_iff serde).mpr (decodes_of_serialize lawful h)
    obtain ⟨after, horder⟩ := f.order_eq
    refine ⟨?_, ?_⟩
    · rw [deserializeExpected_ok_iff]
      exact chooseHinted_of_reads hread
    · rw [deserialize_ok_iff, choose_eq_own_iff horder f.not_mem_triedBefore hread]
      exact forall₂_congr fun g _ => decode_eq_none_iff serde
  · intro b hint
    refine ⟨?_, ?_⟩
    · have hiff := @exists_chooseHinted_iff _ _ _ (decode serde) _ b _ hint.mem_order
      simp only [Prod.exists, deserializeExpected_ok_iff, deserialize_ok_iff] at hiff ⊢
      rw [exists_comm, hiff, exists_comm]
    · have hiff := @chooseHinted_value_iff _ _ _ (decode serde) Format.order b hint
      simp only [decode_eq_some_iff, readsFirst_iff] at hiff
      rw [← hiff]
      constructor
      · rintro h ⟨f, t⟩ ⟨g, u⟩ hr hs
        exact h (t, f) (u, g) ((deserializeExpected_ok_iff serde).mpr hr)
          ((deserialize_ok_iff serde).mpr hs)
      · rintro h ⟨t, f⟩ ⟨u, g⟩ hr hs
        exact h (f, t) (g, u) ((deserializeExpected_ok_iff serde).mp hr)
          ((deserialize_ok_iff serde).mp hs)

/-! One byte. -/

/-- `u8` in JSON: a numeral without leading zeros, blanks around it. -/
def u8FromStr (s : String) : DynResult UInt8 :=
  let isBlank := fun c => c = ' ' || c = '\t' || c = '\n' || c = '\r'
  let digits := ((s.toList.dropWhile isBlank).reverse.dropWhile isBlank).reverse
  if digits ≠ [] ∧ digits.all (Numerals.isDigit 10) = true ∧
      (digits.head? = some '0' → digits = ['0']) ∧ Numerals.valueOf 10 digits < 256 then
    .ok (UInt8.ofNat (Numerals.valueOf 10 digits))
  else .error (.codec "invalid u8")

def u8Deserialize (b : Bytes) : DynResult (UInt8 × Bytes) :=
  match readHead b with
  | some (0, n, rest) => if n < 256 then .ok (UInt8.ofNat n, rest) else .error (.codec "not a u8")
  | _ => .error (.codec "not a u8")

def u8FromSlice (b : Bytes) : DynResult UInt8 :=
  match Bare.Codec.u8.read b with
  | some (t, []) => .ok t
  | _ => .error (.codec "not a u8")

def u8 : Serde UInt8 where
  jsonToString t := .ok (String.ofList (Nat.toDigits 10 t.toNat))
  jsonFromStr := u8FromStr
  cborToVec t := .ok (head 0 t.toNat)
  cborDeserialize := u8Deserialize
  bareToVec t := .ok (Bare.Codec.u8.write t)
  bareFromSlice := u8FromSlice
  utf8Error _ := .codec "Utf8Error"
  strDebug s := "\"" ++ s ++ "\""

theorem not_blank_of_isDigit {c : Char} (h : Numerals.isDigit 10 c = true) :
    (c = ' ' || c = '\t' || c = '\n' || c = '\r') = false := by
  rw [Bool.eq_false_iff]
  intro hblank
  simp only [Bool.or_eq_true, decide_eq_true_eq] at hblank
  rcases hblank with ((rfl | rfl) | rfl) | rfl <;> revert h <;> decide

theorem dropWhile_of_none {p : Char → Bool} {l : List Char} (h : ∀ c ∈ l, p c = false) :
    l.dropWhile p = l := by
  cases l with
  | nil => rfl
  | cons c l => exact List.dropWhile_cons_of_neg (by simp [h c List.mem_cons_self])

theorem u8FromStr_toDigits (t : UInt8) :
    u8FromStr (String.ofList (Nat.toDigits 10 t.toNat)) = .ok t := by
  have hdigits : ∀ c ∈ Nat.toDigits 10 t.toNat, Numerals.isDigit 10 c = true :=
    fun c hc => Numerals.isDigit_of_mem (by decide) (by decide) hc
  have hvalue := @Numerals.valueOf_toDigits 10 (by decide) (by decide) t.toNat
  have hzero : (Nat.toDigits 10 t.toNat).head? = some '0' → Nat.toDigits 10 t.toNat = ['0'] := by
    intro h
    rw [Numerals.eq_zero_of_head_toDigits (by decide) (by decide) h]
    rfl
  simp only [u8FromStr, String.toList_ofList]
  rw [dropWhile_of_none fun c hc => not_blank_of_isDigit (hdigits c hc),
    dropWhile_of_none fun c hc => not_blank_of_isDigit (hdigits c (List.mem_reverse.mp hc)),
    List.reverse_reverse, if_pos, hvalue, UInt8.ofNat_toNat]
  refine ⟨Nat.toDigits_ne_nil, List.all_eq_true.mpr hdigits, hzero, ?_⟩
  rw [hvalue]
  exact t.toNat_lt

theorem u8_lawful : u8.Lawful where
  json := by
    rintro t s ⟨⟩
    have hread : u8.jsonFromStr = u8FromStr := rfl
    rw [hread]
    exact u8FromStr_toDigits t
  cbor := by
    rintro t b ⟨⟩
    have hread := readHead_head 0 t.toNat (by decide) (t.toNat_lt.trans (by decide)) []
    rw [List.append_nil] at hread
    show u8Deserialize (head 0 t.toNat) = _
    rw [u8Deserialize, hread]
    simp only [t.toNat_lt, if_true, UInt8.ofNat_toNat]
  bare := by
    rintro t b ⟨⟩
    have hread := Bare.Codec.u8.read_write t trivial []
    rw [List.append_nil] at hread
    show u8FromSlice (Bare.Codec.u8.write t) = _
    rw [u8FromSlice, hread]

/-- The byte 49 in BARE is the digit of another number in JSON. -/
theorem byte_read_as_digit :
    u8.Lawful ∧ u8.serialize 49 .bare = .ok [0x31] ∧
      u8.deserialize [0x31] = .ok (1, .json) ∧
      u8.deserializeExpected [0x31] .bare = .ok (49, .bare) := by
  have hbytes : utf8 "1" = [0x31] := by decide
  have hjson : Decodes u8 .json [0x31] 1 := by
    rw [← hbytes]
    exact decodes_of_serialize u8_lawful rfl
  refine ⟨u8_lawful, rfl, ?_, rfl⟩
  have hfirst : DecodesFirst u8 .json [0x31] 1 := ⟨hjson, fun _ h => absurd h List.not_mem_nil⟩
  exact (deserialize_ok_iff u8).mpr (choose_eq_some_iff.mpr ((readsFirst_iff u8).mpr hfirst))

/-- The number 255 in CBOR is no text, so it is read as it was written. -/
theorem format_detection_u8 :
    u8.serialize 255 .cbor = .ok [0x18, 0xff] ∧
      u8.deserialize [0x18, 0xff] = .ok (255, .cbor) ∧
      u8.deserializeExpected [0x18, 0xff] .cbor = .ok (255, .cbor) := by
  have hserialize : u8.serialize 255 .cbor = .ok [0x18, 0xff] := rfl
  obtain ⟨hexpected, hdetected⟩ := (format_detection u8_lawful).1 255 .cbor _ hserialize
  refine ⟨hserialize, hdetected.mpr ?_, hexpected⟩
  intro g hg u hu
  rw [List.mem_singleton.mp hg] at hu
  have htext : ofUtf8 [0x18, 0xff] = none := by decide
  obtain ⟨s, hs, -⟩ := ok_of_bind hu
  rw [Serde.fromUtf8, htext] at hs
  cases hs

end Weverywhere.FormatDetection
