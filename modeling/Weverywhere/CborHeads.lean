import Weverywhere.Cbor

/-!
The heads of an encoded value and where they stand. Every head is found in the
encoding at its position, so a reader that finds its way from head to head meets
nothing else.
-/
namespace Weverywhere.CborHeads

open ByteStrings Cbor

/-- A head, its position counted from the front of the whole. -/
structure HeadAt where
  pos : ℕ
  major : ℕ
  argument : ℕ

mutual

def heads (pos : ℕ) : Value → List HeadAt
  | .integer i => if 0 ≤ i then [⟨pos, 0, i.toNat⟩] else [⟨pos, 1, (-1 - i).toNat⟩]
  | .bytes b => [⟨pos, 2, b.length⟩]
  | .text s => [⟨pos, 3, (utf8 s).length⟩]
  | .array items =>
      ⟨pos, 4, items.length⟩ :: headsItems (pos + headLength items.length) items
  | .map entries =>
      ⟨pos, 5, entries.length⟩ :: headsEntries (pos + headLength entries.length) entries

def headsItems (pos : ℕ) : List Value → List HeadAt
  | [] => []
  | v :: items => heads pos v ++ headsItems (pos + (encode v).length) items

def headsEntries (pos : ℕ) : List (Value × Value) → List HeadAt
  | [] => []
  | (k, v) :: entries =>
      heads pos k ++ heads (pos + (encode k).length) v ++
        headsEntries (pos + (encode k).length + (encode v).length) entries

end

/-- `h` is a head that fits its form, found in `bytes` when these start at `pos`. -/
structure InPlace (pos : ℕ) (bytes : Bytes) (h : HeadAt) : Prop where
  major_lt : h.major < 8
  argument_lt : h.argument < 2 ^ 64
  found : ∃ before after, bytes = before ++ head h.major h.argument ++ after ∧
    h.pos = pos + before.length

theorem InPlace.append_right {pos : ℕ} {bytes : Bytes} {h : HeadAt} (hh : InPlace pos bytes h)
    (rest : Bytes) : InPlace pos (bytes ++ rest) h := by
  obtain ⟨before, after, rfl, hpos⟩ := hh.found
  exact ⟨hh.major_lt, hh.argument_lt, before, after ++ rest, by simp, hpos⟩

theorem InPlace.append_left {pos : ℕ} {bytes front : Bytes} {h : HeadAt}
    (hh : InPlace (pos + front.length) bytes h) : InPlace pos (front ++ bytes) h := by
  obtain ⟨before, after, rfl, hpos⟩ := hh.found
  refine ⟨hh.major_lt, hh.argument_lt, front ++ before, after, by simp, ?_⟩
  rw [hpos, List.length_append]
  omega

/-- The head at the front. -/
theorem inPlace_front {pos major n : ℕ} (hmajor : major < 8) (hn : n < 2 ^ 64) (rest : Bytes) :
    InPlace pos (head major n ++ rest) ⟨pos, major, n⟩ :=
  ⟨hmajor, hn, [], rest, by simp, rfl⟩

theorem headsItems_inPlace {items : List Value}
    (hitems : ∀ v ∈ items, ∀ pos, ∀ h ∈ heads pos v, InPlace pos (encode v) h) (pos : ℕ) :
    ∀ h ∈ headsItems pos items, InPlace pos (encodeItems items) h := by
  induction items generalizing pos with
  | nil => simp [headsItems]
  | cons v items ih =>
    intro h hh
    rw [headsItems, List.mem_append] at hh
    rw [encodeItems]
    rcases hh with hh | hh
    · exact (hitems v (by simp) pos h hh).append_right _
    · have hrest := ih (fun w hw => hitems w (List.mem_cons_of_mem v hw)) _ h hh
      exact hrest.append_left

theorem headsEntries_inPlace {entries : List (Value × Value)}
    (hentries : ∀ kv ∈ entries, (∀ pos, ∀ h ∈ heads pos kv.1, InPlace pos (encode kv.1) h) ∧
      ∀ pos, ∀ h ∈ heads pos kv.2, InPlace pos (encode kv.2) h) (pos : ℕ) :
    ∀ h ∈ headsEntries pos entries, InPlace pos (encodeEntries entries) h := by
  induction entries generalizing pos with
  | nil => simp [headsEntries]
  | cons kv entries ih =>
    obtain ⟨k, v⟩ := kv
    obtain ⟨hk, hv⟩ := hentries (k, v) (by simp)
    intro h hh
    rw [headsEntries, List.mem_append, List.mem_append] at hh
    rw [encodeEntries]
    rcases hh with (hh | hh) | hh
    · exact ((hk pos h hh).append_right _).append_right _
    · exact (hv _ h hh).append_left.append_right _
    · have hrest := ih (fun w hw => hentries w (List.mem_cons_of_mem _ hw)) _ h hh
      rw [Nat.add_assoc, ← List.length_append] at hrest
      exact hrest.append_left

/-- Every head stands where it is said to. -/
theorem heads_inPlace (depth : ℕ) (v : Value) (hv : Serializable depth v) (pos : ℕ) :
    ∀ h ∈ heads pos v, InPlace pos (encode v) h := by
  induction depth generalizing v pos with
  | zero => exact hv.elim
  | succ depth ih =>
    intro h hh
    cases v with
    | integer i =>
      obtain ⟨hlow, hhigh⟩ := hv
      rw [heads] at hh
      rw [encode]
      split_ifs at hh with hsign
      · rw [List.mem_singleton.mp hh, if_pos hsign, ← List.append_nil (head _ _)]
        exact inPlace_front (by omega) (by omega) []
      · rw [List.mem_singleton.mp hh, if_neg hsign, ← List.append_nil (head _ _)]
        exact inPlace_front (by omega) (by omega) []
    | bytes b =>
      rw [heads, List.mem_singleton] at hh
      rw [hh, encode]
      exact inPlace_front (by omega) hv b
    | text s =>
      rw [heads, List.mem_singleton] at hh
      rw [hh, encode]
      exact inPlace_front (by omega) hv (utf8 s)
    | array items =>
      obtain ⟨hlength, hitems⟩ := hv
      rw [heads, List.mem_cons] at hh
      rw [encode]
      rcases hh with rfl | hh
      · exact inPlace_front (by omega) hlength _
      · have hinner := headsItems_inPlace (fun w hw pos => ih w (hitems w hw) pos) _ h hh
        rw [← head_length 4] at hinner
        exact hinner.append_left
    | map entries =>
      obtain ⟨hlength, hentries⟩ := hv
      rw [heads, List.mem_cons] at hh
      rw [encode]
      rcases hh with rfl | hh
      · exact inPlace_front (by omega) hlength _
      · have hinner := headsEntries_inPlace
          (fun kv hkv => ⟨fun pos => ih kv.1 (hentries kv hkv).1 pos,
            fun pos => ih kv.2 (hentries kv hkv).2 pos⟩) _ h hh
        rw [← head_length 5] at hinner
        exact hinner.append_left

end Weverywhere.CborHeads
