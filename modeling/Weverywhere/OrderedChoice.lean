import Mathlib.Data.List.Basic

/-!
Reading a text in one of several languages when nothing says which: they are tried in a
fixed order, and the first one that reads the text is taken. A text may be of several
languages at once, with another meaning in each.
-/
namespace Weverywhere.OrderedChoice

variable {ι α β : Type} {read : ι → α → Option β} {order : List ι} {text : α} {i hint : ι}
  {value : β}

def choose (read : ι → α → Option β) (order : List ι) (text : α) : Option (ι × β) :=
  order.findSome? fun i => (read i text).map fun value => (i, value)

/-- A language that is tried before all of the order. -/
def chooseHinted (read : ι → α → Option β) (order : List ι) (hint : ι) (text : α) :
    Option (ι × β) :=
  ((read hint text).map fun value => (hint, value)).or (choose read order text)

/-- The language reads the text and those before it do not. -/
structure ReadsFirst (read : ι → α → Option β) (order : List ι) (text : α) (i : ι)
    (value : β) : Prop where
  reads : read i text = some value
  first : ∃ before after, order = before ++ i :: after ∧ ∀ j ∈ before, read j text = none

theorem choose_eq_some_iff :
    choose read order text = some (i, value) ↔ ReadsFirst read order text i value := by
  rw [choose, List.findSome?_eq_some_iff]
  constructor
  · rintro ⟨before, j, after, horder, hread, hbefore⟩
    obtain ⟨_, hvalue, heq⟩ := Option.map_eq_some_iff.mp hread
    obtain ⟨rfl, rfl⟩ := Prod.mk.inj heq
    exact ⟨hvalue, before, after, horder, fun k hk => Option.map_eq_none_iff.mp (hbefore k hk)⟩
  · rintro ⟨hread, before, after, horder, hbefore⟩
    refine ⟨before, i, after, horder, by rw [hread]; rfl, fun k hk => ?_⟩
    rw [hbefore k hk]
    rfl

/-- A text is taken for what it is where no language before its own reads it. -/
theorem choose_eq_own_iff {before after : List ι} (horder : order = before ++ i :: after)
    (hi : i ∉ before) (hread : read i text = some value) :
    choose read order text = some (i, value) ↔ ∀ j ∈ before, read j text = none := by
  rw [choose_eq_some_iff]
  constructor
  · rintro ⟨-, front, back, hsplit, hfront⟩ j hj
    rw [horder] at hsplit
    rcases List.append_eq_append_iff.mp hsplit with ⟨more, rfl, -⟩ | ⟨more, rfl, hrest⟩
    · exact hfront j (List.mem_append_left _ hj)
    · cases more with
      | nil => exact hfront j (by simpa using hj)
      | cons k more =>
        obtain ⟨rfl, -⟩ := List.cons.inj hrest
        exact absurd (List.mem_append_right _ List.mem_cons_self) hi
  · intro hbefore
    exact ⟨hread, before, after, horder, hbefore⟩

theorem choose_isSome_of_reads (hi : i ∈ order) (hread : read i text = some value) :
    ∃ r, choose read order text = some r := by
  apply Option.isSome_iff_exists.mp
  rw [choose, List.findSome?_isSome_iff]
  exact ⟨i, hi, by rw [hread]; rfl⟩

theorem chooseHinted_of_reads (hread : read hint text = some value) :
    chooseHinted read order hint text = some (hint, value) := by
  rw [chooseHinted, hread]
  rfl

theorem chooseHinted_of_none (hread : read hint text = none) :
    chooseHinted read order hint text = choose read order text := by
  rw [chooseHinted, hread]
  rfl

/-- The hint decides nothing about what can be read. -/
theorem exists_chooseHinted_iff (hhint : hint ∈ order) :
    (∃ r, chooseHinted read order hint text = some r) ↔ ∃ r, choose read order text = some r := by
  cases hread : read hint text with
  | none => rw [chooseHinted_of_none hread]
  | some value =>
    rw [chooseHinted_of_reads hread]
    exact ⟨fun _ => choose_isSome_of_reads hhint hread, fun _ => ⟨_, rfl⟩⟩

/-- The hinted value is that of the first language exactly where the two agree. -/
theorem chooseHinted_value_iff :
    (∀ r s, chooseHinted read order hint text = some r → choose read order text = some s →
        r.2 = s.2) ↔
      ∀ value j other, read hint text = some value → ReadsFirst read order text j other →
        value = other := by
  constructor
  · intro h value j other hread hfirst
    exact h _ _ (chooseHinted_of_reads hread) (choose_eq_some_iff.mpr hfirst)
  · rintro h r ⟨j, other⟩ hr hs
    cases hread : read hint text with
    | none =>
      rw [chooseHinted_of_none hread, hs] at hr
      rw [← Option.some.inj hr]
    | some value =>
      rw [chooseHinted_of_reads hread] at hr
      rw [← Option.some.inj hr]
      exact h value j other hread (choose_eq_some_iff.mp hs)

end Weverywhere.OrderedChoice
