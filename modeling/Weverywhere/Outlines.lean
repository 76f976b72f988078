import Mathlib.Data.List.Basic

/-!
Ordered forests written down line by line. Each line is followed by the lines below
it, indented by one more step; a line knows whether it is the last of its siblings,
and so do the lines below it. The forest is given by a function from a label to the
labels of its children.
-/
namespace Weverywhere.Outlines

variable {α β γ : Type*}

/-! Each element of a list with what comes behind it. -/

def EachWithRest (P : β → List β → Prop) : List β → Prop
  | [] => True
  | b :: rest => P b rest ∧ EachWithRest P rest

theorem eachWithRest_append {P : β → List β → Prop} {front back : List β} :
    EachWithRest P (front ++ back) ↔
      EachWithRest (fun b rest => P b (rest ++ back)) front ∧ EachWithRest P back := by
  induction front with
  | nil => simp [EachWithRest]
  | cons b rest ih => simp only [List.cons_append, EachWithRest, ih, and_assoc]

theorem EachWithRest.mono {P Q : β → List β → Prop} {list : List β} (h : EachWithRest P list)
    (himp : ∀ b ∈ list, ∀ rest, P b rest → Q b rest) : EachWithRest Q list := by
  induction list with
  | nil => trivial
  | cons b rest ih =>
    refine ⟨himp b List.mem_cons_self rest h.1, ih h.2 ?_⟩
    exact fun c hc => himp c (List.mem_cons_of_mem b hc)

theorem eachWithRest_map {P : γ → List γ → Prop} {f : β → γ} {list : List β} :
    EachWithRest P (list.map f) ↔ EachWithRest (fun b rest => P (f b) (rest.map f)) list := by
  induction list with
  | nil => exact Iff.rfl
  | cons b rest ih => simp only [List.map_cons, EachWithRest, ih]

theorem eachWithRest_iff {P : β → List β → Prop} {list : List β} :
    EachWithRest P list ↔ ∀ before b after, list = before ++ b :: after → P b after := by
  constructor
  · rintro h before b after rfl
    exact (eachWithRest_append.mp h).2.1
  · intro h
    induction list with
    | nil => trivial
    | cons b rest ih =>
      refine ⟨h [] b rest rfl, ih ?_⟩
      intro before c after hsplit
      exact h (b :: before) c after (by rw [hsplit, List.cons_append])

theorem eachWithRest_of_forall {P : β → List β → Prop} {list : List β}
    (h : ∀ b ∈ list, ∀ rest, (∀ c ∈ rest, c ∈ list) → P b rest) : EachWithRest P list := by
  rw [eachWithRest_iff]
  rintro before b after rfl
  apply h b (by simp) after
  exact fun c hc => List.mem_append_right _ (List.mem_cons_of_mem b hc)

/-! Outlines. -/

/-- A line: what it shows, for each line it stands below whether that is a last
sibling, outermost first, and whether it is one itself. -/
structure Entry (α : Type*) where
  label : α
  path : List Bool
  last : Bool

/-- The lines of `siblings` and of all that is below them. -/
inductive Outline (kids : α → List α) : List Bool → List α → List (Entry α) → Prop
  | nil (path : List Bool) : Outline kids path [] []
  | cons {path : List Bool} {a : α} {siblings : List α} {below later : List (Entry α)}
      (hbelow : Outline kids (path ++ [siblings.isEmpty]) (kids a) below)
      (hlater : Outline kids path siblings later) :
      Outline kids path (a :: siblings) (⟨a, path, siblings.isEmpty⟩ :: (below ++ later))

variable {kids : α → List α} {path : List Bool} {siblings : List α} {lines : List (Entry α)}

namespace Outline

theorem eq_nil (h : Outline kids path [] lines) : lines = [] := by
  cases h
  rfl

theorem path_extends (h : Outline kids path siblings lines) : ∀ e ∈ lines, path <+: e.path := by
  induction h with
  | nil path => simp
  | cons hbelow hlater ihbelow ihlater =>
    intro e he
    rcases List.mem_cons.mp he with rfl | he
    · exact List.prefix_refl _
    · rcases List.mem_append.mp he with he | he
      · exact (List.prefix_append _ _).trans (ihbelow e he)
      · exact ihlater e he

/-- Every sibling has its line. -/
theorem exists_line (h : Outline kids path siblings lines) {a : α} (ha : a ∈ siblings) :
    ∃ last, ⟨a, path, last⟩ ∈ lines := by
  induction h with
  | nil path => cases ha
  | cons hbelow hlater ihbelow ihlater =>
    rcases List.mem_cons.mp ha with rfl | ha
    · exact ⟨_, List.mem_cons_self⟩
    · obtain ⟨last, hline⟩ := ihlater ha
      exact ⟨last, List.mem_cons_of_mem _ (List.mem_append_right _ hline)⟩

/-- A line shows a sibling, or a child of another line. -/
theorem label_cases (h : Outline kids path siblings lines) {e : Entry α} (he : e ∈ lines) :
    e.label ∈ siblings ∨ ∃ f ∈ lines, e.label ∈ kids f.label := by
  induction h with
  | nil path => cases he
  | @cons path a siblings below later hbelow hlater ihbelow ihlater =>
    have hfirst : (⟨a, path, siblings.isEmpty⟩ : Entry α) ∈
        ⟨a, path, siblings.isEmpty⟩ :: (below ++ later) := List.mem_cons_self
    rcases List.mem_cons.mp he with rfl | he
    · exact .inl List.mem_cons_self
    · rcases List.mem_append.mp he with he | he
      · right
        rcases ihbelow he with hkid | ⟨f, hf, hkid⟩
        · exact ⟨_, hfirst, hkid⟩
        · exact ⟨f, List.mem_cons_of_mem _ (List.mem_append_left _ hf), hkid⟩
      · rcases ihlater he with hsibling | ⟨f, hf, hkid⟩
        · exact .inl (List.mem_cons_of_mem a hsibling)
        · exact .inr ⟨f, List.mem_cons_of_mem _ (List.mem_append_right _ hf), hkid⟩

/-- No line of `lines` is deeper than a line under `path`, up to the first. -/
theorem takeWhile_eq_nil (h : Outline kids path siblings lines) {n : ℕ} (hn : path.length ≤ n) :
    lines.takeWhile (fun f => n < f.path.length) = [] := by
  cases h with
  | nil => rfl
  | cons hbelow hlater =>
    apply List.takeWhile_cons_of_neg
    simpa using hn

/-- The lines right behind a line that are deeper are those of its children. -/
theorem block (h : Outline kids path siblings lines) :
    EachWithRest (fun e after => Outline kids (e.path ++ [e.last]) (kids e.label)
      (after.takeWhile fun f => e.path.length < f.path.length)) lines := by
  induction h with
  | nil path => trivial
  | @cons path a siblings below later hbelow hlater ihbelow ihlater =>
    constructor
    · have hdeeper : ∀ f ∈ below, path.length < f.path.length := by
        intro f hf
        have hle := (hbelow.path_extends f hf).length_le
        rw [List.length_append, List.length_singleton] at hle
        omega
      dsimp only
      rw [List.takeWhile_append_of_pos (by simpa using hdeeper),
        hlater.takeWhile_eq_nil (Nat.le_refl _), List.append_nil]
      exact hbelow
    · rw [eachWithRest_append]
      refine ⟨?_, ihlater⟩
      apply ihbelow.mono
      intro e he after hafter
      have hle := (hbelow.path_extends e he).length_le
      rw [List.length_append, List.length_singleton] at hle
      have hshallow : path.length ≤ e.path.length := by omega
      rw [List.takeWhile_append, hlater.takeWhile_eq_nil hshallow]
      split_ifs with hall
      · have hsame := (List.takeWhile_prefix _).eq_of_length hall
        rw [hsame] at hafter
        rw [List.append_nil]
        exact hafter
      · exact hafter

end Outline

/-! Siblings, told by their parents. -/

section Parents

variable {parent : α → Option α} (hkids : ∀ a, ∀ b ∈ kids a, parent b = some a)

include hkids

theorem Outline.parent_cases (h : Outline kids path siblings lines) {p : Option α}
    (hsiblings : ∀ b ∈ siblings, parent b = p) {e : Entry α} (he : e ∈ lines) :
    e.label ∈ siblings ∧ parent e.label = p ∨ ∃ f ∈ lines, parent e.label = some f.label := by
  rcases h.label_cases he with hsibling | ⟨f, hf, hkid⟩
  · exact .inl ⟨hsibling, hsiblings _ hsibling⟩
  · exact .inr ⟨f, hf, hkids _ _ hkid⟩

/-- The lines of the first of several siblings: those below it share no parent with it
or with those that come after it. -/
theorem Outline.apart {a : α} {below later : List (Entry α)} {pathBelow : List Bool} {last : Bool}
    (hbelow : Outline kids pathBelow (kids a) below) (hlater : Outline kids path siblings later)
    {p : Option α} (hsiblings : ∀ b ∈ siblings, parent b = p)
    (hp : ∀ e ∈ ⟨a, path, last⟩ :: (below ++ later), p ≠ some e.label)
    (hnodup : ((⟨a, path, last⟩ :: (below ++ later)).map Entry.label).Nodup) :
    (∀ e ∈ below, some a ≠ some e.label) ∧ (∀ e ∈ later, p ≠ some e.label) ∧
      (below.map Entry.label).Nodup ∧ (later.map Entry.label).Nodup ∧
      ∀ e ∈ below, parent e.label ≠ p ∧ ∀ f ∈ later, parent f.label ≠ parent e.label := by
  obtain ⟨hfirst, hrest⟩ := List.nodup_cons.mp hnodup
  rw [List.map_append, List.nodup_append] at hrest
  have ha : p ≠ some a := hp _ List.mem_cons_self
  have hinner : ∀ e ∈ below, p ≠ some e.label :=
    fun e he => hp e (List.mem_cons_of_mem _ (List.mem_append_left _ he))
  have houter : ∀ e ∈ later, p ≠ some e.label :=
    fun e he => hp e (List.mem_cons_of_mem _ (List.mem_append_right _ he))
  refine ⟨?_, houter, hrest.1, hrest.2.1, ?_⟩
  · intro e he hsame
    apply hfirst
    exact List.mem_map.mpr ⟨e, List.mem_append_left _ he, (Option.some.inj hsame).symm⟩
  intro e he
  -- the parent is the first sibling or a line below it
  have hparent : parent e.label = some a ∨ ∃ g ∈ below, parent e.label = some g.label := by
    rcases hbelow.parent_cases hkids (hkids a) he with ⟨-, h⟩ | h
    · exact .inl h
    · exact .inr h
  have hne : parent e.label ≠ p := by
    intro hsame
    rcases hparent with h | ⟨g, hg, h⟩
    · exact ha (hsame.symm.trans h)
    · exact hinner g hg (hsame.symm.trans h)
  refine ⟨hne, ?_⟩
  intro f hf hsame
  rcases hlater.parent_cases hkids hsiblings hf with ⟨-, h⟩ | ⟨g, hg, h⟩
  · exact hne (hsame.symm.trans h)
  · rw [← hsame, h] at hparent
    rcases hparent with hself | ⟨k, hk, hself⟩
    · apply hfirst
      exact List.mem_map.mpr ⟨g, List.mem_append_right _ hg, Option.some.inj hself⟩
    · exact hrest.2.2 _ (List.mem_map_of_mem hk) _ (List.mem_map_of_mem hg)
        (Option.some.inj hself).symm

/-- A line is marked as the last sibling exactly when none comes later. -/
theorem Outline.last_iff (h : Outline kids path siblings lines) {p : Option α}
    (hsiblings : ∀ b ∈ siblings, parent b = p) (hp : ∀ e ∈ lines, p ≠ some e.label)
    (hnodup : (lines.map Entry.label).Nodup) :
    EachWithRest (fun e after =>
      e.last = true ↔ ∀ f ∈ after, parent f.label ≠ parent e.label) lines := by
  induction h generalizing p with
  | nil path => trivial
  | @cons path a siblings below later hbelow hlater ihbelow ihlater =>
    have hlaterParents : ∀ b ∈ siblings, parent b = p :=
      fun b hb => hsiblings b (List.mem_cons_of_mem a hb)
    have hself : parent a = p := hsiblings a List.mem_cons_self
    obtain ⟨hinner, houter, hnodupBelow, hnodupLater, hne⟩ :=
      hbelow.apart hkids hlater hlaterParents hp hnodup
    refine ⟨?_, eachWithRest_append.mpr ⟨?_, ?_⟩⟩
    · dsimp only
      rw [hself]
      constructor
      · intro hlast f hf
        rw [List.isEmpty_iff] at hlast
        subst hlast
        rw [hlater.eq_nil, List.append_nil] at hf
        exact (hne f hf).1
      · intro hnone
        by_contra hmore
        rw [List.isEmpty_iff] at hmore
        obtain ⟨b, hb⟩ := List.exists_mem_of_ne_nil siblings hmore
        obtain ⟨last, hline⟩ := hlater.exists_line hb
        exact hnone _ (List.mem_append_right _ hline) (hlaterParents b hb)
    · apply (ihbelow (hkids a) hinner hnodupBelow).mono
      intro e he after hlast
      rw [hlast]
      constructor
      · intro hnone f hf
        rcases List.mem_append.mp hf with hf | hf
        · exact hnone f hf
        · exact (hne e he).2 f hf
      · exact fun hnone f hf => hnone f (List.mem_append_left _ hf)
    · exact ihlater hlaterParents houter hnodupLater

/-- Siblings keep the order of their lists. -/
theorem Outline.pairwise (h : Outline kids path siblings lines) {p : Option α}
    (hsiblings : ∀ b ∈ siblings, parent b = p) (hp : ∀ e ∈ lines, p ≠ some e.label)
    (hnodup : (lines.map Entry.label).Nodup) {R : α → α → Prop}
    (hR : ∀ a, (kids a).Pairwise R) (hfirst : siblings.Pairwise R) :
    lines.Pairwise fun e f => parent e.label = parent f.label → R e.label f.label := by
  induction h generalizing p with
  | nil path => exact List.Pairwise.nil
  | @cons path a siblings below later hbelow hlater ihbelow ihlater =>
    have hlaterParents : ∀ b ∈ siblings, parent b = p :=
      fun b hb => hsiblings b (List.mem_cons_of_mem a hb)
    have hself : parent a = p := hsiblings a List.mem_cons_self
    obtain ⟨hinner, houter, hnodupBelow, hnodupLater, hne⟩ :=
      hbelow.apart hkids hlater hlaterParents hp hnodup
    obtain ⟨hafter, htail⟩ := List.pairwise_cons.mp hfirst
    rw [List.pairwise_cons, List.pairwise_append]
    refine ⟨?_, ?_, ?_, ?_⟩
    · intro f hf hsame
      dsimp only at hsame ⊢
      rw [hself] at hsame
      rcases List.mem_append.mp hf with hf | hf
      · exact absurd hsame.symm (hne f hf).1
      · rcases hlater.parent_cases hkids hlaterParents hf with ⟨hsibling, -⟩ | ⟨g, hg, hparent⟩
        · exact hafter _ hsibling
        · exact absurd (hsame.trans hparent) (houter g hg)
    · exact ihbelow (hkids a) hinner hnodupBelow (hR a)
    · exact ihlater hlaterParents houter hnodupLater htail
    · intro e he f hf hsame
      exact absurd hsame.symm ((hne e he).2 f hf)

end Parents

end Weverywhere.Outlines
