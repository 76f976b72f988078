import Weverywhere.MapNesting
import Weverywhere.Precedence

/-!
Which of two nodes `print_network_map` draws first (`src/src/command/netmap.rs`). Nodes of
one hostname are drawn in the order of the map, as far as they are drawn from one list,
and a root whose parent answered nobody is drawn at its turn and not before.
-/
namespace Weverywhere.DrawingOrder

open ByteStrings NetworkMap MapRows MapCoverage MapNesting Precedence

variable {nodes : Nodes} {ourPubkey : Bytes}

/-- `a` is drawn before every node of `T`. -/
def First (a : Bytes) (T : Bytes → Prop) (d : Drawing) : Prop :=
  ∀ t, T t → Precedes a t d.printed

section Guarded

variable {a : Bytes} {T : Bytes → Prop} {node : Node} (hlookup : nodes.lookup a = some node)
  (hdown : ∀ pk child, (nodes.lookup pk).isSome = true → T child → parentOf nodes child = some pk →
    T pk ∨ pk = a ∨ Precedes a child (childrenOf nodes pk))

include hlookup

/-- The nodes of `T` have their turn when `a` has been drawn. -/
theorem first_collectEach {depth : ℕ} (hcall : ∀ pk indent isLast d, (T pk → a ∈ d.printed) →
      First a T d → First a T (collectRows nodes (depth + 1) pk indent isLast d))
    {pks : List Bytes} (indent : String) {d : Drawing}
    (hpks : ∀ t ∈ pks, T t → a ∈ d.printed ∨ Precedes a t pks) (hd : First a T d) :
    First a T (collectEach (collectRows nodes (depth + 1)) pks indent d) := by
  induction pks generalizing d with
  | nil => exact hd
  | cons pk pks ih =>
    rw [collectEach_cons]
    have hturn : T pk → a ∈ d.printed := by
      intro hpk
      rcases hpks pk List.mem_cons_self hpk with hdrawn | hprecedes
      · exact hdrawn
      · exact absurd (hprecedes [] pks rfl) List.not_mem_nil
    apply ih
    · intro t ht hT
      rcases hpks t (List.mem_cons_of_mem pk ht) hT with hdrawn | hprecedes
      · exact .inl (printed_collectRows hdrawn _ _ _ _)
      by_cases hself : pk = a
      · left
        exact hself ▸ mem_collectRows (hself ▸ hlookup) depth indent _ d
      · right
        intro before after hsplit
        have hmem := hprecedes (pk :: before) after (by rw [hsplit, List.cons_append])
        exact (List.mem_cons.mp hmem).resolve_left (Ne.symm hself)
    · exact hcall pk indent _ d hturn hd

include hdown

/-- By induction on the nesting: the children of a node of `T` are called when `a` has
been drawn, and `a` is drawn before the other children that belong to `T`. -/
theorem first_collectRows (depth : ℕ) (pk : Bytes) (indent : String) (isLast : Bool)
    (d : Drawing) (hturn : T pk → a ∈ d.printed) (hd : First a T d) :
    First a T (collectRows nodes depth pk indent isLast d) := by
  induction depth generalizing pk indent isLast d with
  | zero => exact hd
  | succ depth ih =>
    cases hnode : nodes.lookup pk with
    | none => rwa [collectRows_none hnode]
    | some own =>
      by_cases hprinted : pk ∈ d.printed
      · rwa [collectRows_printed hprinted]
      rw [collectRows_fresh hnode hprinted]
      have hadd : First a T (d.add (rowOf pk own indent isLast)) := by
        intro t ht
        apply (hd t ht).snoc
        intro hsame
        obtain rfl : pk = t := hsame
        exact hturn ht
      cases depth with
      | zero => exact collectEach_invariant (fun _ _ _ _ hd => hd) _ _ hadd
      | succ depth =>
        apply first_collectEach hlookup ih _ _ hadd
        intro t ht hT
        have hparent := (mem_childrenOf_iff pk t).mp (List.mem_filter.mp ht).1
        by_cases hdrawn : a ∈ (d.add (rowOf pk own indent isLast)).printed
        · exact .inl hdrawn
        rcases hdown pk t (by rw [hnode]; rfl) hT hparent with hpk | rfl | hprecedes
        · exact absurd (List.mem_append_left _ (hturn hpk)) hdrawn
        · exact absurd (List.mem_append_right _ (List.mem_singleton_self _)) hdrawn
        · exact .inr (hprecedes.filter (by simpa using hdrawn))

/-- A node that comes before those of `T` among the roots and among the children is drawn
before them. -/
theorem precedes_rows (hroots : ∀ t, T t → Precedes a t (roots nodes ourPubkey)) {t : Bytes}
    (ht : T t) : Precedes a t ((networkRows nodes ourPubkey).map Row.pubkey) := by
  obtain ⟨depth, hdepth⟩ : ∃ depth, nodes.keys.length = depth + 1 :=
    Nat.exists_eq_add_one.mpr (List.length_pos_of_mem (mem_keys_of_lookup hlookup))
  have hfirst : First a T (collectEach (collectRows nodes nodes.keys.length)
      (roots nodes ourPubkey) "" ⟨[], []⟩) := by
    rw [hdepth]
    apply first_collectEach hlookup (first_collectRows hlookup hdown (depth + 1))
    · intro t _ ht
      exact .inr (hroots t ht)
    · intro t _
      exact precedes_of_not_mem List.not_mem_nil
  rw [networkRows, ← (drawn_rows nodes ourPubkey).printed]
  exact hfirst t ht

end Guarded

/-! A node that the map has first. -/

section FirstKey

variable {a b : Bytes} {rest : List Bytes} (hkeys : nodes.keys = a :: rest)

include hkeys

theorem lookup_first : ∃ node, nodes.lookup a = some node := by
  apply Option.isSome_iff_exists.mp
  rw [AList.lookup_isSome, AList.mem_keys, hkeys]
  exact List.mem_cons_self

/-- It precedes the nodes of its own hostname in every sorted list. -/
theorem precedes_sortByHostname {p : Bytes → Bool} (ha : p a = true) (hne : b ≠ a)
    (hle : hostnameOf nodes a ≤ hostnameOf nodes b) :
    Precedes a b (sortByHostname nodes (nodes.keys.filter p)) := by
  by_cases hb : b ∈ nodes.keys.filter p
  · have hnodup := nodes.keys_nodup.filter p
    rw [hkeys, List.filter_cons_of_pos ha] at hb hnodup ⊢
    exact precedes_insertionSort_cons hnodup ((List.mem_cons.mp hb).resolve_left hne) hle
  · apply precedes_of_not_mem
    rwa [sortByHostname, List.mem_insertionSort]

theorem precedes_childrenOf {parent : Bytes} (ha : parentOf nodes a = some parent) (hne : b ≠ a)
    (hle : hostnameOf nodes a ≤ hostnameOf nodes b) : Precedes a b (childrenOf nodes parent) :=
  precedes_sortByHostname hkeys (beq_iff_eq.mpr ha) hne hle

theorem precedes_roots (ha : isRoot nodes ourPubkey a = true) (hne : b ≠ a)
    (hle : hostnameOf nodes a ≤ hostnameOf nodes b) : Precedes a b (roots nodes ourPubkey) :=
  precedes_sortByHostname hkeys ha hne hle

/-- Of two nodes with one place the first is drawn first. -/
theorem precedes_rows_of_placeOf (hne : b ≠ a) (hle : hostnameOf nodes a ≤ hostnameOf nodes b)
    {parent : Bytes} (ha : placeOf nodes ourPubkey a = some parent)
    (hb : placeOf nodes ourPubkey b = some parent) :
    Precedes a b ((networkRows nodes ourPubkey).map Row.pubkey) := by
  obtain ⟨node, hlookup⟩ := lookup_first hkeys
  obtain ⟨hroot, hparent⟩ := placeOf_eq_some_iff.mp hb
  apply precedes_rows hlookup (T := fun t => t = b) _ _ rfl
  · intro pk child _ hchild hpk
    obtain rfl := hchild
    obtain rfl := Option.some.inj (hparent.symm.trans hpk)
    exact .inr (.inr (precedes_childrenOf hkeys (placeOf_eq_some_iff.mp ha).2 hne hle))
  · intro t ht
    obtain rfl := ht
    apply precedes_of_not_mem
    rw [mem_roots_iff, hroot]
    exact Bool.false_ne_true

/-- Of two roots the first is drawn first when the second is not drawn before its turn, or
only where the first would be as well. -/
theorem precedes_rows_of_isRoot (hne : b ≠ a) (hle : hostnameOf nodes a ≤ hostnameOf nodes b)
    (ha : isRoot nodes ourPubkey a = true) (hb : isRoot nodes ourPubkey b = true)
    (hboth : parentOf nodes b = some ourPubkey → parentOf nodes a = some ourPubkey) :
    Precedes a b ((networkRows nodes ourPubkey).map Row.pubkey) := by
  obtain ⟨node, hlookup⟩ := lookup_first hkeys
  apply precedes_rows hlookup (T := fun t => t = b) _ _ rfl
  · intro pk child hknown hchild hpk
    obtain rfl := hchild
    have hours := (isRoot_iff_of_parentOf hpk).mp hb
    rw [← Option.not_isSome_iff_eq_none, or_iff_left (not_not_intro hknown)] at hours
    rw [hours] at hpk ⊢
    exact .inr (.inr (precedes_childrenOf hkeys (hboth hpk) hne hle))
  · intro t ht
    obtain rfl := ht
    exact precedes_roots hkeys ha hne hle

/-- The same when our daemon is drawn under no root before the first of the two: what is
drawn on the way to our daemon comes after it. -/
theorem precedes_rows_of_roots_above (hne : b ≠ a)
    (hle : hostnameOf nodes a ≤ hostnameOf nodes b) (ha : isRoot nodes ourPubkey a = true)
    (hb : parentOf nodes b = some ourPubkey)
    (hlater : ∀ root, isRoot nodes ourPubkey root = true → Above nodes ourPubkey root ourPubkey →
      hostnameOf nodes a ≤ hostnameOf nodes root) :
    Precedes a b ((networkRows nodes ourPubkey).map Row.pubkey) := by
  obtain ⟨node, hlookup⟩ := lookup_first hkeys
  have hours : (ourPubkey ≠ a ∧ Above nodes ourPubkey ourPubkey ourPubkey) ∨ ourPubkey = a := by
    by_cases hself : ourPubkey = a
    · exact .inr hself
    · exact .inl ⟨hself, .refl⟩
  apply precedes_rows hlookup (T := fun t => t = b ∨ t ≠ a ∧ Above nodes ourPubkey t ourPubkey)
    _ _ (.inl rfl)
  · intro pk child hknown hchild hpk
    rw [← or_assoc]
    left
    rcases hchild with rfl | ⟨-, habove⟩
    · obtain rfl := Option.some.inj (hb.symm.trans hpk)
      exact hours.imp_left .inr
    by_cases hroot : isRoot nodes ourPubkey child = true
    · -- its parent has answered, so it is our own daemon
      rw [isRoot_iff_of_parentOf hpk, ← Option.not_isSome_iff_eq_none,
        or_iff_left (not_not_intro hknown)] at hroot
      rw [hroot]
      exact hours.imp_left .inr
    · by_cases hself : pk = a
      · exact .inr hself
      · have hplace := placeOf_eq_some_iff.mpr ⟨Bool.eq_false_iff.mpr hroot, hpk⟩
        exact .inl (.inr ⟨hself, .head hplace habove⟩)
  · intro t ht
    rcases ht with rfl | ⟨hself, habove⟩
    · exact precedes_roots hkeys ha hne hle
    by_cases hroot : isRoot nodes ourPubkey t = true
    · exact precedes_roots hkeys ha hself (hlater t hroot habove)
    · apply precedes_of_not_mem
      rwa [mem_roots_iff]

/-- A root of the same hostname comes behind it. -/
theorem roots_of_first (hne : b ≠ a) (hle : hostnameOf nodes a ≤ hostnameOf nodes b)
    (ha : isRoot nodes ourPubkey a = true) (hb : isRoot nodes ourPubkey b = true) :
    ∃ before after, roots nodes ourPubkey = before ++ a :: after ∧ after.isEmpty = false := by
  obtain ⟨front, back, hsplit⟩ := List.append_of_mem ((mem_roots_iff b).mpr hb)
  have hmem := precedes_roots hkeys ha hne hle front back hsplit
  obtain ⟨before, between, rfl⟩ := List.append_of_mem hmem
  refine ⟨before, between ++ b :: back, ?_, ?_⟩
  · rw [hsplit, List.append_assoc, List.cons_append]
  · rw [List.isEmpty_eq_false_iff]
    exact List.append_ne_nil_of_right_ne_nil between (List.cons_ne_nil b back)

end FirstKey

/-- A root that the map has last is the last root when no hostname is larger. -/
theorem roots_of_last {b : Bytes} {rest : List Bytes} (hkeys : nodes.keys = rest ++ [b])
    (hb : isRoot nodes ourPubkey b = true) (hlargest : ∀ root, isRoot nodes ourPubkey root = true →
      ¬ hostnameOf nodes b < hostnameOf nodes root) :
    ∃ before, roots nodes ourPubkey = before ++ [b] := by
  refine ⟨sortByHostname nodes (rest.filter fun pk => isRoot nodes ourPubkey pk), ?_⟩
  rw [roots, hkeys, List.filter_append, List.filter_cons_of_pos hb, List.filter_nil]
  apply insertionSort_snoc
  intro root hroot
  exact String.not_lt.mp (hlargest root (List.mem_filter.mp hroot).2)

/-! A root whose parent has not answered. -/

section Orphan

variable {before after : List Bytes} {b parent : Bytes}
  (hroots : roots nodes ourPubkey = before ++ b :: after) (hparent : parentOf nodes b = some parent)
  (hmissing : nodes.lookup parent = none)

include hroots hparent hmissing

/-- Nothing that is drawn before its turn leads to it. -/
theorem orphan_not_printed : b ∉ (before.foldl
    (fun d pk => collectRows nodes nodes.keys.length pk "" false d) ⟨[], []⟩).printed := by
  have hdown : ∀ pk child, pk ≠ b ∧ (nodes.lookup pk).isSome = true →
      parentOf nodes child = some pk → child ≠ b ∧ (nodes.lookup child).isSome = true := by
    intro pk child hpk hchild
    obtain ⟨node, hlookup, -⟩ := lookup_of_parentOf hchild
    refine ⟨?_, by rw [hlookup]; rfl⟩
    intro hself
    rw [hself, hparent] at hchild
    rw [← Option.some.inj hchild, hmissing] at hpk
    cases hpk.2
  have hnodup : (roots nodes ourPubkey).Nodup := roots_nodup
  rw [hroots, List.nodup_append] at hnodup
  have hall : ∀ other ∈ (before.foldl
      (fun d pk => collectRows nodes nodes.keys.length pk "" false d) ⟨[], []⟩).printed,
      other ≠ b ∧ (nodes.lookup other).isSome = true := by
    apply List.foldlRecOn (motive := fun d : Drawing => ∀ other ∈ d.printed,
      other ≠ b ∧ (nodes.lookup other).isSome = true)
    · simp
    · intro d hd pk hpk
      have hroot : isRoot nodes ourPubkey pk = true := (mem_roots_iff pk).mp (by simp [hroots, hpk])
      apply collectRows_downward hdown _ pk _ "" false d hd
      exact ⟨hnodup.2.2 pk hpk b List.mem_cons_self, (ReachesRoot.root hroot).lookup_isSome⟩
  intro hb
  exact (hall b hb).1 rfl

/-- It is drawn at the left margin, as the last when no root comes after it. -/
theorem orphan_row : ∃ row ∈ networkRows nodes ourPubkey, row.pubkey = b ∧
    row.branch = if after.isEmpty then "`--" else "|--" := by
  have hfresh := orphan_not_printed hroots hparent hmissing
  obtain ⟨node, hlookup, -⟩ := lookup_of_parentOf hparent
  obtain ⟨depth, hdepth⟩ : ∃ depth, nodes.keys.length = depth + 1 :=
    Nat.exists_eq_add_one.mpr (List.length_pos_of_mem (mem_keys_of_lookup hlookup))
  refine ⟨rowOf b node "" after.isEmpty, ?_, rfl, rfl⟩
  rw [networkRows, hroots, collectEach_append _ _ (List.cons_ne_nil b after), collectEach_cons]
  generalize before.foldl
    (fun d pk => collectRows nodes nodes.keys.length pk "" false d) ⟨[], []⟩ = d at *
  apply rows_kept_each
  rw [hdepth, collectRows_fresh hlookup hfresh]
  apply rows_kept_each
  exact List.mem_append_right _ (List.mem_singleton_self _)

end Orphan

end Weverywhere.DrawingOrder
