import Weverywhere.DrawingOrder
import Weverywhere.KeyListing
import Weverywhere.RowProvenance

/-!
What of the output of `print_network_map` depends on the order a hash map is read in
(`src/src/command/netmap.rs`). The public keys are sorted by hostname and key. The tree
is sorted by hostname alone, so nodes with the same hostname that are drawn next to each
other come as the map has them.
-/
namespace Weverywhere.StableOutput

open ByteStrings Attestation Identity Messages NetworkMap MapRows RowProvenance MapCoverage
  MapNesting KeyListing Precedence DrawingOrder

/-- A root that has been drawn under our own daemon before its turn comes. -/
def Skipped (nodes : Nodes) (ourPubkey pk : Bytes) : Prop :=
  parentOf nodes pk = some ourPubkey ∧ ∃ root, isRoot nodes ourPubkey root = true ∧
    Above nodes ourPubkey root ourPubkey ∧ hostnameOf nodes root < hostnameOf nodes pk

/-- Two nodes of one hostname whose order shows: two children of a node that is drawn, or
two roots that are both drawn at their turn, or both not, or behind which no other root
comes. -/
structure Ambiguous (nodes : Nodes) (ourPubkey a b : Bytes) : Prop where
  ne : a ≠ b
  hostname : hostnameOf nodes a = hostnameOf nodes b
  shows : (∃ parent, placeOf nodes ourPubkey a = some parent ∧
      placeOf nodes ourPubkey b = some parent ∧ ReachesRoot nodes ourPubkey parent) ∨
    (isRoot nodes ourPubkey a = true ∧ isRoot nodes ourPubkey b = true ∧
      ((Skipped nodes ourPubkey a ↔ Skipped nodes ourPubkey b) ∨
        ∀ root, isRoot nodes ourPubkey root = true →
          ¬ hostnameOf nodes a < hostnameOf nodes root))

/-- However the map of the nodes is read, the rows and the lines of the keys are the
same. -/
def Stable (fromSlice : Bytes → Option Value) (c : Crypto) (ourPubkey : Bytes)
    (you : String) (now : UInt64) (replies : List (SocketAddr × Bytes)) : Prop :=
  ∀ nodes nodes' : Nodes, nodes.entries.Perm (assemble fromSlice c now replies).entries →
    nodes'.entries.Perm (assemble fromSlice c now replies).entries →
    networkRows nodes ourPubkey = networkRows nodes' ourPubkey ∧
      keyLines nodes ourPubkey you = keyLines nodes' ourPubkey you

variable {nodes nodes' : Nodes} {ourPubkey : Bytes}

/-! What the nodes say of each other does not depend on their order. -/

section SameNodes

variable (h : nodes.entries.Perm nodes'.entries)

include h

theorem lookup_perm (pk : Bytes) : nodes.lookup pk = nodes'.lookup pk := AList.perm_lookup h

theorem keys_perm : nodes.keys.Perm nodes'.keys := h.map Sigma.fst

theorem hostnameOf_perm : hostnameOf nodes = hostnameOf nodes' := by
  funext pk
  rw [hostnameOf, hostnameOf, lookup_perm h]

theorem parentOf_perm : parentOf nodes = parentOf nodes' := by
  funext pk
  rw [parentOf, parentOf, lookup_perm h]

theorem isRoot_perm : isRoot nodes ourPubkey = isRoot nodes' ourPubkey := by
  funext pk
  simp only [isRoot, lookup_perm h]

theorem placeOf_perm : placeOf nodes ourPubkey = placeOf nodes' ourPubkey := by
  funext pk
  rw [placeOf, placeOf, isRoot_perm h, parentOf_perm h]

theorem above_perm : Above nodes ourPubkey = Above nodes' ourPubkey := by
  funext above below
  rw [Above, Above, placeOf_perm h]

theorem skipped_perm : Skipped nodes ourPubkey = Skipped nodes' ourPubkey := by
  funext pk
  rw [Skipped, Skipped, parentOf_perm h, isRoot_perm h, above_perm h, hostnameOf_perm h]

theorem reachesRoot_of_perm {pk : Bytes} (hreaches : ReachesRoot nodes ourPubkey pk) :
    ReachesRoot nodes' ourPubkey pk := by
  induction hreaches with
  | root hroot => exact .root (isRoot_perm h ▸ hroot)
  | child hparent _ ih => exact .child (parentOf_perm h ▸ hparent) ih

theorem ambiguous_of_perm {a b : Bytes} (hab : Ambiguous nodes ourPubkey a b) :
    Ambiguous nodes' ourPubkey a b := by
  refine ⟨hab.ne, hostnameOf_perm h ▸ hab.hostname, ?_⟩
  have hshows := hab.shows
  rw [placeOf_perm h, isRoot_perm h, skipped_perm h, hostnameOf_perm h] at hshows
  rcases hshows with ⟨parent, ha, hb, hreaches⟩ | hroots
  · exact .inl ⟨parent, ha, hb, reachesRoot_of_perm h hreaches⟩
  · exact .inr hroots

end SameNodes

/-! The keys. -/

theorem keyEntry_le_total (a b : KeyEntry) : a.le b ∨ b.le a := by
  by_cases hab : a.hostname < b.hostname
  · exact .inl (.inl hab)
  by_cases hba : b.hostname < a.hostname
  · exact .inr (.inl hba)
  have hsame : a.hostname = b.hostname :=
    String.le_antisymm (String.not_lt.mp hba) (String.not_lt.mp hab)
  rcases List.le_total a.pubkey b.pubkey with hkeys | hkeys
  · exact .inl (.inr ⟨hsame, hkeys⟩)
  · exact .inr (.inr ⟨hsame.symm, hkeys⟩)

theorem keyEntry_le_trans {a b e : KeyEntry} (hab : a.le b) (hbe : b.le e) : a.le e := by
  rcases hab with hab | ⟨hab, hkeys⟩ <;> rcases hbe with hbe | ⟨hbe, hkeys'⟩
  · exact .inl (String.lt_trans hab hbe)
  · exact .inl (hbe ▸ hab)
  · exact .inl (hab ▸ hbe)
  · exact .inr ⟨hab.trans hbe, List.le_trans hkeys hkeys'⟩

theorem pubkey_eq_of_le_le {a b : KeyEntry} (hab : a.le b) (hba : b.le a) :
    a.pubkey = b.pubkey := by
  rcases hab with hab | ⟨hab, hkeys⟩ <;> rcases hba with hba | ⟨hba, hkeys'⟩
  · exact absurd (String.lt_trans hab hba) (String.lt_irrefl _)
  · exact absurd (hba ▸ hab) (String.lt_irrefl _)
  · exact absurd (hab ▸ hba) (String.lt_irrefl _)
  · exact List.le_antisymm hkeys hkeys'

/-- Every node has a key of its own, so no two of their entries tie. -/
theorem sorted_nodeEntries_perm (h : nodes.entries.Perm nodes'.entries) :
    (nodeEntries nodes).insertionSort KeyEntry.le =
      (nodeEntries nodes').insertionSort KeyEntry.le := by
  have : Std.Total KeyEntry.le := ⟨keyEntry_le_total⟩
  have : IsTrans KeyEntry KeyEntry.le := ⟨fun _ _ _ => keyEntry_le_trans⟩
  apply insertionSort_eq_of_perm
  · exact h.map _
  · intro a ha b hb hab hba
    have hnodup : ((nodeEntries nodes).map KeyEntry.pubkey).Nodup := by
      rw [map_nodeEntries]
      exact nodes.keys_nodup
    exact List.inj_on_of_nodup_map hnodup ha hb (pubkey_eq_of_le_le hab hba)

theorem keyLines_perm (h : nodes.entries.Perm nodes'.entries) (you : String) :
    keyLines nodes ourPubkey you = keyLines nodes' ourPubkey you := by
  have hids : ids nodes ourPubkey you = ids nodes' ourPubkey you := by
    rw [ids, ids, ourEntry]
    split_ifs
    · exact sorted_nodeEntries_perm h
    · rw [List.singleton_append, List.singleton_append, List.insertionSort_cons,
        List.insertionSort_cons, sorted_nodeEntries_perm h]
  rw [keyLines, keyLines, hids, h.isEmpty_eq]

/-! Without ties the rows are the same. -/

theorem sortByHostname_perm (h : nodes.entries.Perm nodes'.entries) {p : Bytes → Bool}
    (hties : ∀ a b, a ∈ nodes.keys → b ∈ nodes.keys → p a = true → p b = true →
      hostnameOf nodes a = hostnameOf nodes b → a = b) :
    sortByHostname nodes (nodes.keys.filter p) = sortByHostname nodes' (nodes'.keys.filter p) := by
  have : Std.Total fun a b => hostnameOf nodes a ≤ hostnameOf nodes b :=
    ⟨fun a b => String.le_total (hostnameOf nodes a) (hostnameOf nodes b)⟩
  have : IsTrans Bytes fun a b => hostnameOf nodes a ≤ hostnameOf nodes b :=
    ⟨fun _ _ _ hab hbc => String.le_trans hab hbc⟩
  simp only [sortByHostname, ← hostnameOf_perm h]
  apply insertionSort_eq_of_perm
  · exact (keys_perm h).filter p
  · intro a ha b hb hab hba
    rw [List.mem_filter] at ha hb
    exact hties a b ha.1 hb.1 ha.2 hb.2 (String.le_antisymm hab hba)

theorem collectEach_congr {collect collect' : Bytes → String → Bool → Drawing → Drawing}
    {pks : List Bytes} (h : ∀ pk ∈ pks, ∀ indent isLast d,
      collect pk indent isLast d = collect' pk indent isLast d) (indent : String) (d : Drawing) :
    collectEach collect pks indent d = collectEach collect' pks indent d := by
  induction pks generalizing d with
  | nil => rfl
  | cons pk pks ih =>
    rw [collectEach_cons, collectEach_cons, h pk List.mem_cons_self,
      ih fun other hother => h other (List.mem_cons_of_mem pk hother)]

section Unambiguous

variable (hnone : ∀ a b, ¬ Ambiguous nodes ourPubkey a b)

include hnone

theorem childrenOf_perm (h : nodes.entries.Perm nodes'.entries) {pk : Bytes}
    (hreaches : ReachesRoot nodes ourPubkey pk) : childrenOf nodes pk = childrenOf nodes' pk := by
  rw [childrenOf, childrenOf, ← parentOf_perm h]
  apply sortByHostname_perm h
  intro a b _ _ ha hb hhostname
  rw [beq_iff_eq] at ha hb
  by_contra hne
  refine hnone a b ⟨hne, hhostname, ?_⟩
  by_cases hours : pk = ourPubkey
  · right
    refine ⟨(isRoot_iff_of_parentOf ha).mpr (.inl hours),
      (isRoot_iff_of_parentOf hb).mpr (.inl hours), .inl ?_⟩
    rw [Skipped, Skipped, ha, hb, hhostname]
  · left
    have hknown : nodes.lookup pk ≠ none := by
      rw [← Option.isSome_iff_ne_none]
      exact hreaches.lookup_isSome
    have hplace : ∀ {child}, parentOf nodes child = some pk →
        placeOf nodes ourPubkey child = some pk := by
      intro child hchild
      refine placeOf_eq_some_iff.mpr ⟨?_, hchild⟩
      rw [← Bool.not_eq_true, isRoot_iff_of_parentOf hchild]
      exact not_or.mpr ⟨hours, hknown⟩
    exact ⟨pk, hplace ha, hplace hb, hreaches⟩

theorem collectRows_perm (h : nodes.entries.Perm nodes'.entries) (depth : ℕ) {pk : Bytes}
    (hreaches : ReachesRoot nodes ourPubkey pk) (indent : String) (isLast : Bool) (d : Drawing) :
    collectRows nodes depth pk indent isLast d = collectRows nodes' depth pk indent isLast d := by
  induction depth generalizing pk indent isLast d with
  | zero => rfl
  | succ depth ih =>
    obtain ⟨node, hlookup⟩ := Option.isSome_iff_exists.mp hreaches.lookup_isSome
    have hlookup' : nodes'.lookup pk = some node := lookup_perm h pk ▸ hlookup
    by_cases hprinted : pk ∈ d.printed
    · rw [collectRows_printed hprinted, collectRows_printed hprinted]
    rw [collectRows_fresh hlookup hprinted, collectRows_fresh hlookup' hprinted,
      ← childrenOf_perm hnone h hreaches]
    apply collectEach_congr
    intro child hchild indent isLast d
    have hparent := (mem_childrenOf_iff pk child).mp (List.mem_filter.mp hchild).1
    exact ih (.child hparent hreaches) indent isLast d

end Unambiguous

/-! The loop over the roots passes over those that are drawn already. -/

/-- A call for a root that is not the last one. -/
def drawRoot (nodes : Nodes) (d : Drawing) (pk : Bytes) : Drawing :=
  collectRows nodes nodes.keys.length pk "" false d

theorem mem_foldl_drawRoot {pk : Bytes} {node : Node} (hlookup : nodes.lookup pk = some node)
    {front : List Bytes} (hpk : pk ∈ front) :
    pk ∈ (front.foldl (drawRoot nodes) ⟨[], []⟩).printed := by
  obtain ⟨before, after, rfl⟩ := List.append_of_mem hpk
  obtain ⟨depth, hdepth⟩ : ∃ depth, nodes.keys.length = depth + 1 :=
    Nat.exists_eq_add_one.mpr (List.length_pos_of_mem (mem_keys_of_lookup hlookup))
  have hstays : ∀ d other, pk ∈ d.printed → pk ∈ (drawRoot nodes d other).printed :=
    fun _ _ hd => printed_collectRows hd _ _ _ _
  rw [List.foldl_append, List.foldl_cons]
  apply Runs.invariant_run _ hstays
  rw [drawRoot, hdepth]
  exact mem_collectRows hlookup depth "" false _

theorem roots_sorted (nodes : Nodes) (ourPubkey : Bytes) : (roots nodes ourPubkey).Pairwise
    fun a b => hostnameOf nodes a ≤ hostnameOf nodes b := sortByHostname_pairwise _

/-- A root that is skipped comes behind the root our daemon is drawn under. -/
theorem printed_of_skipped {front rest : List Bytes} {pk : Bytes}
    (hroots : roots nodes ourPubkey = front ++ pk :: rest) (hskipped : Skipped nodes ourPubkey pk) :
    pk ∈ (front.foldl (drawRoot nodes) ⟨[], []⟩).printed := by
  obtain ⟨hparent, root, hroot, habove, hlt⟩ := hskipped
  have hsorted := roots_sorted nodes ourPubkey
  have hmem : root ∈ front := by
    have hall := (mem_roots_iff root).mpr hroot
    rw [hroots, List.pairwise_append, List.pairwise_cons] at hsorted
    rw [hroots, List.mem_append, List.mem_cons] at hall
    rcases hall with hfront | rfl | hrest
    · exact hfront
    · exact absurd hlt (String.lt_irrefl _)
    · exact absurd hlt (String.not_lt.mpr (hsorted.2.1.1 root hrest))
  obtain ⟨node, hlookup⟩ := Option.isSome_iff_exists.mp (ReachesRoot.root hroot).lookup_isSome
  have hpart := partDrawn_foldl nodes front
  have hours := hpart.below habove (mem_foldl_drawRoot hlookup hmem)
  exact hpart.closed ourPubkey hours List.not_mem_nil pk hparent

open Classical in
theorem foldl_unskipped {front rest : List Bytes} (hroots : roots nodes ourPubkey = front ++ rest) :
    front.foldl (drawRoot nodes) ⟨[], []⟩ =
      (front.filter fun pk => ¬ Skipped nodes ourPubkey pk).foldl (drawRoot nodes) ⟨[], []⟩ := by
  induction front using List.reverseRecOn generalizing rest with
  | nil => rfl
  | append_singleton front pk ih =>
    rw [List.append_assoc, List.singleton_append] at hroots
    rw [List.foldl_append, List.foldl_cons, List.foldl_nil, List.filter_append, List.foldl_append]
    by_cases hskipped : Skipped nodes ourPubkey pk
    · rw [List.filter_cons_of_neg (by simpa using hskipped), List.filter_nil, List.foldl_nil,
        ← ih hroots, drawRoot, collectRows_printed (printed_of_skipped hroots hskipped)]
    · rw [List.filter_cons_of_pos (by simpa using hskipped), List.filter_nil, List.foldl_cons,
        List.foldl_nil, ← ih hroots]

theorem networkRows_snoc {front : List Bytes} {last : Bytes}
    (hroots : roots nodes ourPubkey = front ++ [last]) :
    networkRows nodes ourPubkey = (collectRows nodes nodes.keys.length last "" true
      (front.foldl (drawRoot nodes) ⟨[], []⟩)).rows := by
  rw [networkRows, hroots, collectEach_append _ _ (List.cons_ne_nil last []), collectEach_cons,
    collectEach_nil, List.isEmpty_nil]
  rfl

theorem hostname_le_last {front : List Bytes} {last root : Bytes}
    (hroots : roots nodes ourPubkey = front ++ [last])
    (hroot : isRoot nodes ourPubkey root = true) :
    hostnameOf nodes root ≤ hostnameOf nodes last := by
  have hsorted := roots_sorted nodes ourPubkey
  have hall := (mem_roots_iff root).mpr hroot
  rw [hroots, List.pairwise_append] at hsorted
  rw [hroots, List.mem_append, List.mem_singleton] at hall
  rcases hall with hfront | rfl
  · exact hsorted.2.2 root hfront last (List.mem_singleton_self last)
  · exact String.le_refl _

theorem roots_perm (h : nodes.entries.Perm nodes'.entries) :
    (roots nodes ourPubkey).Perm (roots nodes' ourPubkey) := by
  rw [roots, roots, sortByHostname, sortByHostname, ← isRoot_perm h]
  exact (List.perm_insertionSort _ _).trans
    (((keys_perm h).filter _).trans (List.perm_insertionSort _ _).symm)

section Unambiguous

variable (hnone : ∀ a b, ¬ Ambiguous nodes ourPubkey a b)
  (h : nodes.entries.Perm nodes'.entries) {front front' : List Bytes}

include hnone h

/-- The last root is the same. -/
theorem last_root_eq {last last' : Bytes} (hroots : roots nodes ourPubkey = front ++ [last])
    (hroots' : roots nodes' ourPubkey = front' ++ [last']) : last = last' := by
  have hroot : isRoot nodes ourPubkey last = true := (mem_roots_iff last).mp (by simp [hroots])
  have hroot' : isRoot nodes ourPubkey last' = true := by
    rw [isRoot_perm h]
    exact (mem_roots_iff last').mp (by simp [hroots'])
  by_contra hne
  have hle : hostnameOf nodes last ≤ hostnameOf nodes last' := by
    rw [hostnameOf_perm h]
    exact hostname_le_last hroots' (isRoot_perm h ▸ hroot)
  have hsame := String.le_antisymm hle (hostname_le_last hroots hroot')
  refine hnone last last' ⟨hne, hsame, .inr ⟨hroot, hroot', .inr ?_⟩⟩
  intro root hany
  exact String.not_lt.mpr (hostname_le_last hroots hany)

open Classical in
/-- The others that have their turn are the same, in the same order. -/
theorem unskipped_roots_eq {last : Bytes} (hroots : roots nodes ourPubkey = front ++ [last])
    (hroots' : roots nodes' ourPubkey = front' ++ [last]) :
    (front.filter fun pk => ¬ Skipped nodes ourPubkey pk) =
      front'.filter fun pk => ¬ Skipped nodes' ourPubkey pk := by
  have hperm : (roots nodes ourPubkey).Perm (roots nodes' ourPubkey) := roots_perm h
  rw [hroots, hroots', List.perm_append_right_iff] at hperm
  have hsorted := roots_sorted nodes ourPubkey
  have hsorted' := roots_sorted nodes' ourPubkey
  rw [hroots, List.pairwise_append] at hsorted
  rw [hroots', List.pairwise_append, ← hostnameOf_perm h] at hsorted'
  rw [← skipped_perm h]
  apply (hperm.filter _).eq_of_pairwise _ (hsorted.1.filter _) (hsorted'.1.filter _)
  intro a b ha hb hab hba
  obtain ⟨ha, hskip⟩ := List.mem_filter.mp ha
  obtain ⟨hb, hskip'⟩ := List.mem_filter.mp hb
  by_contra hne
  refine hnone a b ⟨hne, String.le_antisymm hab hba, .inr ⟨?_, ?_, .inl ?_⟩⟩
  · exact (mem_roots_iff a).mp (by simp [hroots, ha])
  · exact (mem_roots_iff b).mp (by simp [hroots, hperm.mem_iff.mpr hb])
  · exact iff_of_false (of_decide_eq_true hskip) (of_decide_eq_true hskip')

open Classical in
theorem networkRows_perm : networkRows nodes ourPubkey = networkRows nodes' ourPubkey := by
  have hperm : (roots nodes ourPubkey).Perm (roots nodes' ourPubkey) := roots_perm h
  rcases List.eq_nil_or_concat (roots nodes ourPubkey) with hempty | ⟨front, last, hroots⟩
  · have hempty' : roots nodes' ourPubkey = [] := List.nil_perm.mp (hempty ▸ hperm)
    rw [networkRows, networkRows, hempty, hempty', collectEach_nil, collectEach_nil]
  rcases List.eq_nil_or_concat (roots nodes' ourPubkey) with hempty' | ⟨front', last', hroots'⟩
  · rw [hempty', hroots, List.perm_nil, List.concat_eq_append] at hperm
    exact absurd hperm (List.append_ne_nil_of_right_ne_nil _ (List.cons_ne_nil _ _))
  rw [List.concat_eq_append] at hroots hroots'
  have hlast : last = last' := last_root_eq hnone h hroots hroots'
  subst hlast
  have hroot : isRoot nodes ourPubkey last = true := (mem_roots_iff last).mp (by simp [hroots])
  have hdraw : ∀ d, ∀ pk ∈ front.filter fun pk => ¬ Skipped nodes ourPubkey pk,
      drawRoot nodes d pk = drawRoot nodes' d pk := by
    intro d pk hpk
    have hmem : isRoot nodes ourPubkey pk = true :=
      (mem_roots_iff pk).mp (by simp [hroots, (List.mem_filter.mp hpk).1])
    rw [drawRoot, drawRoot, collectRows_perm hnone h _ (.root hmem), (keys_perm h).length_eq]
  rw [networkRows_snoc hroots, networkRows_snoc hroots', foldl_unskipped hroots,
    foldl_unskipped hroots', ← unskipped_roots_eq hnone h hroots hroots',
    List.foldl_ext _ _ _ hdraw, collectRows_perm hnone h _ (.root hroot), (keys_perm h).length_eq]

end Unambiguous

/-! With ties they differ between two orders of the map. -/

/-- The map read with one node first. -/
theorem exists_first {pk : Bytes} (hpk : pk ∈ nodes.keys) :
    ∃ first : Nodes, first.entries.Perm nodes.entries ∧ ∃ rest, first.keys = pk :: rest := by
  obtain ⟨entry, hentry, rfl⟩ := List.mem_map.mp hpk
  obtain ⟨before, after, hsplit⟩ := List.append_of_mem hentry
  have hperm : (entry :: (before ++ after)).Perm nodes.entries := by
    rw [hsplit]
    exact List.perm_middle.symm
  exact ⟨⟨_, (List.perm_nodupKeys hperm).mpr nodes.nodupKeys⟩, hperm, _, rfl⟩

/-- The map read with one node last. -/
theorem exists_last {pk : Bytes} (hpk : pk ∈ nodes.keys) :
    ∃ last : Nodes, last.entries.Perm nodes.entries ∧ ∃ rest, last.keys = rest ++ [pk] := by
  obtain ⟨entry, hentry, rfl⟩ := List.mem_map.mp hpk
  obtain ⟨before, after, hsplit⟩ := List.append_of_mem hentry
  have hperm : (before ++ after ++ [entry]).Perm nodes.entries := by
    rw [hsplit]
    exact (List.perm_append_singleton entry _).trans List.perm_middle.symm
  exact ⟨⟨_, (List.perm_nodupKeys hperm).mpr nodes.nodupKeys⟩, hperm, _, List.map_append⟩

theorem Ambiguous.symm {a b : Bytes} (h : Ambiguous nodes ourPubkey a b) :
    Ambiguous nodes ourPubkey b a := by
  refine ⟨h.ne.symm, h.hostname.symm, ?_⟩
  rcases h.shows with ⟨parent, ha, hb, hreaches⟩ | ⟨ha, hb, hturns⟩
  · exact .inl ⟨parent, hb, ha, hreaches⟩
  · exact .inr ⟨hb, ha, hturns.imp Iff.symm fun hlargest => h.hostname ▸ hlargest⟩

theorem Ambiguous.reaches {a b : Bytes} (h : Ambiguous nodes ourPubkey a b) :
    ReachesRoot nodes ourPubkey a := by
  rcases h.shows with ⟨parent, ha, -, hreaches⟩ | ⟨ha, -, -⟩
  · exact .child (placeOf_eq_some_iff.mp ha).2 hreaches
  · exact .root ha

/-- Of two nodes of one hostname the first in the map is drawn first, unless they are roots
and only one of them has its turn. -/
theorem Ambiguous.precedes_rows {a b : Bytes} {rest : List Bytes} (hkeys : nodes.keys = a :: rest)
    (h : Ambiguous nodes ourPubkey a b)
    (hturns : Skipped nodes ourPubkey a ↔ Skipped nodes ourPubkey b) :
    Precedes a b ((networkRows nodes ourPubkey).map Row.pubkey) := by
  have hle : hostnameOf nodes a ≤ hostnameOf nodes b := h.hostname ▸ String.le_refl _
  rcases h.shows with ⟨parent, ha, hb, -⟩ | ⟨ha, hb, -⟩
  · exact precedes_rows_of_placeOf hkeys h.ne.symm hle ha hb
  by_cases hboth : parentOf nodes b = some ourPubkey → parentOf nodes a = some ourPubkey
  · exact precedes_rows_of_isRoot hkeys h.ne.symm hle ha hb hboth
  obtain ⟨hparent, hnot⟩ := Classical.not_imp.mp hboth
  apply precedes_rows_of_roots_above hkeys h.ne.symm hle ha hparent
  intro root hroot habove
  rw [h.hostname, ← String.not_lt]
  intro hlt
  exact hnot (hturns.mpr ⟨hparent, root, hroot, habove, hlt⟩).1

theorem placeOf_none_of_skipped {pk : Bytes} (h : Skipped nodes ourPubkey pk) :
    placeOf nodes ourPubkey pk = none := by
  rw [placeOf, if_pos ((isRoot_iff_of_parentOf h.1).mpr (.inl rfl))]

/-- Of two that show theirs only one is passed over: both are roots, of the largest hostname. -/
theorem Ambiguous.roots_of_skipped {a b : Bytes} (h : Ambiguous nodes ourPubkey a b)
    (ha : Skipped nodes ourPubkey a) (hb : ¬ Skipped nodes ourPubkey b) :
    isRoot nodes ourPubkey a = true ∧ isRoot nodes ourPubkey b = true ∧
      ∀ root, isRoot nodes ourPubkey root = true →
        ¬ hostnameOf nodes a < hostnameOf nodes root := by
  rcases h.shows with ⟨parent, hplace, -, -⟩ | ⟨hroot, hroot', hturns | hlargest⟩
  · rw [placeOf_none_of_skipped ha] at hplace
    cases hplace
  · exact absurd (hturns.mp ha) hb
  · exact ⟨hroot, hroot', hlargest⟩

/-- The parent of the one that has its turn has answered nobody. -/
theorem Ambiguous.orphan_of_skipped {a b : Bytes} (h : Ambiguous nodes ourPubkey a b)
    (ha : Skipped nodes ourPubkey a) (hb : ¬ Skipped nodes ourPubkey b) :
    ∃ parent, parentOf nodes b = some parent ∧ nodes.lookup parent = none := by
  obtain ⟨node, hlookup⟩ := Option.isSome_iff_exists.mp h.symm.reaches.lookup_isSome
  have hparent : parentOf nodes b = some node.placement.parent := by
    rw [parentOf, hlookup]
    rfl
  refine ⟨_, hparent, ?_⟩
  rcases (isRoot_iff_of_parentOf hparent).mp (h.roots_of_skipped ha hb).2.1 with hours | hmissing
  · rw [hours] at hparent
    exact absurd ⟨hparent, h.hostname ▸ ha.2⟩ hb
  · exact hmissing

/-- So it is drawn as the last exactly when the map has it last. -/
theorem Ambiguous.rows_differ_of_skipped {a b : Bytes} (h : Ambiguous nodes ourPubkey a b)
    (ha : Skipped nodes ourPubkey a) (hb : ¬ Skipped nodes ourPubkey b) :
    ∃ first last : Nodes, first.entries.Perm nodes.entries ∧ last.entries.Perm nodes.entries ∧
      networkRows first ourPubkey ≠ networkRows last ourPubkey := by
  obtain ⟨hroot, hroot', hlargest⟩ := h.roots_of_skipped ha hb
  obtain ⟨parent, hparent, hmissing⟩ := h.orphan_of_skipped ha hb
  obtain ⟨node, hlookup⟩ := Option.isSome_iff_exists.mp h.symm.reaches.lookup_isSome
  obtain ⟨first, hfirst, rest, hkeys⟩ := exists_first (mem_keys_of_lookup hlookup)
  obtain ⟨last, hlast, rest', hkeys'⟩ := exists_last (mem_keys_of_lookup hlookup)
  refine ⟨first, last, hfirst, hlast, ?_⟩
  intro hsame
  rw [← isRoot_perm hfirst] at hroot
  have hbehind := h.hostname.symm
  rw [← hostnameOf_perm hfirst] at hbehind
  obtain ⟨before, after, hroots, hmore⟩ := roots_of_first hkeys h.ne
    (hbehind ▸ String.le_refl _) (isRoot_perm hfirst ▸ hroot') hroot
  rw [h.hostname, ← hostnameOf_perm hlast, ← isRoot_perm hlast] at hlargest
  obtain ⟨before', hroots'⟩ := roots_of_last hkeys' (isRoot_perm hlast ▸ hroot') hlargest
  obtain ⟨row, hrow, hkey, hbranch⟩ := orphan_row hroots
    (by rw [parentOf_perm hfirst]; exact hparent) (by rw [lookup_perm hfirst]; exact hmissing)
  obtain ⟨row', hrow', hkey', hbranch'⟩ := orphan_row hroots'
    (by rw [parentOf_perm hlast]; exact hparent) (by rw [lookup_perm hlast]; exact hmissing)
  obtain rfl : row = row' := List.inj_on_of_nodup_map (rows_nodup first ourPubkey) hrow
    (hsame ▸ hrow') (hkey.trans hkey'.symm)
  rw [hmore] at hbranch
  rw [hbranch] at hbranch'
  exact absurd hbranch' (by decide)

theorem Ambiguous.rows_differ {a b : Bytes} (h : Ambiguous nodes ourPubkey a b) :
    ∃ nodes₁ nodes₂ : Nodes, nodes₁.entries.Perm nodes.entries ∧
      nodes₂.entries.Perm nodes.entries ∧
      networkRows nodes₁ ourPubkey ≠ networkRows nodes₂ ourPubkey := by
  by_cases hturns : Skipped nodes ourPubkey a ↔ Skipped nodes ourPubkey b
  · obtain ⟨node, hlookup⟩ := Option.isSome_iff_exists.mp h.reaches.lookup_isSome
    obtain ⟨node', hlookup'⟩ := Option.isSome_iff_exists.mp h.symm.reaches.lookup_isSome
    obtain ⟨nodes₁, hperm₁, rest₁, hkeys₁⟩ := exists_first (mem_keys_of_lookup hlookup)
    obtain ⟨nodes₂, hperm₂, rest₂, hkeys₂⟩ := exists_first (mem_keys_of_lookup hlookup')
    refine ⟨nodes₁, nodes₂, hperm₁, hperm₂, ?_⟩
    intro hsame
    have hab := (ambiguous_of_perm hperm₁.symm h).precedes_rows hkeys₁
      (by rw [skipped_perm hperm₁]; exact hturns)
    have hba := (ambiguous_of_perm hperm₂.symm h.symm).precedes_rows hkeys₂
      (by rw [skipped_perm hperm₂]; exact hturns.symm)
    rw [← hsame] at hba
    have hdrawn := (mem_rows_iff nodes₁ ourPubkey b).mpr
      (ambiguous_of_perm hperm₁.symm h.symm).reaches
    exact hab.asymm (rows_nodup nodes₁ ourPubkey) hdrawn hba
  · by_cases hskipped : Skipped nodes ourPubkey a
    · apply h.rows_differ_of_skipped hskipped
      intro hb
      exact hturns (iff_of_true hskipped hb)
    · apply h.symm.rows_differ_of_skipped _ hskipped
      by_contra hb
      exact hturns (iff_of_false hskipped hb)

/-- For all replies and every key of our own: what is printed is the same for every order
the maps are read in exactly when no two nodes of one hostname show theirs. -/
theorem output_stable_iff (fromSlice : Bytes → Option Value) (c : Crypto)
    (ourPubkey : Bytes) (you : String) (now : UInt64)
    (replies : List (SocketAddr × Bytes)) :
    Stable fromSlice c ourPubkey you now replies ↔
      ∀ a b, ¬ Ambiguous (assemble fromSlice c now replies) ourPubkey a b := by
  constructor
  · intro hstable a b hab
    obtain ⟨nodes₁, nodes₂, hperm₁, hperm₂, hdiffer⟩ := hab.rows_differ
    exact hdiffer (hstable nodes₁ nodes₂ hperm₁ hperm₂).1
  · intro hnone nodes nodes' hperm hperm'
    have hsame := hperm.trans hperm'.symm
    refine ⟨networkRows_perm ?_ hsame, keyLines_perm hsame you⟩
    intro a b hab
    exact hnone a b (ambiguous_of_perm hperm hab)

/-! Two servers that were given one name. -/

def sameName : Crypto := idealCrypto
  [(TrustSets.serverKey, attestationSigningBytes "server" TrustSets.serverKey 1760000000),
    (TrustSets.laptopKey.toList,
      attestationSigningBytes "server" TrustSets.laptopKey.toList 1760000000)]

def namedAttestation (key : Bytes) : Bytes :=
  buildAttestationCbor "server" key 1760000000
    (sameName.sign key (attestationSigningBytes "server" key 1760000000))

def namedReply (key : Bytes) : SocketAddr × Bytes :=
  (.v4 0xC0A80114 2240, nodeRecord (namedAttestation key) false 1 aliceKey
    "192.168.1.20:2240")

theorem speaksFor_namedReply {key : Bytes}
    (h : key = TrustSets.serverKey ∨ key = TrustSets.laptopKey.toList) (pk : Bytes) :
    speaksFor readMaps sameName pk (namedReply key).2 = if key = pk then
      some (⟨"server", key, 1760000000⟩, ⟨aliceKey, false, some "192.168.1.20:2240"⟩)
    else none := by
  have hparse : parseRecord readMaps (namedReply key).2 = some (namedAttestation key,
      ⟨aliceKey, false, some "192.168.1.20:2240"⟩) := by
    rcases h with rfl | rfl
    · apply parseRecord_nodeRecord readMaps_readsMaps <;> decide +kernel
    · apply parseRecord_nodeRecord readMaps_readsMaps <;> decide +kernel
  have hverify : verifyAttestationCbor readMaps sameName (namedAttestation key) =
      .ok ⟨"server", key, 1760000000⟩ := by
    rcases h with rfl | rfl
    · apply verifyAttestationCbor_build readMaps_readsMaps <;> decide +kernel
    · apply verifyAttestationCbor_build readMaps_readsMaps <;> decide +kernel
  rw [speaksFor, hparse]
  simp only [hverify]

def namedReplies : List (SocketAddr × Bytes) :=
  [namedReply TrustSets.serverKey, namedReply TrustSets.laptopKey.toList]

theorem lookup_namedReplies {key : Bytes}
    (h : key = TrustSets.serverKey ∨ key = TrustSets.laptopKey.toList) :
    (assemble readMaps sameName 1760000000 namedReplies).lookup key =
      some (entryFor 1760000000 key (.v4 0xC0A80114 2240)
        (⟨"server", key, 1760000000⟩, ⟨aliceKey, false, some "192.168.1.20:2240"⟩)) := by
  have hother : TrustSets.serverKey ≠ TrustSets.laptopKey.toList := by decide
  rw [lookup_assemble, namedReplies, List.findSome?_cons, List.findSome?_singleton,
    speaksFor_namedReply (.inl rfl), speaksFor_namedReply (.inr rfl)]
  rcases h with rfl | rfl
  · rw [if_pos rfl]
    rfl
  · rw [if_neg hother, if_pos rfl]
    rfl

/-- Two servers of one name that were asked by us. -/
theorem ambiguous_namedReplies : Ambiguous (assemble readMaps sameName 1760000000 namedReplies)
    aliceKey TrustSets.serverKey TrustSets.laptopKey.toList := by
  have hparent : ∀ key, key = TrustSets.serverKey ∨ key = TrustSets.laptopKey.toList →
      parentOf (assemble readMaps sameName 1760000000 namedReplies) key = some aliceKey := by
    intro key hkey
    rw [parentOf, lookup_namedReplies hkey]
    rfl
  have hhostname : ∀ key, key = TrustSets.serverKey ∨ key = TrustSets.laptopKey.toList →
      hostnameOf (assemble readMaps sameName 1760000000 namedReplies) key = "server" := by
    intro key hkey
    rw [hostnameOf, lookup_namedReplies hkey]
    rfl
  have hours := hparent TrustSets.serverKey (.inl rfl)
  have hours' := hparent TrustSets.laptopKey.toList (.inr rfl)
  have hsame := (hhostname _ (.inl rfl)).trans (hhostname _ (.inr rfl)).symm
  refine ⟨by decide, hsame, .inr ⟨?_, ?_, .inl ?_⟩⟩
  · exact (isRoot_iff_of_parentOf hours).mpr (.inl rfl)
  · exact (isRoot_iff_of_parentOf hours').mpr (.inl rfl)
  · rw [Skipped, Skipped, hours, hours', hsame]

theorem same_name_not_stable :
    ¬ Stable readMaps sameName aliceKey "alice" 1760000000 namedReplies := by
  intro hstable
  obtain ⟨nodes₁, nodes₂, hperm₁, hperm₂, hdiffer⟩ := ambiguous_namedReplies.rows_differ
  exact hdiffer (hstable nodes₁ nodes₂ hperm₁ hperm₂).1

end Weverywhere.StableOutput
