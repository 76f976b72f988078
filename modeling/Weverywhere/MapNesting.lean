import Weverywhere.MapCoverage
import Weverywhere.Outlines
import Mathlib.Order.WellFoundedSet

/-!
How `print_network_map` nests the rows (`src/src/command/netmap.rs`). A node with our
own key as its parent is drawn as a root, and where our own daemon is among the
nodes it is that daemon's child as well. The rows are an outline of the nodes as long
as no such node comes after the root our daemon is drawn under.
-/
namespace Weverywhere.MapNesting

open ByteStrings NetworkMap MapRows MapCoverage Outlines

/-- Where a node belongs: at the left margin, or under its parent. -/
def placeOf (nodes : Nodes) (ourPubkey pk : Bytes) : Option Bytes :=
  if isRoot nodes ourPubkey pk then none else parentOf nodes pk

/-- A link to a parent that is not us. -/
def Link (nodes : Nodes) (ourPubkey child parent : Bytes) : Prop :=
  parentOf nodes child = some parent ∧ parent ≠ ourPubkey

def Acyclic (nodes : Nodes) (ourPubkey : Bytes) : Prop :=
  ∀ pk, ¬ Relation.TransGen (Link nodes ourPubkey) pk pk

def level (row : Row) : ℕ := row.indent.length / 4

/-- The deeper rows right below a row. -/
def blockOf (row : Row) (after : List Row) : List Row :=
  after.takeWhile fun r => level row < level r

/-- The rows lie as the parents say. -/
structure Nests (nodes : Nodes) (ourPubkey : Bytes) (rows : List Row) : Prop where
  topLevel : ∀ pk, isRoot nodes ourPubkey pk = true → ∃ row ∈ rows, row.pubkey = pk ∧ level row = 0
  nested : ∀ pk parent, isRoot nodes ourPubkey pk = false → parentOf nodes pk = some parent →
    ∃ before row after, rows = before ++ row :: after ∧ row.pubkey = parent ∧
      ∃ child ∈ blockOf row after, child.pubkey = pk ∧ level child = level row + 1
  sorted : rows.Pairwise fun row later =>
    placeOf nodes ourPubkey row.pubkey = placeOf nodes ourPubkey later.pubkey →
      row.hostname ≤ later.hostname
  connector : EachWithRest (fun row after => row.branch = "`--" ↔
    ∀ r ∈ after, placeOf nodes ourPubkey r.pubkey ≠ placeOf nodes ourPubkey row.pubkey) rows
  bars : EachWithRest (fun row after => ∀ r ∈ blockOf row after,
    (row.indent ++ if ∃ s ∈ after, placeOf nodes ourPubkey s.pubkey =
      placeOf nodes ourPubkey row.pubkey then "|   " else "    ").toList <+: r.indent.toList) rows

/-- `below` is drawn somewhere under `above`, or is `above`. -/
def Above (nodes : Nodes) (ourPubkey above below : Bytes) : Prop :=
  Relation.ReflTransGen (fun parent child => placeOf nodes ourPubkey child = some parent) above
    below

/-- Behind the root that our own daemon is drawn under, no root has us as its parent. -/
def NoneAfterOurs (nodes : Nodes) (ourPubkey : Bytes) : Prop :=
  EachWithRest (fun root after => Above nodes ourPubkey root ourPubkey →
    ∀ pk ∈ after, parentOf nodes pk ≠ some ourPubkey) (roots nodes ourPubkey)

variable {nodes : Nodes} {ourPubkey : Bytes}

/-! Places. -/

theorem placeOf_eq_some_iff {pk parent : Bytes} : placeOf nodes ourPubkey pk = some parent ↔
    isRoot nodes ourPubkey pk = false ∧ parentOf nodes pk = some parent := by
  unfold placeOf
  split_ifs with hroot
  · simp [hroot]
  · simp [hroot]

theorem isRoot_iff_of_parentOf {pk parent : Bytes} (h : parentOf nodes pk = some parent) :
    isRoot nodes ourPubkey pk = true ↔ parent = ourPubkey ∨ nodes.lookup parent = none := by
  obtain ⟨node, hlookup, rfl⟩ := lookup_of_parentOf h
  simp [isRoot, hlookup]

/-- The children of a node that are not drawn as roots. -/
def kidsOf (nodes : Nodes) (ourPubkey pk : Bytes) : List Bytes :=
  (childrenOf nodes pk).filter fun child => !isRoot nodes ourPubkey child

theorem mem_kidsOf_iff {pk child : Bytes} :
    child ∈ kidsOf nodes ourPubkey pk ↔ placeOf nodes ourPubkey child = some pk := by
  rw [kidsOf, List.mem_filter, mem_childrenOf_iff, placeOf_eq_some_iff, and_comm]
  simp

theorem kidsOf_nodup (pk : Bytes) : (kidsOf nodes ourPubkey pk).Nodup := by
  apply List.Nodup.filter
  rw [childrenOf, sortByHostname, (List.perm_insertionSort _ _).nodup_iff]
  exact nodes.nodupKeys.filter _

theorem roots_nodup : (roots nodes ourPubkey).Nodup := by
  rw [roots, sortByHostname, (List.perm_insertionSort _ _).nodup_iff]
  exact nodes.nodupKeys.filter _

theorem sortByHostname_pairwise (pks : List Bytes) : (sortByHostname nodes pks).Pairwise
    fun a b => hostnameOf nodes a ≤ hostnameOf nodes b := by
  have : Std.Total fun a b => hostnameOf nodes a ≤ hostnameOf nodes b :=
    ⟨fun a b => String.le_total (hostnameOf nodes a) (hostnameOf nodes b)⟩
  have : IsTrans Bytes fun a b => hostnameOf nodes a ≤ hostnameOf nodes b :=
    ⟨fun _ _ _ hab hbc => String.le_trans hab hbc⟩
  exact List.pairwise_insertionSort _ _

/-- Without circles every node is below a root: the parents cannot go on for ever. -/
theorem reachesRoot_of_acyclic (hacyclic : Acyclic nodes ourPubkey) {pk : Bytes}
    (hpk : pk ∈ nodes.keys) : ReachesRoot nodes ourPubkey pk := by
  have horder : IsStrictOrder Bytes fun parent child =>
      Relation.TransGen (Link nodes ourPubkey) child parent := {
    irrefl := fun a => hacyclic a
    trans := fun _ _ _ hab hbc => hbc.trans hab }
  have hwell := (List.finite_toSet nodes.keys).wellFoundedOn
    (r := fun parent child => Relation.TransGen (Link nodes ourPubkey) child parent)
  refine hwell.induction hpk ?_
  intro pk hpk ih
  by_cases hroot : isRoot nodes ourPubkey pk = true
  · exact .root hroot
  obtain ⟨node, hlookup⟩ := Option.isSome_iff_exists.mp
    (AList.lookup_isSome.mpr (AList.mem_keys.mpr hpk))
  have hparent : parentOf nodes pk = some node.placement.parent := by
    rw [parentOf, hlookup]
    rfl
  rw [isRoot_iff_of_parentOf hparent, not_or] at hroot
  obtain ⟨parent, hnode⟩ := Option.ne_none_iff_exists'.mp hroot.2
  exact .child hparent (ih _ (mem_keys_of_lookup hnode) (.single ⟨hparent, hroot.1⟩))

/-! Rows of an outline. -/

def indentOf (path : List Bool) : String := path.foldl childIndent ""

def rowFor (nodes : Nodes) (e : Entry Bytes) : Row :=
  match nodes.lookup e.label with
  | some node => rowOf e.label node (indentOf e.path) e.last
  | none => ⟨indentOf e.path, if e.last then "`--" else "|--", "", e.label, .inl "", "", ""⟩

theorem indentOf_snoc (path : List Bool) (last : Bool) :
    indentOf (path ++ [last]) = childIndent (indentOf path) last := by
  rw [indentOf, List.foldl_append]
  rfl

theorem childIndent_length (indent : String) (last : Bool) :
    (childIndent indent last).length = indent.length + 4 := by
  rw [childIndent, String.length_append]
  cases last <;> rfl

theorem indentOf_length (path : List Bool) : (indentOf path).length = 4 * path.length := by
  induction path using List.reverseRecOn with
  | nil => rfl
  | append_singleton path last ih =>
    rw [indentOf_snoc, childIndent_length, ih, List.length_append, List.length_singleton]
    omega

theorem indentOf_extends {path path' : List Bool} (h : path <+: path') :
    (indentOf path).toList <+: (indentOf path').toList := by
  obtain ⟨rest, rfl⟩ := h
  induction rest using List.reverseRecOn with
  | nil => rw [List.append_nil]
  | append_singleton rest last ih =>
    rw [← List.append_assoc, indentOf_snoc, childIndent, String.toList_append]
    exact ih.trans (List.prefix_append _ _)

theorem rowFor_pubkey (e : Entry Bytes) : (rowFor nodes e).pubkey = e.label := by
  unfold rowFor
  split <;> rfl

theorem rowFor_indent (e : Entry Bytes) : (rowFor nodes e).indent = indentOf e.path := by
  unfold rowFor
  split <;> rfl

theorem rowFor_branch (e : Entry Bytes) :
    (rowFor nodes e).branch = if e.last then "`--" else "|--" := by
  unfold rowFor
  split <;> rfl

theorem rowFor_hostname (e : Entry Bytes) :
    (rowFor nodes e).hostname = hostnameOf nodes e.label := by
  unfold rowFor hostnameOf
  cases nodes.lookup e.label <;> rfl

theorem level_rowFor (e : Entry Bytes) : level (rowFor nodes e) = e.path.length := by
  rw [level, rowFor_indent, indentOf_length]
  omega

theorem blockOf_map (e : Entry Bytes) (after : List (Entry Bytes)) :
    blockOf (rowFor nodes e) (after.map (rowFor nodes)) =
      (after.takeWhile fun f => e.path.length < f.path.length).map (rowFor nodes) := by
  rw [blockOf, List.takeWhile_map]
  simp only [Function.comp_def, level_rowFor]

theorem placeOf_of_mem_roots {pk : Bytes} (hpk : pk ∈ roots nodes ourPubkey) :
    placeOf nodes ourPubkey pk = none := by
  rw [placeOf, if_pos ((mem_roots_iff pk).mp hpk)]

section AllNodes

variable {lines : List (Entry Bytes)}
  (h : Outline (kidsOf nodes ourPubkey) [] (roots nodes ourPubkey) lines)

include h

/-- The row of a node that has a parent is in the block below the parent's. -/
theorem nested_of_outline (hall : ∀ pk ∈ nodes.keys, pk ∈ lines.map Entry.label) {pk parent : Bytes}
    (hroot : isRoot nodes ourPubkey pk = false) (hparent : parentOf nodes pk = some parent) :
    ∃ before row after, lines.map (rowFor nodes) = before ++ row :: after ∧ row.pubkey = parent ∧
      ∃ child ∈ blockOf row after, child.pubkey = pk ∧ level child = level row + 1 := by
  obtain ⟨node, hnode⟩ : ∃ node, nodes.lookup parent = some node := by
    by_contra hnone
    have hmissing : nodes.lookup parent = none :=
      Option.eq_none_iff_forall_ne_some.mpr fun node hnode => hnone ⟨node, hnode⟩
    rw [(isRoot_iff_of_parentOf hparent).mpr (.inr hmissing)] at hroot
    cases hroot
  obtain ⟨e, he, rfl⟩ := List.mem_map.mp (hall parent (mem_keys_of_lookup hnode))
  obtain ⟨before, after, hsplit⟩ := List.append_of_mem he
  have hkid : pk ∈ kidsOf nodes ourPubkey e.label :=
    mem_kidsOf_iff.mpr (placeOf_eq_some_iff.mpr ⟨hroot, hparent⟩)
  obtain ⟨last, hline⟩ := (eachWithRest_iff.mp h.block before e after hsplit).exists_line hkid
  refine ⟨before.map (rowFor nodes), rowFor nodes e, after.map (rowFor nodes), ?_,
    rowFor_pubkey e, rowFor nodes ⟨pk, e.path ++ [e.last], last⟩, ?_, rowFor_pubkey _, ?_⟩
  · rw [hsplit, List.map_append, List.map_cons]
  · rw [blockOf_map]
    exact List.mem_map_of_mem hline
  · rw [level_rowFor, level_rowFor, List.length_append, List.length_singleton]

/-- A line is marked as a last one when no later row has its place. -/
theorem last_iff_rows (hnodup : (lines.map Entry.label).Nodup) {before : List (Entry Bytes)}
    {e : Entry Bytes} {after : List (Entry Bytes)} (hsplit : lines = before ++ e :: after) :
    e.last = true ↔ ∀ r ∈ after.map (rowFor nodes),
      placeOf nodes ourPubkey r.pubkey ≠ placeOf nodes ourPubkey (rowFor nodes e).pubkey := by
  have hlast := h.last_iff (fun _ _ hb => mem_kidsOf_iff.mp hb)
    (fun _ hb => placeOf_of_mem_roots hb) (fun _ _ => nofun) hnodup
  rw [eachWithRest_iff.mp hlast before e after hsplit]
  simp only [List.forall_mem_map, rowFor_pubkey]

/-- The rows of an outline of all nodes, by the kids of each, lie as the parents say. -/
theorem nests_of_outline (hnodup : (lines.map Entry.label).Nodup)
    (hall : ∀ pk ∈ nodes.keys, pk ∈ lines.map Entry.label) :
    Nests nodes ourPubkey (lines.map (rowFor nodes)) := by
  refine ⟨?_, fun _ _ hroot hparent => nested_of_outline h hall hroot hparent, ?_, ?_, ?_⟩
  · intro pk hroot
    obtain ⟨last, hline⟩ := h.exists_line ((mem_roots_iff pk).mpr hroot)
    refine ⟨_, List.mem_map_of_mem hline, rowFor_pubkey _, ?_⟩
    rw [level_rowFor, List.length_nil]
  · rw [List.pairwise_map]
    have hsorted := h.pairwise (fun _ _ hb => mem_kidsOf_iff.mp hb)
      (fun _ hb => placeOf_of_mem_roots hb) (fun _ _ => nofun) hnodup
      (fun a => (sortByHostname_pairwise _).filter _) (sortByHostname_pairwise _)
    simpa only [rowFor_pubkey, rowFor_hostname] using hsorted
  · rw [eachWithRest_map, eachWithRest_iff]
    intro before e after hsplit
    have hbranch : (if e.last then "`--" else "|--") = "`--" ↔ e.last = true := by
      cases e.last <;> decide
    rw [rowFor_branch, hbranch]
    exact last_iff_rows h hnodup hsplit
  · rw [eachWithRest_map, eachWithRest_iff]
    intro before e after hsplit r hr
    rw [blockOf_map] at hr
    obtain ⟨f, hf, rfl⟩ := List.mem_map.mp hr
    have hbelow := eachWithRest_iff.mp h.block before e after hsplit
    have hextends := indentOf_extends (hbelow.path_extends f hf)
    rw [indentOf_snoc, childIndent] at hextends
    have hiff : (∃ s ∈ after.map (rowFor nodes), placeOf nodes ourPubkey s.pubkey =
        placeOf nodes ourPubkey (rowFor nodes e).pubkey) ↔ ¬ e.last = true := by
      rw [last_iff_rows h hnodup hsplit]
      push Not
      rfl
    rw [rowFor_indent, rowFor_indent]
    by_cases hend : e.last = true
    · rw [if_neg (by rw [hiff]; exact not_not.mpr hend)]
      rwa [if_pos hend] at hextends
    · rw [if_pos (hiff.mpr hend)]
      rwa [if_neg hend] at hextends

end AllNodes

/-! The drawing is an outline. -/

/-- No node is printed before the one it is drawn under, and none twice. -/
structure Ready (nodes : Nodes) (ourPubkey : Bytes) (d : Drawing) : Prop where
  nodup : d.printed.Nodup
  parents : ∀ pk ∈ d.printed, ∀ parent, placeOf nodes ourPubkey pk = some parent →
    parent ∈ d.printed

/-- The drawing with the lines added. -/
def withLines (nodes : Nodes) (d : Drawing) (lines : List (Entry Bytes)) : Drawing :=
  ⟨d.printed ++ lines.map Entry.label, d.rows ++ lines.map (rowFor nodes)⟩

theorem withLines_append (d : Drawing) (lines more : List (Entry Bytes)) :
    withLines nodes d (lines ++ more) = withLines nodes (withLines nodes d lines) more := by
  simp [withLines]

theorem nodup_collectRows (depth : ℕ) (pk : Bytes) (indent : String) (isLast : Bool)
    {d : Drawing} (hd : d.printed.Nodup) :
    (collectRows nodes depth pk indent isLast d).printed.Nodup := by
  have hadd : ∀ (d : Drawing) pk node indent isLast, nodes.lookup pk = some node →
      pk ∉ d.printed → d.printed.Nodup → (d.add (rowOf pk node indent isLast)).printed.Nodup := by
    intro d pk node indent isLast _ hfresh hd
    exact hd.append (List.nodup_singleton pk) (List.disjoint_singleton.mpr hfresh)
  exact collectRows_invariant hadd depth pk indent isLast hd

/-- A node whose turn it is: it is not yet printed, and what it is drawn under is. -/
structure Due (nodes : Nodes) (ourPubkey : Bytes) (d : Drawing) (pk : Bytes) : Prop where
  known : (nodes.lookup pk).isSome = true
  fresh : pk ∉ d.printed
  place : ∀ parent, placeOf nodes ourPubkey pk = some parent → parent ∈ d.printed

/-- What a call draws for a node that is due: it and everything below it. -/
def DrawsOutline (nodes : Nodes) (ourPubkey : Bytes) (depth : ℕ) : Prop :=
  ∀ (pk : Bytes) (path : List Bool) (isLast : Bool) (d : Drawing), unprinted nodes d ≤ depth →
    Ready nodes ourPubkey d → Due nodes ourPubkey d pk →
    (Above nodes ourPubkey pk ourPubkey → ∀ other, parentOf nodes other = some ourPubkey →
      other = pk ∨ other ∈ d.printed) →
    ∃ below, Outline (kidsOf nodes ourPubkey) (path ++ [isLast]) (kidsOf nodes ourPubkey pk) below ∧
      collectRows nodes depth pk (indentOf path) isLast d =
        withLines nodes d (⟨pk, path, isLast⟩ :: below)

/-- The lines of a node and of what is below it, each under its place. -/
theorem place_cases {pk : Bytes} {path pathBelow : List Bool} {isLast : Bool}
    {below : List (Entry Bytes)}
    (hbelow : Outline (kidsOf nodes ourPubkey) pathBelow (kidsOf nodes ourPubkey pk) below)
    {e : Entry Bytes} (he : e ∈ below) : ∃ f ∈ (⟨pk, path, isLast⟩ : Entry Bytes) :: below,
      placeOf nodes ourPubkey e.label = some f.label := by
  rcases hbelow.label_cases he with hkid | ⟨f, hf, hkid⟩
  · exact ⟨_, List.mem_cons_self, mem_kidsOf_iff.mp hkid⟩
  · exact ⟨f, List.mem_cons_of_mem _ hf, mem_kidsOf_iff.mp hkid⟩

/-- A drawing with the lines of a due node is ready, and its siblings stay due. -/
theorem Ready.withLines {d : Drawing} (h : Ready nodes ourPubkey d) {pk : Bytes}
    (hpk : Due nodes ourPubkey d pk) {path : List Bool} {isLast : Bool}
    {below : List (Entry Bytes)}
    (hbelow : ∀ e ∈ below, ∃ f ∈ (⟨pk, path, isLast⟩ : Entry Bytes) :: below,
      placeOf nodes ourPubkey e.label = some f.label)
    (hnodup : (withLines nodes d (⟨pk, path, isLast⟩ :: below)).printed.Nodup) :
    Ready nodes ourPubkey (withLines nodes d (⟨pk, path, isLast⟩ :: below)) ∧
      ∀ other, other ≠ pk → Due nodes ourPubkey d other →
        Due nodes ourPubkey (withLines nodes d (⟨pk, path, isLast⟩ :: below)) other := by
  have hapart := (List.nodup_append.mp hnodup).2.2
  constructor
  · refine ⟨hnodup, ?_⟩
    intro other hother parent hparent
    rcases List.mem_append.mp hother with hother | hother
    · exact List.mem_append_left _ (h.parents other hother parent hparent)
    · obtain ⟨e, he, rfl⟩ := List.mem_map.mp hother
      rcases List.mem_cons.mp he with rfl | he
      · exact List.mem_append_left _ (hpk.place parent hparent)
      · obtain ⟨f, hf, hplace⟩ := hbelow e he
        rw [hplace] at hparent
        rw [← Option.some.inj hparent]
        exact List.mem_append_right _ (List.mem_map_of_mem hf)
  · intro other hne hdue
    refine ⟨hdue.known, ?_,
      fun parent hparent => List.mem_append_left _ (hdue.place parent hparent)⟩
    intro hprinted
    rcases List.mem_append.mp hprinted with hprinted | hprinted
    · exact hdue.fresh hprinted
    · obtain ⟨e, he, rfl⟩ := List.mem_map.mp hprinted
      rcases List.mem_cons.mp he with rfl | he
      · exact hne rfl
      · -- it would be below the node, and is due under one printed before
        obtain ⟨f, hf, hplace⟩ := hbelow e he
        exact hapart _ (hdue.place _ hplace) _ (List.mem_map_of_mem hf) rfl

/-- A loop over siblings that are due draws their outline, one after the other. -/
theorem collectEach_outline {depth : ℕ} (hcall : DrawsOutline nodes ourPubkey depth)
    (pks : List Bytes) (path : List Bool) (d : Drawing) (hd : unprinted nodes d ≤ depth)
    (hready : Ready nodes ourPubkey d) (hdue : ∀ pk ∈ pks, Due nodes ourPubkey d pk)
    (hnodup : pks.Nodup)
    (hafter : EachWithRest (fun pk after => Above nodes ourPubkey pk ourPubkey →
      ∀ other ∈ after, parentOf nodes other ≠ some ourPubkey) pks)
    (hours : ∀ pk ∈ pks, Above nodes ourPubkey pk ourPubkey →
      ∀ other, parentOf nodes other = some ourPubkey → other ∈ pks ∨ other ∈ d.printed) :
    ∃ lines, Outline (kidsOf nodes ourPubkey) path pks lines ∧
      collectEach (collectRows nodes depth) pks (indentOf path) d = withLines nodes d lines := by
  induction pks generalizing d with
  | nil => exact ⟨[], .nil path, by simp [collectEach_nil, withLines]⟩
  | cons pk pks ih =>
    have hpk := hdue pk List.mem_cons_self
    obtain ⟨hnotin, hrest⟩ := List.nodup_cons.mp hnodup
    have hhead : Above nodes ourPubkey pk ourPubkey → ∀ other,
        parentOf nodes other = some ourPubkey → other = pk ∨ other ∈ d.printed := by
      intro habove other hother
      rcases hours pk List.mem_cons_self habove other hother with hmem | hprinted
      · rcases List.mem_cons.mp hmem with hself | hlater
        · exact .inl hself
        · exact absurd hother (hafter.1 habove other hlater)
      · exact .inr hprinted
    obtain ⟨below, hbelow, hdrawn⟩ := hcall pk path pks.isEmpty d hd hready hpk hhead
    have hnodup' : (collectRows nodes depth pk (indentOf path) pks.isEmpty d).printed.Nodup :=
      nodup_collectRows depth pk (indentOf path) pks.isEmpty hready.nodup
    have hd' := unprinted_collectRows_le depth pk (indentOf path) pks.isEmpty hd
    rw [hdrawn] at hnodup' hd'
    obtain ⟨hready', hdue'⟩ := hready.withLines hpk (fun e he => place_cases hbelow he) hnodup'
    obtain ⟨later, hlater, hloop⟩ := ih (withLines nodes d (⟨pk, path, pks.isEmpty⟩ :: below)) hd'
      hready'
      (fun other hother => hdue' other (fun hsame => hnotin (hsame ▸ hother))
        (hdue other (List.mem_cons_of_mem pk hother)))
      hrest hafter.2
      (by
        intro other hother habove child hchild
        rcases hours other (List.mem_cons_of_mem pk hother) habove child hchild with hmem | hprinted
        · rcases List.mem_cons.mp hmem with rfl | hlater
          · exact .inr (List.mem_append_right _ List.mem_cons_self)
          · exact .inl hlater
        · exact .inr (List.mem_append_left _ hprinted))
    refine ⟨⟨pk, path, pks.isEmpty⟩ :: (below ++ later), .cons hbelow hlater, ?_⟩
    rw [collectEach_cons, hdrawn, hloop, ← withLines_append, List.cons_append]

/-- The children of a due node that are left to draw are its kids. -/
theorem filter_childrenOf_eq (indent : String) (isLast : Bool)
    (hacyclic : Acyclic nodes ourPubkey) {pk : Bytes} {node : Node} {d : Drawing}
    (hlookup : nodes.lookup pk = some node) (hready : Ready nodes ourPubkey d)
    (hpk : Due nodes ourPubkey d pk)
    (hours : Above nodes ourPubkey pk ourPubkey → ∀ other, parentOf nodes other = some ourPubkey →
      other = pk ∨ other ∈ d.printed) :
    ((childrenOf nodes pk).filter fun child =>
      child ∉ (d.add (rowOf pk node indent isLast)).printed) = kidsOf nodes ourPubkey pk := by
  apply List.filter_congr
  intro child hchild
  rw [mem_childrenOf_iff] at hchild
  by_cases hroot : isRoot nodes ourPubkey child = true
  · -- the node is our own, and its children have been drawn as roots
    obtain rfl : pk = ourPubkey := by
      rcases (isRoot_iff_of_parentOf hchild).mp hroot with hsame | hnone
      · exact hsame
      · rw [hlookup] at hnone
        cases hnone
    have hprinted : child ∈ (d.add (rowOf pk node indent isLast)).printed := by
      rcases hours .refl child hchild with rfl | hdrawn
      · exact List.mem_append_right _ (List.mem_singleton_self _)
      · exact List.mem_append_left _ hdrawn
    simp only [hprinted, hroot, not_true_eq_false, decide_false, Bool.not_true]
  · have hplace : placeOf nodes ourPubkey child = some pk :=
      placeOf_eq_some_iff.mpr ⟨Bool.eq_false_iff.mpr hroot, hchild⟩
    have hfresh : child ∉ (d.add (rowOf pk node indent isLast)).printed := by
      intro hprinted
      rcases List.mem_append.mp hprinted with hdrawn | hself
      · exact hpk.fresh (hready.parents child hdrawn pk hplace)
      · obtain rfl : child = pk := List.mem_singleton.mp hself
        rw [isRoot_iff_of_parentOf hchild, not_or] at hroot
        exact hacyclic child (.single ⟨hchild, hroot.1⟩)
    simp only [hfresh, hroot, not_false_eq_true, decide_true, Bool.not_false]

/-- By induction on the nesting: a call for a due node draws the outline below it. -/
theorem collectRows_outline (hacyclic : Acyclic nodes ourPubkey) (depth : ℕ) :
    DrawsOutline nodes ourPubkey depth := by
  induction depth with
  | zero =>
    intro pk path isLast d hd hready hpk hours
    obtain ⟨node, hlookup⟩ := Option.isSome_iff_exists.mp hpk.known
    have hless := unprinted_add_lt hlookup hpk.fresh (indentOf path) isLast
    omega
  | succ depth ih =>
    intro pk path isLast d hd hready hpk hours
    obtain ⟨node, hlookup⟩ := Option.isSome_iff_exists.mp hpk.known
    have hless := unprinted_add_lt hlookup hpk.fresh (indentOf path) isLast
    have hadd : d.add (rowOf pk node (indentOf path) isLast) =
        withLines nodes d [⟨pk, path, isLast⟩] := by
      simp [Drawing.add, withLines, rowFor, hlookup, rowOf]
    have hchildren := filter_childrenOf_eq (indentOf path) isLast hacyclic hlookup hready hpk hours
    have hnodup : (withLines nodes d [⟨pk, path, isLast⟩]).printed.Nodup :=
      hready.nodup.append (List.nodup_singleton pk) (List.disjoint_singleton.mpr hpk.fresh)
    have hready' := (hready.withLines hpk (by simp) hnodup).1
    have hfresh : ∀ kid ∈ kidsOf nodes ourPubkey pk,
        kid ∉ (withLines nodes d [⟨pk, path, isLast⟩]).printed := by
      intro kid hkid
      rw [← hchildren, List.mem_filter, hadd] at hkid
      exact of_decide_eq_true hkid.2
    have hself : pk ∈ (withLines nodes d [⟨pk, path, isLast⟩]).printed :=
      List.mem_append_right _ (List.mem_singleton_self _)
    rw [hadd] at hless hchildren
    have hkids : ∀ kid ∈ kidsOf nodes ourPubkey pk,
        Due nodes ourPubkey (withLines nodes d [⟨pk, path, isLast⟩]) kid := by
      intro kid hkid
      have hplace := mem_kidsOf_iff.mp hkid
      obtain ⟨kidNode, hnode, -⟩ := lookup_of_parentOf (placeOf_eq_some_iff.mp hplace).2
      refine ⟨by rw [hnode]; rfl, hfresh kid hkid, ?_⟩
      intro parent hparent
      rw [hplace] at hparent
      rwa [← Option.some.inj hparent]
    have hprinted : ∀ kid ∈ kidsOf nodes ourPubkey pk, Above nodes ourPubkey kid ourPubkey →
        ∀ other, parentOf nodes other = some ourPubkey →
          other ∈ (withLines nodes d [⟨pk, path, isLast⟩]).printed := by
      intro kid hkid habove other hother
      have hplace := mem_kidsOf_iff.mp hkid
      rcases hours (.head hplace habove) other hother with rfl | hdrawn
      · exact hself
      · exact List.mem_append_left _ hdrawn
    obtain ⟨below, hbelow, hloop⟩ := collectEach_outline ih (kidsOf nodes ourPubkey pk)
      (path ++ [isLast]) _ (by omega) hready' hkids (kidsOf_nodup pk)
      (eachWithRest_of_forall fun kid hkid rest hrest habove other hother hparent =>
        hfresh other (hrest other hother) (hprinted kid hkid habove other hparent))
      (fun kid hkid habove other hother => .inr (hprinted kid hkid habove other hother))
    refine ⟨below, hbelow, ?_⟩
    rw [collectRows_fresh hlookup hpk.fresh, hadd, hchildren, ← indentOf_snoc, hloop,
      ← withLines_append, List.singleton_append]

theorem networkRows_outline (hacyclic : Acyclic nodes ourPubkey)
    (hnone : NoneAfterOurs nodes ourPubkey) :
    ∃ lines, Outline (kidsOf nodes ourPubkey) [] (roots nodes ourPubkey) lines ∧
      networkRows nodes ourPubkey = lines.map (rowFor nodes) := by
  have hempty : Ready nodes ourPubkey ⟨[], []⟩ := ⟨List.nodup_nil, by simp⟩
  have hdue : ∀ pk ∈ roots nodes ourPubkey, Due nodes ourPubkey ⟨[], []⟩ pk := by
    intro pk hpk
    have hroot := (mem_roots_iff pk).mp hpk
    refine ⟨(ReachesRoot.root hroot).lookup_isSome, List.not_mem_nil, ?_⟩
    intro parent hparent
    rw [placeOf, if_pos hroot] at hparent
    cases hparent
  have hours : ∀ pk ∈ roots nodes ourPubkey, Above nodes ourPubkey pk ourPubkey →
      ∀ other, parentOf nodes other = some ourPubkey →
        other ∈ roots nodes ourPubkey ∨ other ∈ (⟨[], []⟩ : Drawing).printed :=
    fun _ _ _ other hother =>
      .inl ((mem_roots_iff other).mpr ((isRoot_iff_of_parentOf hother).mpr (.inl rfl)))
  obtain ⟨lines, hlines, hdrawn⟩ := collectEach_outline
    (collectRows_outline hacyclic nodes.keys.length) (roots nodes ourPubkey) [] ⟨[], []⟩
    (List.length_filter_le _ _) hempty hdue roots_nodup hnone hours
  refine ⟨lines, hlines, ?_⟩
  have hindent : indentOf [] = "" := rfl
  rw [networkRows, ← hindent, hdrawn]
  exact List.nil_append _

/-! A root that comes too late. -/

theorem collectEach_append (collect : Bytes → String → Bool → Drawing → Drawing)
    (front : List Bytes) {back : List Bytes} (hback : back ≠ []) (indent : String) (d : Drawing) :
    collectEach collect (front ++ back) indent d =
      collectEach collect back indent (front.foldl (fun d pk => collect pk indent false d) d) := by
  induction front generalizing d with
  | nil => rfl
  | cons pk front ih =>
    have hmore : (front ++ back).isEmpty = false := by
      rw [List.isEmpty_eq_false_iff]
      exact List.append_ne_nil_of_right_ne_nil front hback
    rw [List.cons_append, collectEach_cons, hmore, ih, List.foldl_cons]

/-- A row that a call adds is the node's own, or is indented. -/
theorem rows_collectRows {Q : Row → Prop} (hQ : ∀ row : Row, 4 ≤ row.indent.length → Q row)
    (depth : ℕ) (pk : Bytes) (indent : String) (isLast : Bool) {d : Drawing}
    (hown : ∀ node, Q (rowOf pk node indent isLast)) (hd : ∀ row ∈ d.rows, Q row) :
    ∀ row ∈ (collectRows nodes depth pk indent isLast d).rows, Q row := by
  refine @collectRows_keeps nodes (fun pk indent isLast => ∀ node, Q (rowOf pk node indent isLast))
    (fun d => ∀ row ∈ d.rows, Q row) ?_ ?_ depth pk indent isLast hown d hd
  · intro pk indent isLast child childLast _ _ node
    apply hQ
    rw [rowOf, childIndent_length]
    omega
  · intro d pk node indent isLast hown _ _ hd row hrow
    rcases List.mem_append.mp hrow with hold | hsame
    · exact hd row hold
    · rw [List.mem_singleton.mp hsame]
      exact hown node

/-- The drawing after the turns of the roots in `front`. -/
structure PartDrawn (nodes : Nodes) (front : List Bytes) (d : Drawing) : Prop where
  left : unprinted nodes d ≤ nodes.keys.length
  drawn : Drawn nodes d
  closed : ClosedSince nodes ⟨[], []⟩ d
  rows : ∀ row ∈ d.rows, row.pubkey ∈ front ∨ 4 ≤ row.indent.length

theorem partDrawn_foldl (nodes : Nodes) (front : List Bytes) :
    PartDrawn nodes front (front.foldl
      (fun d pk => collectRows nodes nodes.keys.length pk "" false d) ⟨[], []⟩) := by
  apply List.foldlRecOn (motive := PartDrawn nodes front)
  · exact ⟨List.length_filter_le _ _, drawn_empty nodes, closedSince_refl _, by simp⟩
  · intro d hd pk hpk
    refine ⟨unprinted_collectRows_le _ pk "" false hd.left, ?_, ?_, ?_⟩
    · apply collectRows_invariant _ _ pk "" false hd.drawn
      intro d pk node indent isLast hlookup hfresh hd
      exact drawn_add indent isLast hlookup hfresh hd
    · apply hd.closed.trans
      · exact closedSince_collectRows _ pk "" false d hd.left
      · intro other hother
        exact printed_collectRows hother _ pk "" false
    · exact rows_collectRows (fun row hrow => .inr hrow) _ pk "" false (fun _ => .inl hpk) hd.rows

/-- What is below a node drawn is drawn. -/
theorem PartDrawn.below {front : List Bytes} {d : Drawing} (h : PartDrawn nodes front d)
    {above below : Bytes} (hbelow : Above nodes ourPubkey above below)
    (habove : above ∈ d.printed) : below ∈ d.printed := by
  induction hbelow with
  | refl => exact habove
  | tail _ hplace ih =>
    exact h.closed _ ih List.not_mem_nil _ (placeOf_eq_some_iff.mp hplace).2

/-- Once the root that our daemon is drawn under is done, the nodes whose parent we
are have been drawn: those that have not had their turn, further to the right. -/
theorem late_root_indented {before after : List Bytes} {root pk : Bytes}
    (hroots : roots nodes ourPubkey = before ++ root :: after)
    (habove : Above nodes ourPubkey root ourPubkey) (hpk : pk ∈ after)
    (hparent : parentOf nodes pk = some ourPubkey) :
    ∃ row ∈ networkRows nodes ourPubkey, row.pubkey = pk ∧ 4 ≤ row.indent.length := by
  have hsplit : roots nodes ourPubkey = (before ++ [root]) ++ after := by
    rw [hroots, List.append_assoc, List.singleton_append]
  have hpart := partDrawn_foldl nodes (before ++ [root])
  obtain ⟨rootNode, hrootNode⟩ := Option.isSome_iff_exists.mp (ReachesRoot.root
    ((mem_roots_iff root).mp (by rw [hroots]; simp))).lookup_isSome
  have hrootDrawn : root ∈ ((before ++ [root]).foldl
      (fun d pk => collectRows nodes nodes.keys.length pk "" false d) ⟨[], []⟩).printed := by
    obtain ⟨depth, hdepth⟩ : ∃ depth, nodes.keys.length = depth + 1 :=
      Nat.exists_eq_add_one.mpr (List.length_pos_of_mem (mem_keys_of_lookup hrootNode))
    rw [List.foldl_append, List.foldl_cons, List.foldl_nil, hdepth]
    exact mem_collectRows hrootNode depth "" false _
  have hrows : networkRows nodes ourPubkey = (collectEach (collectRows nodes nodes.keys.length)
      after "" ((before ++ [root]).foldl
        (fun d pk => collectRows nodes nodes.keys.length pk "" false d) ⟨[], []⟩)).rows := by
    rw [networkRows, hsplit, collectEach_append _ _ (List.ne_nil_of_mem hpk)]
  generalize (before ++ [root]).foldl
    (fun d pk => collectRows nodes nodes.keys.length pk "" false d) ⟨[], []⟩ = d at *
  -- down from the root to our daemon, and to its children
  have hdrawn := hpart.closed _ (hpart.below habove hrootDrawn) List.not_mem_nil pk hparent
  rw [hpart.drawn.printed] at hdrawn
  obtain ⟨row, hrow, rfl⟩ := List.mem_map.mp hdrawn
  have hkept : row ∈ networkRows nodes ourPubkey := by
    rw [hrows]
    exact rows_kept_each hrow
  refine ⟨row, hkept, rfl, ?_⟩
  rcases hpart.rows row hrow with hfront | hindent
  · have hnodup : (roots nodes ourPubkey).Nodup := roots_nodup
    rw [hsplit, List.nodup_append] at hnodup
    exact absurd rfl (hnodup.2.2 _ hfront _ hpk)
  · exact hindent

theorem noneAfterOurs_of_topLevel (h : ∀ pk, isRoot nodes ourPubkey pk = true →
    ∃ row ∈ networkRows nodes ourPubkey, row.pubkey = pk ∧ level row = 0) :
    NoneAfterOurs nodes ourPubkey := by
  rw [NoneAfterOurs, eachWithRest_iff]
  intro before root after hroots habove pk hpk hparent
  obtain ⟨row, hrow, hkey, hindent⟩ := late_root_indented hroots habove hpk hparent
  obtain ⟨own, hown, hkey', hlevel⟩ := h pk ((isRoot_iff_of_parentOf hparent).mpr (.inl rfl))
  have hsame : row = own := List.inj_on_of_nodup_map (rows_nodup nodes ourPubkey) hrow hown
    (hkey.trans hkey'.symm)
  rw [← hsame, level] at hlevel
  omega

/-- For all nodes without a circle of links, in every order they are read in, and
every key of our own: the rows are nested as the parents say exactly when no root
with us as its parent comes after the root our own daemon is drawn under. -/
theorem nests_iff (nodes : Nodes) (ourPubkey : Bytes) (hacyclic : Acyclic nodes ourPubkey) :
    Nests nodes ourPubkey (networkRows nodes ourPubkey) ↔ NoneAfterOurs nodes ourPubkey := by
  constructor
  · intro h
    exact noneAfterOurs_of_topLevel h.topLevel
  · intro h
    obtain ⟨lines, hlines, hrows⟩ := networkRows_outline hacyclic h
    have hlabels : (networkRows nodes ourPubkey).map Row.pubkey = lines.map Entry.label := by
      rw [hrows, List.map_map]
      exact List.map_congr_left fun e _ => rowFor_pubkey e
    rw [hrows]
    apply nests_of_outline hlines
    · rw [← hlabels]
      exact rows_nodup nodes ourPubkey
    · intro pk hpk
      rw [← hlabels, mem_rows_iff]
      exact reachesRoot_of_acyclic hacyclic hpk

/-! Our own daemon, and a laptop that it has asked. -/

def ownServer : Node where
  pubkey := TrustSets.serverKey
  hostname := "server"
  placement := ⟨[], true, some "192.168.1.20:2240"⟩
  responder := .v4 0xC0A80114 2240
  sigValid := true
  timeOk := true

def askedLaptop : Node where
  pubkey := TrustSets.laptopKey.toList
  hostname := "travel"
  placement := ⟨TrustSets.serverKey, true, some "192.168.1.66:2240"⟩
  responder := .v4 0xC0A80114 2240
  sigValid := true
  timeOk := true

def twoNodes : Nodes :=
  (AList.insert TrustSets.laptopKey.toList askedLaptop ∅).insert TrustSets.serverKey ownServer

theorem parentOf_twoNodes (pk : Bytes) : parentOf twoNodes pk =
    if pk = TrustSets.serverKey then some []
    else if pk = TrustSets.laptopKey.toList then some TrustSets.serverKey else none := by
  rw [parentOf, twoNodes]
  split_ifs with hserver hlaptop
  · rw [hserver, AList.lookup_insert]
    rfl
  · rw [AList.lookup_insert_ne hserver, hlaptop, AList.lookup_insert]
    rfl
  · rw [AList.lookup_insert_ne hserver, AList.lookup_insert_ne hlaptop]
    rfl

theorem acyclic_twoNodes : Acyclic twoNodes TrustSets.serverKey := by
  have hlink : ∀ child parent, Link twoNodes TrustSets.serverKey child parent →
      child = TrustSets.serverKey ∧ parent = [] := by
    rintro child parent ⟨hparent, hnot⟩
    rw [parentOf_twoNodes] at hparent
    split_ifs at hparent with hserver hlaptop
    · exact ⟨hserver, (Option.some.inj hparent).symm⟩
    · exact absurd (Option.some.inj hparent).symm hnot
  intro pk hcircle
  obtain ⟨next, hfirst, -⟩ := Relation.TransGen.head'_iff.mp hcircle
  obtain ⟨last, -, hback⟩ := Relation.TransGen.tail'_iff.mp hcircle
  have hserver := (hlink pk next hfirst).1
  rw [(hlink last pk hback).2] at hserver
  exact absurd hserver (by decide)

theorem nests_iff_twoNodes :
    Nests twoNodes TrustSets.serverKey (networkRows twoNodes TrustSets.serverKey) ↔
      NoneAfterOurs twoNodes TrustSets.serverKey :=
  nests_iff twoNodes TrustSets.serverKey acyclic_twoNodes

/-- The laptop's parent is us, and it is drawn under our daemon. -/
theorem laptop_drawn_under_server :
    Acyclic twoNodes TrustSets.serverKey ∧
      ¬ Nests twoNodes TrustSets.serverKey (networkRows twoNodes TrustSets.serverKey) := by
  refine ⟨acyclic_twoNodes, ?_⟩
  intro h
  have hroots : roots twoNodes TrustSets.serverKey =
      [TrustSets.serverKey, TrustSets.laptopKey.toList] := by decide +kernel
  have hnone := noneAfterOurs_of_topLevel h.topLevel
  rw [NoneAfterOurs, hroots] at hnone
  apply hnone.1 .refl TrustSets.laptopKey.toList (List.mem_singleton_self _)
  rw [parentOf_twoNodes, if_neg (by decide), if_pos rfl]

end Weverywhere.MapNesting
