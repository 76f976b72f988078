import Weverywhere.RowProvenance

/-!
Which nodes `print_network_map` draws (`src/src/command/netmap.rs`): those from
which the links to the parents lead to a root, once each. Links that lead round in
a circle have no root above them, so a node on such a circle, or below one, has no
row.
-/
namespace Weverywhere.MapCoverage

open ByteStrings Attestation Identity Messages NetworkMap MapRows RowProvenance

/-- Following the parents from a node, one comes to a root. -/
inductive ReachesRoot (nodes : Nodes) (ourPubkey : Bytes) : Bytes → Prop
  | root {pk : Bytes} (hroot : isRoot nodes ourPubkey pk = true) : ReachesRoot nodes ourPubkey pk
  | child {pk parent : Bytes} (hparent : parentOf nodes pk = some parent)
      (h : ReachesRoot nodes ourPubkey parent) : ReachesRoot nodes ourPubkey pk

/-- The key of a reply whose attestation verifies. -/
def Verified (fromSlice : Bytes → Option Value) (c : Crypto)
    (replies : List (SocketAddr × Bytes)) (pk : Bytes) : Prop :=
  ∃ reply ∈ replies, (speaksFor fromSlice c pk reply.2).isSome = true

instance (fromSlice : Bytes → Option Value) (c : Crypto) (replies : List (SocketAddr × Bytes)) :
    DecidablePred (Verified fromSlice c replies) := fun pk =>
  inferInstanceAs (Decidable (∃ reply ∈ replies, (speaksFor fromSlice c pk reply.2).isSome = true))

/-- A row for every verified key, and no other. -/
def OneRowEach (fromSlice : Bytes → Option Value) (c : Crypto)
    (replies : List (SocketAddr × Bytes)) (rows : List Row) : Prop :=
  ∀ pk, (rows.map Row.pubkey).count pk = if Verified fromSlice c replies pk then 1 else 0

/-- The calls nest no deeper than there are nodes: leave to nest deeper changes
nothing. -/
def CollectRowsEnds (nodes : Nodes) : Prop :=
  ∀ depth, nodes.keys.length ≤ depth → ∀ pk indent isLast d,
    collectRows nodes depth pk indent isLast d =
      collectRows nodes nodes.keys.length pk indent isLast d

variable {nodes : Nodes} {ourPubkey : Bytes}

theorem lookup_of_parentOf {pk parent : Bytes} (h : parentOf nodes pk = some parent) :
    ∃ node, nodes.lookup pk = some node ∧ node.placement.parent = parent := by
  rw [parentOf, Option.map_eq_some_iff] at h
  exact h

theorem mem_keys_of_lookup {pk : Bytes} {node : Node} (h : nodes.lookup pk = some node) :
    pk ∈ nodes.keys := by
  rw [← AList.mem_keys, ← AList.lookup_isSome, h]
  rfl

theorem mem_childrenOf_iff (pk child : Bytes) :
    child ∈ childrenOf nodes pk ↔ parentOf nodes child = some pk := by
  rw [childrenOf, sortByHostname, List.mem_insertionSort, List.mem_filter, beq_iff_eq]
  constructor
  · exact fun h => h.2
  · intro h
    obtain ⟨node, hlookup, -⟩ := lookup_of_parentOf h
    exact ⟨mem_keys_of_lookup hlookup, h⟩

theorem mem_roots_iff (pk : Bytes) :
    pk ∈ roots nodes ourPubkey ↔ isRoot nodes ourPubkey pk = true := by
  rw [roots, sortByHostname, List.mem_insertionSort, List.mem_filter]
  constructor
  · exact fun h => h.2
  · intro h
    refine ⟨?_, h⟩
    unfold isRoot at h
    cases hlookup : nodes.lookup pk with
    | none => simp [hlookup] at h
    | some node => exact mem_keys_of_lookup hlookup

/-! Siblings, one after the other. -/

theorem collectEach_nil (collect : Bytes → String → Bool → Drawing → Drawing) (indent : String)
    (d : Drawing) : collectEach collect [] indent d = d := rfl

/-! What a call draws is drawn with everything below it. -/

/-- The nodes drawn since `d` have their children drawn. -/
def ClosedSince (nodes : Nodes) (d d' : Drawing) : Prop :=
  ∀ pk ∈ d'.printed, pk ∉ d.printed → ∀ child, parentOf nodes child = some pk →
    child ∈ d'.printed

theorem closedSince_refl (d : Drawing) : ClosedSince nodes d d :=
  fun _ hpk hnew => absurd hpk hnew

theorem ClosedSince.trans {d d' d'' : Drawing} (h : ClosedSince nodes d d')
    (h' : ClosedSince nodes d' d'') (hkept : ∀ pk ∈ d'.printed, pk ∈ d''.printed) :
    ClosedSince nodes d d'' := by
  intro pk hpk hnew child hchild
  by_cases hbefore : pk ∈ d'.printed
  · exact hkept child (h pk hbefore hnew child hchild)
  · exact h' pk hpk hbefore child hchild

theorem unprinted_collectRows_le (depth : ℕ) (pk : Bytes) (indent : String) (isLast : Bool)
    {d : Drawing} {bound : ℕ} (h : unprinted nodes d ≤ bound) :
    unprinted nodes (collectRows nodes depth pk indent isLast d) ≤ bound := by
  have hadd : ∀ (d : Drawing) other node indent isLast, nodes.lookup other = some node →
      other ∉ d.printed → unprinted nodes d ≤ bound →
      unprinted nodes (d.add (rowOf other node indent isLast)) ≤ bound :=
    fun d _ _ _ _ _ _ hd => (unprinted_add_le nodes d _).trans hd
  exact collectRows_invariant hadd depth pk indent isLast h

/-- What every sibling's call does, the loop over them does. -/
theorem closedSince_collectEach {depth : ℕ}
    (hcall : ∀ pk indent isLast (d : Drawing), unprinted nodes d ≤ depth →
      ClosedSince nodes d (collectRows nodes depth pk indent isLast d))
    (pks : List Bytes) (indent : String) {d : Drawing} (hd : unprinted nodes d ≤ depth) :
    ClosedSince nodes d (collectEach (collectRows nodes depth) pks indent d) := by
  induction pks generalizing d with
  | nil => exact closedSince_refl d
  | cons pk pks ih =>
    rw [collectEach_cons]
    apply (hcall pk indent pks.isEmpty d hd).trans
    · exact ih (unprinted_collectRows_le depth pk indent pks.isEmpty hd)
    · intro other hother
      exact printed_collectEach hother depth pks indent

/-- By induction on the nesting: the children of the node itself are the ones passed
over as printed and the ones of the loop. -/
theorem closedSince_collectRows (depth : ℕ) (pk : Bytes) (indent : String) (isLast : Bool)
    (d : Drawing) (hd : unprinted nodes d ≤ depth) :
    ClosedSince nodes d (collectRows nodes depth pk indent isLast d) := by
  induction depth generalizing pk indent isLast d with
  | zero => exact closedSince_refl d
  | succ depth ih =>
    cases hlookup : nodes.lookup pk with
    | none =>
      rw [collectRows_none hlookup]
      exact closedSince_refl d
    | some node =>
      by_cases hprinted : pk ∈ d.printed
      · rw [collectRows_printed hprinted]
        exact closedSince_refl d
      have hless := unprinted_add_lt hlookup hprinted indent isLast
      rw [collectRows_fresh hlookup hprinted]
      have hbelow := closedSince_collectEach ih
        ((childrenOf nodes pk).filter fun child =>
          child ∉ (d.add (rowOf pk node indent isLast)).printed)
        (childIndent indent isLast) (d := d.add (rowOf pk node indent isLast)) (by omega)
      intro other hother hnew child hchild
      by_cases hself : other ∈ (d.add (rowOf pk node indent isLast)).printed
      · -- the node of the call itself
        obtain rfl : other = pk := by
          rcases List.mem_append.mp hself with hold | hsame
          · exact absurd hold hnew
          · exact List.mem_singleton.mp hsame
        by_cases hdrawn : child ∈ (d.add (rowOf other node indent isLast)).printed
        · exact printed_collectEach hdrawn depth _ _
        · obtain ⟨childNode, hchildNode, -⟩ := lookup_of_parentOf hchild
          have hleft : 0 < unprinted nodes (d.add (rowOf other node indent isLast)) := by
            apply List.length_pos_of_mem
            exact List.mem_filter.mpr ⟨mem_keys_of_lookup hchildNode, by simpa using hdrawn⟩
          obtain ⟨depth, rfl⟩ : ∃ k, depth = k + 1 := Nat.exists_eq_add_one.mpr (by omega)
          apply mem_collectEach hchildNode depth
          exact List.mem_filter.mpr
            ⟨(mem_childrenOf_iff other child).mpr hchild, by simpa using hdrawn⟩
      · exact hbelow other hother hself child hchild

/-! Nothing else is drawn. -/

/-- A call keeps a property that goes from a node to its children. -/
theorem collectRows_downward {P : Bytes → Prop}
    (hdown : ∀ pk child, P pk → parentOf nodes child = some pk → P child) (depth : ℕ) (pk : Bytes)
    (hpk : P pk) (indent : String) (isLast : Bool) (d : Drawing)
    (hd : ∀ other ∈ d.printed, P other) :
    ∀ other ∈ (collectRows nodes depth pk indent isLast d).printed, P other := by
  refine @collectRows_keeps nodes (fun pk _ _ => P pk) (fun d => ∀ other ∈ d.printed, P other)
    ?_ ?_ depth pk indent isLast hpk d hd
  · intro pk _ _ child _ hpk hchild
    exact hdown pk child hpk ((mem_childrenOf_iff pk child).mp hchild)
  · intro d pk node indent isLast hpk _ _ hd other hother
    rcases List.mem_append.mp hother with hold | hsame
    · exact hd other hold
    · rw [List.mem_singleton.mp hsame]
      exact hpk

/-- The nodes drawn are those below a root. -/
theorem mem_rows_iff (nodes : Nodes) (ourPubkey pk : Bytes) :
    pk ∈ (networkRows nodes ourPubkey).map Row.pubkey ↔ ReachesRoot nodes ourPubkey pk := by
  have hprinted := (drawn_rows nodes ourPubkey).printed
  have hclosed : ClosedSince nodes ⟨[], []⟩ (collectEach (collectRows nodes nodes.keys.length)
      (roots nodes ourPubkey) "" ⟨[], []⟩) :=
    closedSince_collectEach (closedSince_collectRows nodes.keys.length) _ _
      (List.length_filter_le _ _)
  constructor
  · intro h
    have hdown : ∀ pk child, ReachesRoot nodes ourPubkey pk → parentOf nodes child = some pk →
        ReachesRoot nodes ourPubkey child := fun _ _ hpk hchild => .child hchild hpk
    have hroots : ∀ pk ∈ roots nodes ourPubkey, ∀ isLast (d : Drawing),
        (∀ other ∈ d.printed, ReachesRoot nodes ourPubkey other) →
        ∀ other ∈ (collectRows nodes nodes.keys.length pk "" isLast d).printed,
          ReachesRoot nodes ourPubkey other := by
      intro pk hpk isLast d hd
      exact collectRows_downward hdown nodes.keys.length pk (.root ((mem_roots_iff pk).mp hpk)) ""
        isLast d hd
    rw [networkRows, ← hprinted] at h
    exact collectEach_keeps hroots (by simp) pk h
  · intro h
    induction h with
    | root hroot =>
      obtain ⟨row, hrow, hkey⟩ := root_drawn hroot
      exact List.mem_map.mpr ⟨row, hrow, hkey⟩
    | child hparent _ ih =>
      rw [networkRows, ← hprinted] at ih ⊢
      exact hclosed _ ih (by simp) _ hparent

/-! The replies. -/

/-- The nodes are the verified keys, whatever order the map is read in. -/
theorem lookup_isSome_iff {fromSlice : Bytes → Option Value} {c : Crypto} {now : UInt64}
    {replies : List (SocketAddr × Bytes)} {nodes : Nodes}
    (horder : nodes.entries.Perm (assemble fromSlice c now replies).entries) (pk : Bytes) :
    (nodes.lookup pk).isSome = true ↔ Verified fromSlice c replies pk := by
  rw [AList.perm_lookup horder, lookup_assemble, List.findSome?_isSome_iff]
  simp only [Option.isSome_map, Verified]

theorem ReachesRoot.lookup_isSome {pk : Bytes} (h : ReachesRoot nodes ourPubkey pk) :
    (nodes.lookup pk).isSome = true := by
  cases h with
  | root hroot =>
    unfold isRoot at hroot
    cases hlookup : nodes.lookup pk with
    | none => simp [hlookup] at hroot
    | some node => rfl
  | child hparent _ =>
    obtain ⟨node, hlookup, -⟩ := lookup_of_parentOf hparent
    rw [hlookup]
    rfl

/-- For all replies, whatever order the map of the nodes is read in: the drawing
ends, and it has one row for each verified key and no other exactly when the
parents lead from every verified node to a root. -/
theorem one_row_each_iff (fromSlice : Bytes → Option Value) (c : Crypto) (ourPubkey : Bytes)
    (now : UInt64) (replies : List (SocketAddr × Bytes)) (nodes : Nodes)
    (horder : nodes.entries.Perm (assemble fromSlice c now replies).entries) :
    CollectRowsEnds nodes ∧
      (OneRowEach fromSlice c replies (networkRows nodes ourPubkey) ↔
        ∀ pk, Verified fromSlice c replies pk → ReachesRoot nodes ourPubkey pk) := by
  refine ⟨fun depth hdepth => collectRows_enough hdepth, ?_⟩
  constructor
  · intro h pk hverified
    rw [← mem_rows_iff, ← List.one_le_count_iff, h pk, if_pos hverified]
  · intro h pk
    split_ifs with hverified
    · apply List.count_eq_one_of_mem (rows_nodup nodes ourPubkey)
      exact (mem_rows_iff nodes ourPubkey pk).mpr (h pk hverified)
    · apply List.count_eq_zero_of_not_mem
      intro hrow
      have hreaches := (mem_rows_iff nodes ourPubkey pk).mp hrow
      exact hverified ((lookup_isSome_iff horder pk).mp hreaches.lookup_isSome)

/-! The server as its own parent. -/

def selfParent : List (SocketAddr × Bytes) :=
  [(.v4 0xC0A80114 2240, nodeRecord serverAttestation false 1 TrustSets.serverKey
    "192.168.1.20:2240")]

def selfNodes : Nodes := assemble readMaps serverCrypto 1760000000 selfParent

theorem one_row_each_iff_server :
    CollectRowsEnds selfNodes ∧
      (OneRowEach readMaps serverCrypto selfParent (networkRows selfNodes aliceKey) ↔
        ∀ pk, Verified readMaps serverCrypto selfParent pk →
          ReachesRoot selfNodes aliceKey pk) :=
  one_row_each_iff readMaps serverCrypto aliceKey 1760000000 selfParent selfNodes
    (List.Perm.refl _)

theorem speaksFor_selfParent (pk : Bytes) : speaksFor readMaps serverCrypto pk
    (nodeRecord serverAttestation false 1 TrustSets.serverKey "192.168.1.20:2240") =
      if TrustSets.serverKey = pk then some (⟨"server", TrustSets.serverKey, 1760000000⟩,
        ⟨TrustSets.serverKey, false, some "192.168.1.20:2240"⟩) else none := by
  have hparse : parseRecord readMaps
      (nodeRecord serverAttestation false 1 TrustSets.serverKey "192.168.1.20:2240") =
        some (serverAttestation, ⟨TrustSets.serverKey, false, some "192.168.1.20:2240"⟩) := by
    apply parseRecord_nodeRecord readMaps_readsMaps <;> decide +kernel
  rw [speaksFor, hparse]
  simp only [serverAttestation_verified]

theorem selfNodes_parent {pk : Bytes} {node : Node} (h : selfNodes.lookup pk = some node) :
    node.placement.parent = TrustSets.serverKey := by
  rw [selfNodes, lookup_assemble, selfParent, List.findSome?_singleton, speaksFor_selfParent] at h
  split_ifs at h with hkey
  · obtain rfl := Option.some.inj h
    rfl
  · cases h

/-- Its attestation verifies and it has no row. -/
theorem selfParent_not_drawn :
    Verified readMaps serverCrypto selfParent TrustSets.serverKey ∧
      ¬ OneRowEach readMaps serverCrypto selfParent
        (printNetworkMap readMaps serverCrypto aliceKey 1760000000 selfParent) := by
  have hverified : Verified readMaps serverCrypto selfParent TrustSets.serverKey := by
    refine ⟨_, List.mem_singleton_self _, ?_⟩
    rw [speaksFor_selfParent, if_pos rfl]
    rfl
  refine ⟨hverified, ?_⟩
  have hself : (selfNodes.lookup TrustSets.serverKey).isSome = true :=
    (lookup_isSome_iff (List.Perm.refl _) TrustSets.serverKey).mpr hverified
  have hnever : ∀ pk, ¬ ReachesRoot selfNodes aliceKey pk := by
    intro pk h
    induction h with
    | @root pk hroot =>
      unfold isRoot at hroot
      cases hnode : selfNodes.lookup pk with
      | none => simp [hnode] at hroot
      | some node =>
        have hother : TrustSets.serverKey ≠ aliceKey := by decide
        have hparent := selfNodes_parent hnode
        rw [hnode] at hroot
        simp only [hparent, Bool.or_eq_true, beq_iff_eq, hother, false_or] at hroot
        rw [hparent] at hroot
        rw [Option.isNone_iff_eq_none.mp hroot] at hself
        cases hself
    | child hparent h ih => exact ih
  intro h
  have hcount := h TrustSets.serverKey
  rw [if_pos hverified] at hcount
  have hrow := List.one_le_count_iff.mp hcount.ge
  exact hnever _ ((mem_rows_iff selfNodes aliceKey _).mp hrow)

end Weverywhere.MapCoverage
