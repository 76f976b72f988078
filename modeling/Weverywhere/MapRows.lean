import Weverywhere.NetworkMap
import Weverywhere.Runs
import Mathlib.Data.List.Sort

/-!
How `print_network_map` draws the assembled nodes (`src/src/command/netmap.rs`): a
row for every node it reaches from the roots, and at most one. The pieces of a
row's text are kept apart; a `HashMap` is read in the order of the model's list.
-/
namespace Weverywhere.MapRows

open ByteStrings Attestation Identity Messages NetworkMap Runs

structure Row where
  indent : String
  branch : String
  hostname : String
  pubkey : Bytes
  /-- The node's own address, or else where its record came from. -/
  addr : String ⊕ SocketAddr
  trustMark : String
  warn : String
  deriving DecidableEq

def trustMark (trustsCaller : Bool) : String := if trustsCaller then "<3" else "x"

def rowOf (pk : Bytes) (node : Node) (indent : String) (isLast : Bool) : Row where
  indent := indent
  branch := if isLast then "`--" else "|--"
  hostname := node.hostname
  pubkey := pk
  addr :=
    match node.placement.nodeAddr with
    | some s => .inl s
    | none => .inr node.responder
  trustMark := trustMark node.placement.trustsCaller
  warn := if node.sigValid && node.timeOk then "" else " (!)"

def hostnameOf (nodes : Nodes) (pk : Bytes) : String :=
  match nodes.lookup pk with
  | some node => node.hostname
  | none => ""

def parentOf (nodes : Nodes) (pk : Bytes) : Option Bytes :=
  (nodes.lookup pk).map fun node => node.placement.parent

/-- A stable sort, as `sort_by` is. -/
def sortByHostname (nodes : Nodes) (pks : List Bytes) : List Bytes :=
  pks.insertionSort fun a b => hostnameOf nodes a ≤ hostnameOf nodes b

def childrenOf (nodes : Nodes) (pk : Bytes) : List Bytes :=
  sortByHostname nodes (nodes.keys.filter fun child => parentOf nodes child == some pk)

structure Drawing where
  printed : List Bytes
  rows : List Row

def Drawing.add (d : Drawing) (row : Row) : Drawing := ⟨d.printed ++ [row.pubkey], d.rows ++ [row]⟩

/-- A loop over siblings, the last of them told so. -/
def collectEach (collect : Bytes → String → Bool → Drawing → Drawing) (pks : List Bytes)
    (indent : String) (d : Drawing) : Drawing :=
  pks.zipIdx.foldl (fun d pk => collect pk.1 indent (pk.2 + 1 == pks.length) d) d

def childIndent (indent : String) (isLast : Bool) : String :=
  indent ++ if isLast then "    " else "|   "

/-- `depth` bounds the nesting of the calls; as many as there are nodes are enough. -/
def collectRows (nodes : Nodes) : ℕ → Bytes → String → Bool → Drawing → Drawing
  | 0, _, _, _, d => d
  | depth + 1, pk, indent, isLast, d =>
    match nodes.lookup pk with
    | none => d
    | some node =>
      if pk ∈ d.printed then d
      else
        let d := d.add (rowOf pk node indent isLast)
        let kids := (childrenOf nodes pk).filter fun child => child ∉ d.printed
        collectEach (collectRows nodes depth) kids (childIndent indent isLast) d

/-- A node drawn at the left margin: its parent is us or nobody we heard from. -/
def isRoot (nodes : Nodes) (ourPubkey pk : Bytes) : Bool :=
  match nodes.lookup pk with
  | none => false
  | some node =>
    node.placement.parent == ourPubkey || (nodes.lookup node.placement.parent).isNone

def roots (nodes : Nodes) (ourPubkey : Bytes) : List Bytes :=
  sortByHostname nodes (nodes.keys.filter fun pk => isRoot nodes ourPubkey pk)

def networkRows (nodes : Nodes) (ourPubkey : Bytes) : List Row :=
  (collectEach (collectRows nodes nodes.keys.length) (roots nodes ourPubkey) "" ⟨[], []⟩).rows

/-- The rows of `print_network_map`. -/
def printNetworkMap (fromSlice : Bytes → Option Value) (c : Crypto) (ourPubkey : Bytes)
    (now : UInt64) (replies : List (SocketAddr × Bytes)) : List Row :=
  networkRows (assemble fromSlice c now replies) ourPubkey

/-! One call. -/

theorem collectRows_none {nodes : Nodes} {pk : Bytes} (hlookup : nodes.lookup pk = none)
    (depth : ℕ) (indent : String) (isLast : Bool) (d : Drawing) :
    collectRows nodes depth pk indent isLast d = d := by
  cases depth with
  | zero => rfl
  | succ depth => rw [collectRows, hlookup]

theorem collectRows_printed {nodes : Nodes} {pk : Bytes} {d : Drawing} (hprinted : pk ∈ d.printed)
    (depth : ℕ) (indent : String) (isLast : Bool) :
    collectRows nodes depth pk indent isLast d = d := by
  cases depth with
  | zero => rfl
  | succ depth =>
    rw [collectRows]
    cases nodes.lookup pk with
    | none => rfl
    | some node => exact if_pos hprinted

/-- A node met for the first time is drawn before its children. -/
theorem collectRows_fresh {nodes : Nodes} {pk : Bytes} {node : Node} {d : Drawing}
    (hlookup : nodes.lookup pk = some node) (hfresh : pk ∉ d.printed) (depth : ℕ)
    (indent : String) (isLast : Bool) :
    collectRows nodes (depth + 1) pk indent isLast d =
      collectEach (collectRows nodes depth)
        ((childrenOf nodes pk).filter fun child =>
          child ∉ (d.add (rowOf pk node indent isLast)).printed)
        (childIndent indent isLast) (d.add (rowOf pk node indent isLast)) := by
  rw [collectRows, hlookup]
  exact if_neg hfresh

/-- The first sibling is the last one when no other follows. -/
theorem collectEach_cons (collect : Bytes → String → Bool → Drawing → Drawing) (pk : Bytes)
    (pks : List Bytes) (indent : String) (d : Drawing) :
    collectEach collect (pk :: pks) indent d =
      collectEach collect pks indent (collect pk indent pks.isEmpty d) := by
  have hlast : (0 + 1 == (pk :: pks).length) = pks.isEmpty := by
    cases pks <;> simp
  rw [collectEach, List.zipIdx_cons', List.foldl_cons, List.foldl_map, hlast, collectEach]
  simp

/-- What the call of each sibling keeps, the loop over them keeps. -/
theorem collectEach_keeps {collect : Bytes → String → Bool → Drawing → Drawing}
    {Inv : Drawing → Prop} {pks : List Bytes} {indent : String}
    (hcall : ∀ pk ∈ pks, ∀ isLast d, Inv d → Inv (collect pk indent isLast d)) {d : Drawing}
    (hd : Inv d) : Inv (collectEach collect pks indent d) := by
  induction pks generalizing d with
  | nil => exact hd
  | cons pk pks ih =>
    rw [collectEach_cons]
    apply ih
    · exact fun other hother => hcall other (List.mem_cons_of_mem pk hother)
    · exact hcall pk List.mem_cons_self pks.isEmpty d hd

theorem collectEach_invariant {collect : Bytes → String → Bool → Drawing → Drawing}
    {Inv : Drawing → Prop}
    (hcollect : ∀ pk indent isLast d, Inv d → Inv (collect pk indent isLast d)) (pks : List Bytes)
    (indent : String) {d : Drawing} (hd : Inv d) : Inv (collectEach collect pks indent d) :=
  collectEach_keeps (fun pk _ isLast d hd => hcollect pk indent isLast d hd) hd

/-- What drawing one more node keeps, a call keeps. `Call` is what is known of a call, and
of the calls for its children. -/
theorem collectRows_keeps {nodes : Nodes} {Call : Bytes → String → Bool → Prop}
    {Inv : Drawing → Prop}
    (hdown : ∀ pk indent isLast child childLast, Call pk indent isLast →
      child ∈ childrenOf nodes pk → Call child (childIndent indent isLast) childLast)
    (hadd : ∀ d pk node indent isLast, Call pk indent isLast → nodes.lookup pk = some node →
      pk ∉ d.printed → Inv d → Inv (d.add (rowOf pk node indent isLast)))
    (depth : ℕ) {pk : Bytes} {indent : String} {isLast : Bool} (hcall : Call pk indent isLast)
    {d : Drawing} (hd : Inv d) : Inv (collectRows nodes depth pk indent isLast d) := by
  induction depth generalizing pk indent isLast d with
  | zero => exact hd
  | succ depth ih =>
    cases hlookup : nodes.lookup pk with
    | none => rwa [collectRows_none hlookup]
    | some node =>
      by_cases hprinted : pk ∈ d.printed
      · rwa [collectRows_printed hprinted]
      · rw [collectRows_fresh hlookup hprinted]
        apply collectEach_keeps
        · intro child hchild childLast d hd
          have hkid := hdown pk indent isLast child childLast hcall (List.mem_filter.mp hchild).1
          exact ih hkid hd
        · exact hadd d pk node indent isLast hcall hlookup hprinted hd

theorem collectRows_invariant {nodes : Nodes} {Inv : Drawing → Prop}
    (hadd : ∀ d pk node indent isLast, nodes.lookup pk = some node → pk ∉ d.printed → Inv d →
      Inv (d.add (rowOf pk node indent isLast)))
    (depth : ℕ) (pk : Bytes) (indent : String) (isLast : Bool) {d : Drawing} (hd : Inv d) :
    Inv (collectRows nodes depth pk indent isLast d) :=
  @collectRows_keeps nodes (fun _ _ _ => True) Inv (fun _ _ _ _ _ _ _ => trivial)
    (fun d pk node indent isLast _ => hadd d pk node indent isLast) depth pk indent isLast
    trivial d hd

/-- What holds of a drawing under way. -/
structure Drawn (nodes : Nodes) (d : Drawing) : Prop where
  printed : d.printed = d.rows.map Row.pubkey
  nodup : d.printed.Nodup
  rows : ∀ row ∈ d.rows, ∃ node, nodes.lookup row.pubkey = some node ∧
    ∃ indent isLast, row = rowOf row.pubkey node indent isLast

theorem drawn_empty (nodes : Nodes) : Drawn nodes ⟨[], []⟩ where
  printed := rfl
  nodup := List.nodup_nil
  rows := by simp

theorem drawn_add {nodes : Nodes} {d : Drawing} {pk : Bytes} {node : Node} (indent : String)
    (isLast : Bool) (hlookup : nodes.lookup pk = some node) (hfresh : pk ∉ d.printed)
    (h : Drawn nodes d) : Drawn nodes (d.add (rowOf pk node indent isLast)) where
  printed := by simp [Drawing.add, h.printed]
  nodup := List.nodup_append.mpr ⟨h.nodup, by simp, by
    intro a ha b hb
    rw [List.mem_singleton.mp hb]
    rintro rfl
    exact hfresh ha⟩
  rows := by
    intro row hrow
    rcases List.mem_append.mp hrow with hrow | hrow
    · exact h.rows row hrow
    · rw [List.mem_singleton.mp hrow]
      exact ⟨node, hlookup, indent, isLast, rfl⟩

theorem drawn_rows (nodes : Nodes) (ourPubkey : Bytes) :
    Drawn nodes (collectEach (collectRows nodes nodes.keys.length) (roots nodes ourPubkey) ""
      ⟨[], []⟩) := by
  apply collectEach_invariant
  · intro pk indent isLast d hd
    apply collectRows_invariant _ _ pk indent isLast hd
    intro d pk node indent isLast hlookup hfresh hd
    exact drawn_add indent isLast hlookup hfresh hd
  · exact drawn_empty nodes

/-- A row shows what the entry of its key holds. -/
theorem row_eq_rowOf {nodes : Nodes} {ourPubkey : Bytes} {row : Row}
    (h : row ∈ networkRows nodes ourPubkey) :
    ∃ node, nodes.lookup row.pubkey = some node ∧
      ∃ indent isLast, row = rowOf row.pubkey node indent isLast :=
  (drawn_rows nodes ourPubkey).rows row h

/-- No node is drawn twice. -/
theorem rows_nodup (nodes : Nodes) (ourPubkey : Bytes) :
    ((networkRows nodes ourPubkey).map Row.pubkey).Nodup := by
  have h := drawn_rows nodes ourPubkey
  exact h.printed ▸ h.nodup

/-! The roots are drawn, and the bound on the nesting cuts nothing off. -/

/-- What is printed stays printed. -/
theorem printed_collectRows {nodes : Nodes} {pk : Bytes} {d : Drawing} (h : pk ∈ d.printed)
    (depth : ℕ) (other : Bytes) (indent : String) (isLast : Bool) :
    pk ∈ (collectRows nodes depth other indent isLast d).printed := by
  have hadd : ∀ (d : Drawing) other node indent isLast, nodes.lookup other = some node →
      other ∉ d.printed → pk ∈ d.printed → pk ∈ (d.add (rowOf other node indent isLast)).printed :=
    fun _ _ _ _ _ _ _ hd => List.mem_append_left _ hd
  exact collectRows_invariant hadd depth other indent isLast h

theorem printed_collectEach {nodes : Nodes} {pk : Bytes} {d : Drawing} (h : pk ∈ d.printed)
    (depth : ℕ) (pks : List Bytes) (indent : String) :
    pk ∈ (collectEach (collectRows nodes depth) pks indent d).printed := by
  have hkeep : ∀ other indent isLast (d : Drawing), pk ∈ d.printed →
      pk ∈ (collectRows nodes depth other indent isLast d).printed :=
    fun other indent isLast _ hd => printed_collectRows hd depth other indent isLast
  exact collectEach_invariant hkeep pks indent h

/-- Rows are only added. -/
theorem rows_kept {nodes : Nodes} {depth : ℕ} {pk : Bytes} {indent : String} {isLast : Bool}
    {d : Drawing} {row : Row} (hrow : row ∈ d.rows) :
    row ∈ (collectRows nodes depth pk indent isLast d).rows := by
  have hadd : ∀ (d : Drawing) other node indent isLast, nodes.lookup other = some node →
      other ∉ d.printed → row ∈ d.rows → row ∈ (d.add (rowOf other node indent isLast)).rows :=
    fun _ _ _ _ _ _ _ hd => List.mem_append_left _ hd
  exact collectRows_invariant hadd depth pk indent isLast hrow

theorem rows_kept_each {nodes : Nodes} {depth : ℕ} {pks : List Bytes} {indent : String}
    {d : Drawing} {row : Row} (hrow : row ∈ d.rows) :
    row ∈ (collectEach (collectRows nodes depth) pks indent d).rows := by
  have hcall : ∀ pk indent isLast (d : Drawing), row ∈ d.rows →
      row ∈ (collectRows nodes depth pk indent isLast d).rows := fun _ _ _ _ hd => rows_kept hd
  exact collectEach_invariant hcall pks indent hrow

theorem mem_collectRows {nodes : Nodes} {pk : Bytes} {node : Node}
    (hlookup : nodes.lookup pk = some node) (depth : ℕ) (indent : String) (isLast : Bool)
    (d : Drawing) : pk ∈ (collectRows nodes (depth + 1) pk indent isLast d).printed := by
  by_cases hprinted : pk ∈ d.printed
  · exact printed_collectRows hprinted _ _ _ _
  · rw [collectRows_fresh hlookup hprinted]
    exact printed_collectEach (List.mem_append_right _ (List.mem_singleton_self _)) _ _ _

theorem mem_collectEach {nodes : Nodes} {pk : Bytes} {node : Node}
    (hlookup : nodes.lookup pk = some node) (depth : ℕ) {pks : List Bytes} (hpk : pk ∈ pks)
    (indent : String) (d : Drawing) :
    pk ∈ (collectEach (collectRows nodes (depth + 1)) pks indent d).printed := by
  have hstays : ∀ (d : Drawing) (sibling : Bytes × ℕ), pk ∈ d.printed →
      pk ∈ (collectRows nodes (depth + 1) sibling.1 indent (sibling.2 + 1 == pks.length)
        d).printed :=
    fun _ _ hd => printed_collectRows hd _ _ _ _
  obtain ⟨i, hi, rfl⟩ := List.getElem_of_mem hpk
  have hmem : (pks[i], i) ∈ pks.zipIdx := List.mk_mem_zipIdx_iff_getElem?.mpr (by simp [hi])
  obtain ⟨before, after, hsplit⟩ := List.append_of_mem hmem
  rw [collectEach, hsplit, List.foldl_append, List.foldl_cons]
  exact invariant_run _ hstays (mem_collectRows hlookup depth _ _ _) after

/-- Every root has a row. -/
theorem root_drawn {nodes : Nodes} {ourPubkey pk : Bytes} (h : isRoot nodes ourPubkey pk = true) :
    ∃ row ∈ networkRows nodes ourPubkey, row.pubkey = pk := by
  obtain ⟨node, hlookup⟩ : ∃ node, nodes.lookup pk = some node := by
    cases hlookup : nodes.lookup pk with
    | none => simp [isRoot, hlookup] at h
    | some node => exact ⟨node, rfl⟩
  have hkey : pk ∈ nodes.keys := by
    rw [← AList.mem_keys, ← AList.lookup_isSome, hlookup]
    rfl
  have hroot : pk ∈ roots nodes ourPubkey := by
    rw [roots, sortByHostname, List.mem_insertionSort, List.mem_filter]
    exact ⟨hkey, h⟩
  obtain ⟨depth, hdepth⟩ : ∃ depth, nodes.keys.length = depth + 1 :=
    Nat.exists_eq_add_one.mpr (List.length_pos_of_mem hkey)
  have hdrawn := drawn_rows nodes ourPubkey
  have hprinted : pk ∈ (collectEach (collectRows nodes nodes.keys.length) (roots nodes ourPubkey)
      "" ⟨[], []⟩).printed := by
    rw [hdepth]
    exact mem_collectEach hlookup depth hroot "" _
  rw [hdrawn.printed] at hprinted
  obtain ⟨row, hrow, hpubkey⟩ := List.mem_map.mp hprinted
  exact ⟨row, hrow, hpubkey⟩

def unprinted (nodes : Nodes) (d : Drawing) : ℕ :=
  (nodes.keys.filter fun pk => pk ∉ d.printed).length

theorem unprinted_add_le (nodes : Nodes) (d : Drawing) (row : Row) :
    unprinted nodes (d.add row) ≤ unprinted nodes d := by
  unfold unprinted
  rw [← List.countP_eq_length_filter, ← List.countP_eq_length_filter]
  apply List.countP_mono_left
  intro pk _ hpk
  simp only [Drawing.add, List.mem_append, decide_eq_true_eq, not_or] at hpk ⊢
  exact hpk.1

theorem unprinted_add_lt {nodes : Nodes} {pk : Bytes} {node : Node} {d : Drawing}
    (hlookup : nodes.lookup pk = some node) (hfresh : pk ∉ d.printed) (indent : String)
    (isLast : Bool) :
    unprinted nodes (d.add (rowOf pk node indent isLast)) < unprinted nodes d := by
  have hkey : pk ∈ nodes.keys := by
    rw [← AList.mem_keys, ← AList.lookup_isSome, hlookup]
    rfl
  have hsplit : ∀ other, (other ∉ (d.add (rowOf pk node indent isLast)).printed) ↔
      other ≠ pk ∧ other ∉ d.printed := by
    intro other
    simp [Drawing.add, rowOf, and_comm]
  have hfilter : (nodes.keys.filter fun other =>
      other ∉ (d.add (rowOf pk node indent isLast)).printed) =
      (nodes.keys.filter fun other => other ∉ d.printed).filter fun other => other ≠ pk := by
    rw [List.filter_filter]
    apply List.filter_congr
    intro other _
    simp [hsplit]
  unfold unprinted
  rw [hfilter, List.length_filter_lt_length_iff_exists]
  exact ⟨pk, List.mem_filter.mpr ⟨hkey, by simpa using hfresh⟩, by simp⟩

/-- A call that may nest as deep as there are nodes left to draw needs no more. -/
theorem collectRows_succ {nodes : Nodes} (depth : ℕ) (pk : Bytes) (indent : String)
    (isLast : Bool) {d : Drawing} (h : unprinted nodes d ≤ depth) :
    collectRows nodes (depth + 1) pk indent isLast d =
      collectRows nodes depth pk indent isLast d := by
  induction depth generalizing pk indent isLast d with
  | zero =>
    cases hlookup : nodes.lookup pk with
    | none => rw [collectRows_none hlookup, collectRows_none hlookup]
    | some node =>
      by_cases hprinted : pk ∈ d.printed
      · rw [collectRows_printed hprinted, collectRows_printed hprinted]
      · have hless := unprinted_add_lt hlookup hprinted indent isLast
        omega
  | succ depth ih =>
    cases hlookup : nodes.lookup pk with
    | none => rw [collectRows_none hlookup, collectRows_none hlookup]
    | some node =>
      by_cases hprinted : pk ∈ d.printed
      · rw [collectRows_printed hprinted, collectRows_printed hprinted]
      · have hless := unprinted_add_lt hlookup hprinted indent isLast
        have hadd : ∀ (d : Drawing) other node indent isLast, nodes.lookup other = some node →
            other ∉ d.printed → unprinted nodes d ≤ depth →
            unprinted nodes (d.add (rowOf other node indent isLast)) ≤ depth :=
          fun d _ _ _ _ _ _ hd => (unprinted_add_le nodes d _).trans hd
        rw [collectRows_fresh hlookup hprinted, collectRows_fresh hlookup hprinted]
        -- the children are drawn with one node less to draw
        exact run_congr _
          (fun d kid hd => collectRows_invariant hadd depth kid.1 _ _ hd)
          (fun d kid hd => ih kid.1 _ _ hd) (by omega) _

/-- However many nested calls are allowed beyond the number of nodes, the drawing
is the same. -/
theorem collectRows_enough {nodes : Nodes} {depth : ℕ} (hdepth : nodes.keys.length ≤ depth)
    (pk : Bytes) (indent : String) (isLast : Bool) (d : Drawing) :
    collectRows nodes depth pk indent isLast d =
      collectRows nodes nodes.keys.length pk indent isLast d := by
  induction depth, hdepth using Nat.le_induction with
  | base => rfl
  | succ depth hdepth ih =>
    have hleft : unprinted nodes d ≤ depth := (List.length_filter_le _ _).trans hdepth
    rw [collectRows_succ depth pk indent isLast hleft, ih]

end Weverywhere.MapRows
