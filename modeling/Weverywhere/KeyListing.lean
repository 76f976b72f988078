import Weverywhere.MapRows

/-!
The public keys `print_network_map` lists below the tree
(`src/src/command/netmap.rs`). Our own key and the keys of the nodes are joined
without asking whether a node has our key, and the short ids are counted over the
joined entries. The pieces of a line's text are kept apart.
-/
namespace Weverywhere.KeyListing

open ByteStrings NetworkMap Runs

/-- An entry of `ids`. -/
structure KeyEntry where
  pubkey : Bytes
  hostname : String
  isYou : Bool
  deriving DecidableEq

/-- The order of `ids`: by hostname, then by key. -/
def KeyEntry.le (a b : KeyEntry) : Prop :=
  a.hostname < b.hostname ∨ a.hostname = b.hostname ∧ a.pubkey ≤ b.pubkey

instance : DecidableRel KeyEntry.le := fun a b =>
  inferInstanceAs (Decidable (a.hostname < b.hostname ∨ a.hostname = b.hostname ∧ _))

def ourEntry (ourPubkey : Bytes) (you : String) : List KeyEntry :=
  if ourPubkey.isEmpty then [] else [⟨ourPubkey, you, true⟩]

def nodeEntries (nodes : Nodes) : List KeyEntry :=
  nodes.entries.map fun entry => ⟨entry.1, entry.2.hostname, false⟩

def ids (nodes : Nodes) (ourPubkey : Bytes) (you : String) : List KeyEntry :=
  (ourEntry ourPubkey you ++ nodeEntries nodes).insertionSort KeyEntry.le

/-- One turn of the loop that fills `short_counts`; a short id not met yet counts
none. -/
def countShortId (counts : String → ℕ) (entry : KeyEntry) : String → ℕ :=
  Function.update counts (shortId entry.pubkey) (counts (shortId entry.pubkey) + 1)

def shortCounts (entries : List KeyEntry) : String → ℕ := entries.foldl countShortId fun _ => 0

structure KeyLine where
  shortId : String
  fullKey : String
  hostname : String
  youMark : String
  collision : String
  deriving DecidableEq

def sharedMark : String := "   (!) SHARED SHORT-ID - verify full key"

def keyLine (counts : String → ℕ) (entry : KeyEntry) : KeyLine where
  shortId := shortId entry.pubkey
  fullKey := hex entry.pubkey
  hostname := entry.hostname
  youMark := if entry.isYou then " (you)" else ""
  collision := if 1 < counts (shortId entry.pubkey) then sharedMark else ""

/-- The lines of the listing. Where no server answered, nothing is listed. -/
def keyLines (nodes : Nodes) (ourPubkey : Bytes) (you : String) : List KeyLine :=
  if nodes.entries.isEmpty then []
  else (ids nodes ourPubkey you).map (keyLine (shortCounts (ids nodes ourPubkey you)))

/-! The counts. -/

theorem countShortId_apply (counts : String → ℕ) (entry : KeyEntry) (short : String) :
    countShortId counts entry short =
      counts short + if shortId entry.pubkey = short then 1 else 0 := by
  unfold countShortId
  by_cases h : shortId entry.pubkey = short
  · rw [h, Function.update_self, if_pos rfl]
  · rw [Function.update_of_ne (Ne.symm h), if_neg h, Nat.add_zero]

theorem foldl_countShortId (entries : List KeyEntry) (counts : String → ℕ) (short : String) :
    entries.foldl countShortId counts short =
      counts short + entries.countP fun entry => shortId entry.pubkey == short := by
  induction entries generalizing counts with
  | nil => simp
  | cons entry entries ih =>
    rw [List.foldl_cons, ih, countShortId_apply, List.countP_cons]
    simp only [beq_iff_eq]
    omega

/-- A count is a count of entries, not of keys. -/
theorem shortCounts_eq_countP (entries : List KeyEntry) (short : String) :
    shortCounts entries short = entries.countP fun entry => shortId entry.pubkey == short := by
  rw [shortCounts, foldl_countShortId, Nat.zero_add]

/-- Among distinct things, the value of one is counted twice exactly when another
one has it. -/
theorem one_lt_countP_iff {α β : Type} [BEq β] [LawfulBEq β] {l : List α} (hnodup : l.Nodup)
    {x : α} (hx : x ∈ l) (f : α → β) :
    1 < l.countP (fun y => f y == f x) ↔ ∃ y ∈ l, y ≠ x ∧ f y = f x := by
  obtain ⟨before, after, rfl⟩ := List.append_of_mem hx
  have hperm : (before ++ x :: after).Perm (x :: (before ++ after)) := List.perm_middle
  have hfresh : x ∉ before ++ after := (List.nodup_cons.mp (hperm.nodup_iff.mp hnodup)).1
  rw [hperm.countP_eq, List.countP_cons_of_pos (by simp), Nat.lt_add_left_iff_pos,
    List.countP_pos_iff]
  constructor
  · intro h
    obtain ⟨y, hy, hvalue⟩ := h
    refine ⟨y, hperm.mem_iff.mpr (List.mem_cons_of_mem _ hy), ?_, by simpa using hvalue⟩
    intro heq
    exact hfresh (heq ▸ hy)
  · intro h
    obtain ⟨y, hy, hne, hvalue⟩ := h
    have hother := (List.mem_cons.mp (hperm.mem_iff.mp hy)).resolve_left hne
    exact ⟨y, hother, by simpa using hvalue⟩

/-! The entries. -/

theorem ids_perm (nodes : Nodes) (ourPubkey : Bytes) (you : String) :
    (ids nodes ourPubkey you).Perm (ourEntry ourPubkey you ++ nodeEntries nodes) :=
  List.perm_insertionSort _ _

theorem map_nodeEntries (nodes : Nodes) : (nodeEntries nodes).map KeyEntry.pubkey = nodes.keys := by
  rw [nodeEntries, List.map_map]
  rfl

/-- The keys the listing is about: those of the nodes, and ours. -/
def Listed (nodes : Nodes) (ourPubkey key : Bytes) : Prop :=
  nodes.entries ≠ [] ∧ (key ∈ nodes.keys ∨ ourPubkey ≠ [] ∧ key = ourPubkey)

theorem mem_map_ids_iff {nodes : Nodes} {ourPubkey : Bytes} {you : String} {key : Bytes} :
    key ∈ (ids nodes ourPubkey you).map KeyEntry.pubkey ↔
      key ∈ nodes.keys ∨ ourPubkey ≠ [] ∧ key = ourPubkey := by
  rw [((ids_perm nodes ourPubkey you).map KeyEntry.pubkey).mem_iff, List.map_append,
    map_nodeEntries, List.mem_append]
  cases ourPubkey with
  | nil => simp [ourEntry]
  | cons b bs => simp [ourEntry, or_comm]

theorem nodup_ids_iff {nodes : Nodes} {ourPubkey : Bytes} {you : String} :
    ((ids nodes ourPubkey you).map KeyEntry.pubkey).Nodup ↔
      ourPubkey = [] ∨ ourPubkey ∉ nodes.keys := by
  rw [((ids_perm nodes ourPubkey you).map KeyEntry.pubkey).nodup_iff, List.map_append,
    map_nodeEntries]
  cases ourPubkey with
  | nil => simp [ourEntry, nodes.keys_nodup]
  | cons b bs => simp [ourEntry, nodes.keys_nodup]

theorem keyLines_eq {nodes : Nodes} (h : nodes.entries ≠ []) (ourPubkey : Bytes) (you : String) :
    keyLines nodes ourPubkey you =
      (ids nodes ourPubkey you).map (keyLine (shortCounts (ids nodes ourPubkey you))) := by
  rw [keyLines, if_neg (by simpa using h)]

/-- As many lines show a key as there are entries of it. -/
theorem countP_keyLines {nodes : Nodes} (h : nodes.entries ≠ []) (ourPubkey : Bytes)
    (you : String) (key : Bytes) :
    (keyLines nodes ourPubkey you).countP (fun line => line.fullKey == hex key) =
      ((ids nodes ourPubkey you).map KeyEntry.pubkey).count key := by
  rw [keyLines_eq h, List.countP_map, List.count, List.countP_map]
  apply List.countP_congr
  intro entry _
  simp [keyLine, hex_injective.eq_iff]

theorem line_shared_iff (entries : List KeyEntry) (entry : KeyEntry) :
    (keyLine (shortCounts entries) entry).collision = sharedMark ↔
      1 < (entries.map KeyEntry.pubkey).countP fun other =>
        shortId other == shortId entry.pubkey := by
  have hmark : sharedMark ≠ "" := by decide
  rw [List.countP_map, keyLine, shortCounts_eq_countP]
  constructor
  · intro h
    by_contra hcount
    exact hmark (h.symm.trans (if_neg hcount))
  · exact fun h => if_pos h

/-! What the listing is for. -/

/-- Every key listed has one line, and the line is marked when another listed key has
the same short id and not otherwise. -/
structure FlaggedExactly (listed : Bytes → Prop) (lines : List KeyLine) : Prop where
  once : ∀ key, listed key → lines.countP (fun line => line.fullKey == hex key) = 1
  flagged : ∀ key line, line ∈ lines → line.fullKey = hex key →
    (line.collision = sharedMark ↔ ∃ other, listed other ∧ other ≠ key ∧
      shortId other = shortId key)

/-- A key that stands twice among the entries has two lines. -/
theorem not_flaggedExactly {nodes : Nodes} {ourPubkey : Bytes} {you : String}
    (hours : ourPubkey ≠ []) (hnode : ourPubkey ∈ nodes.keys) :
    ¬ FlaggedExactly (Listed nodes ourPubkey) (keyLines nodes ourPubkey you) := by
  intro h
  have hnodes : nodes.entries ≠ [] := by
    intro hempty
    rw [AList.keys, hempty] at hnode
    exact List.not_mem_nil hnode
  have hnodup : ((ids nodes ourPubkey you).map KeyEntry.pubkey).Nodup := by
    rw [List.nodup_iff_count_le_one]
    intro key
    by_cases hkey : key ∈ (ids nodes ourPubkey you).map KeyEntry.pubkey
    · have honce := h.once key ⟨hnodes, mem_map_ids_iff.mp hkey⟩
      rw [countP_keyLines hnodes] at honce
      exact honce.le
    · rw [List.count_eq_zero_of_not_mem hkey]
      exact Nat.zero_le 1
  rcases nodup_ids_iff.mp hnodup with hempty | hfresh
  · exact hours hempty
  · exact hfresh hnode

/-- The listing does what it is for exactly when no node has our key. -/
theorem keyLines_flaggedExactly_iff (nodes : Nodes) (ourPubkey : Bytes) (you : String) :
    FlaggedExactly (Listed nodes ourPubkey) (keyLines nodes ourPubkey you) ↔
      ourPubkey = [] ∨ ourPubkey ∉ nodes.keys := by
  constructor
  · intro h
    by_contra hours
    rw [not_or, not_not] at hours
    exact not_flaggedExactly hours.1 hours.2 h
  intro hours
  by_cases hnodes : nodes.entries = []
  · have hlines : keyLines nodes ourPubkey you = [] := by simp [keyLines, hnodes]
    rw [hlines]
    constructor
    · intro key hkey
      exact absurd hnodes hkey.1
    · intro key line hline
      exact absurd hline List.not_mem_nil
  have hnodup : ((ids nodes ourPubkey you).map KeyEntry.pubkey).Nodup := nodup_ids_iff.mpr hours
  constructor
  · intro key hkey
    rw [countP_keyLines hnodes]
    exact List.count_eq_one_of_mem hnodup (mem_map_ids_iff.mpr hkey.2)
  · intro key line hline hkey
    rw [keyLines_eq hnodes] at hline
    obtain ⟨entry, hentry, rfl⟩ := List.mem_map.mp hline
    obtain rfl : entry.pubkey = key := hex_injective hkey
    rw [line_shared_iff, one_lt_countP_iff hnodup (List.mem_map_of_mem hentry)]
    constructor
    · intro h
      obtain ⟨other, hother, hne, hshort⟩ := h
      exact ⟨other, ⟨hnodes, mem_map_ids_iff.mp hother⟩, hne, hshort⟩
    · intro h
      obtain ⟨other, hother, hne, hshort⟩ := h
      exact ⟨other, mem_map_ids_iff.mpr hother.2, hne, hshort⟩

def ourKey : Bytes := List.replicate 32 1

/-- The daemon of the machine `netmap` runs on answers with our own key. -/
def ourDaemon : Nodes :=
  AList.singleton ourKey {
    pubkey := ourKey
    hostname := "laptop"
    placement := ⟨ourKey, true, none⟩
    responder := .v4 0x7f000001 2050
    sigValid := true
    timeOk := true }

theorem our_daemon_listed_twice :
    ¬ FlaggedExactly (Listed ourDaemon ourKey) (keyLines ourDaemon ourKey "laptop") :=
  not_flaggedExactly (List.cons_ne_nil _ _) (List.mem_singleton_self _)

end Weverywhere.KeyListing
