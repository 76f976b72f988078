import Weverywhere.MapCoverage

/-!
Several records for one key (`print_network_map` in `src/src/command/netmap.rs`). The
first whose attestation verifies makes the entry, whether it is in the time window or
not, so an old record that comes first hides the new one behind it.
-/
namespace Weverywhere.FreshRows

open ByteStrings Attestation Identity Messages NetworkMap MapRows RowProvenance MapCoverage

variable (fromSlice : Bytes → Option Value) (c : Crypto) (now : UInt64)
  (replies : List (SocketAddr × Bytes))

/-- A reply whose attestation verifies under the key and is in the window. -/
def Fresh (pk : Bytes) (vn : VerifiedNode) : Prop :=
  ∃ reply ∈ replies, ∃ placement, speaksFor fromSlice c pk reply.2 = some (vn, placement) ∧
    attestationTimeOk vn.epochS now = true

/-- The row of the key is there, without a mark, and shows the hostname of an attestation
in the window. -/
structure ShownFresh (pk : Bytes) (rows : List Row) : Prop where
  drawn : ∃ row ∈ rows, row.pubkey = pk
  fresh : ∀ row ∈ rows, row.pubkey = pk →
    row.warn = "" ∧ ∃ vn, Fresh fromSlice c now replies pk vn ∧ row.hostname = vn.hostname

/-- The first reply whose attestation verifies under the key is in the window. -/
def FirstInWindow (pk : Bytes) : Prop :=
  ∀ spoken, (replies.findSome? fun reply => speaksFor fromSlice c pk reply.2) = some spoken →
    attestationTimeOk spoken.1.epochS now = true

variable {fromSlice c now replies}

/-- An entry is that of the first reply for its key. -/
theorem lookup_first {nodes : Nodes} {pk : Bytes} {node : Node}
    (horder : nodes.entries.Perm (assemble fromSlice c now replies).entries)
    (hlookup : nodes.lookup pk = some node) :
    ∃ reply ∈ replies, ∃ spoken, speaksFor fromSlice c pk reply.2 = some spoken ∧
      node = entryFor now pk reply.1 spoken ∧
      (replies.findSome? fun reply => speaksFor fromSlice c pk reply.2) = some spoken := by
  rw [AList.perm_lookup horder, lookup_assemble] at hlookup
  obtain ⟨before, reply, after, hsplit, hentry, hnone⟩ := List.findSome?_eq_some_iff.mp hlookup
  obtain ⟨spoken, hspoken, hnode⟩ := Option.map_eq_some_iff.mp hentry
  refine ⟨reply, by simp [hsplit], spoken, hspoken, hnode.symm, ?_⟩
  apply List.findSome?_eq_some_iff.mpr
  refine ⟨before, reply, after, hsplit, hspoken, ?_⟩
  intro other hother
  exact Option.map_eq_none_iff.mp (hnone other hother)

/-- A row has no mark when its entry is in the window. -/
theorem warn_rowOf (pk : Bytes) (responder : SocketAddr) (spoken : VerifiedNode × Placement)
    (indent : String) (isLast : Bool) :
    (rowOf pk (entryFor now pk responder spoken) indent isLast).warn = "" ↔
      attestationTimeOk spoken.1.epochS now = true := by
  cases htime : attestationTimeOk spoken.1.epochS now with
  | true => simp [rowOf, entryFor, htime]
  | false => simp [rowOf, entryFor, htime]

theorem shownFresh_iff {nodes : Nodes} {ourPubkey pk : Bytes}
    (horder : nodes.entries.Perm (assemble fromSlice c now replies).entries) :
    ShownFresh fromSlice c now replies pk (networkRows nodes ourPubkey) ↔
      FirstInWindow fromSlice c now replies pk ∧ ReachesRoot nodes ourPubkey pk := by
  have hrows := mem_rows_iff nodes ourPubkey pk
  constructor
  · intro hshown
    obtain ⟨row, hrow, hkey⟩ := hshown.drawn
    refine ⟨?_, hrows.mp (List.mem_map.mpr ⟨row, hrow, hkey⟩)⟩
    intro spoken hfirst
    obtain ⟨node, hlookup, indent, isLast, hshows⟩ := row_eq_rowOf hrow
    rw [hkey] at hlookup hshows
    obtain ⟨reply, -, spoken', -, rfl, hfirst'⟩ := lookup_first horder hlookup
    obtain rfl : spoken' = spoken := Option.some.inj (hfirst'.symm.trans hfirst)
    rw [← warn_rowOf pk reply.1 spoken' indent isLast, ← hshows]
    exact (hshown.fresh row hrow hkey).1
  · intro h
    obtain ⟨hwindow, hreaches⟩ := h
    refine ⟨List.mem_map.mp (hrows.mpr hreaches), ?_⟩
    intro row hrow hkey
    obtain ⟨node, hlookup, indent, isLast, hshows⟩ := row_eq_rowOf hrow
    rw [hkey] at hlookup hshows
    obtain ⟨reply, hreply, ⟨vn', placement⟩, hspoken, rfl, hfirst⟩ := lookup_first horder hlookup
    have htime := hwindow _ hfirst
    rw [hshows]
    refine ⟨(warn_rowOf pk reply.1 _ indent isLast).mpr htime, vn', ?_, rfl⟩
    exact ⟨reply, hreply, placement, hspoken, htime⟩

/-- For all replies in every order, and in whatever order the map of the nodes is read: a
key with a verified record in the window is shown so exactly when its first verified
record is in the window and the parents lead from it to a root. -/
theorem fresh_shown_iff (fromSlice : Bytes → Option Value) (c : Crypto) (ourPubkey : Bytes)
    (now : UInt64) (replies : List (SocketAddr × Bytes)) (nodes : Nodes)
    (horder : nodes.entries.Perm (assemble fromSlice c now replies).entries) (pk : Bytes) :
    ((∃ vn, Fresh fromSlice c now replies pk vn) →
        ShownFresh fromSlice c now replies pk (networkRows nodes ourPubkey)) ↔
      ((∃ vn, Fresh fromSlice c now replies pk vn) →
        FirstInWindow fromSlice c now replies pk ∧ ReachesRoot nodes ourPubkey pk) :=
  imp_congr_right fun _ => shownFresh_iff horder

/-! The server's record, and one it made a hundred seconds earlier. -/

def earlierEpoch : UInt64 := 1760000000
def laterEpoch : UInt64 := 1760000100

def twoEpochs : Crypto := idealCrypto
  [(TrustSets.serverKey, attestationSigningBytes "server" TrustSets.serverKey earlierEpoch),
    (TrustSets.serverKey, attestationSigningBytes "server" TrustSets.serverKey laterEpoch)]

def attestationAt (epochS : UInt64) : Bytes :=
  buildAttestationCbor "server" TrustSets.serverKey epochS (twoEpochs.sign TrustSets.serverKey
    (attestationSigningBytes "server" TrustSets.serverKey epochS))

def replyAt (epochS : UInt64) : SocketAddr × Bytes :=
  (.v4 0xC0A80114 2240, nodeRecord (attestationAt epochS) false 1 aliceKey "192.168.1.20:2240")

def placementAt : Placement := ⟨aliceKey, false, some "192.168.1.20:2240"⟩

theorem speaksFor_replyAt {epochS : UInt64} (h : epochS = earlierEpoch ∨ epochS = laterEpoch)
    (pk : Bytes) : speaksFor readMaps twoEpochs pk (replyAt epochS).2 =
      if TrustSets.serverKey = pk then
        some (⟨"server", TrustSets.serverKey, epochS⟩, placementAt) else none := by
  have hparse : parseRecord readMaps (replyAt epochS).2 =
      some (attestationAt epochS, placementAt) := by
    rcases h with rfl | rfl
    · apply parseRecord_nodeRecord readMaps_readsMaps <;> decide +kernel
    · apply parseRecord_nodeRecord readMaps_readsMaps <;> decide +kernel
  have hverify : verifyAttestationCbor readMaps twoEpochs (attestationAt epochS) =
      .ok ⟨"server", TrustSets.serverKey, epochS⟩ := by
    rcases h with rfl | rfl
    · apply verifyAttestationCbor_build readMaps_readsMaps <;> decide +kernel
    · apply verifyAttestationCbor_build readMaps_readsMaps <;> decide +kernel
  rw [speaksFor, hparse]
  simp only [hverify]

theorem fresh_replyAt {replies : List (SocketAddr × Bytes)} (hmem : replyAt laterEpoch ∈ replies) :
    Fresh readMaps twoEpochs laterEpoch replies TrustSets.serverKey
      ⟨"server", TrustSets.serverKey, laterEpoch⟩ := by
  refine ⟨replyAt laterEpoch, hmem, placementAt, ?_, by decide⟩
  rw [speaksFor_replyAt (.inr rfl), if_pos rfl]

/-- The later record alone. -/
theorem fresh_shown_iff_once :
    ShownFresh readMaps twoEpochs laterEpoch [replyAt laterEpoch] TrustSets.serverKey
      (networkRows (assemble readMaps twoEpochs laterEpoch [replyAt laterEpoch]) aliceKey) := by
  have hiff := fresh_shown_iff readMaps twoEpochs aliceKey laterEpoch [replyAt laterEpoch] _
    (List.Perm.refl _) TrustSets.serverKey
  refine hiff.mpr (fun _ => ⟨?_, .root ?_⟩) ⟨_, fresh_replyAt (List.mem_singleton_self _)⟩
  · intro spoken hfirst
    rw [List.findSome?_singleton, speaksFor_replyAt (.inr rfl), if_pos rfl] at hfirst
    rw [← Option.some.inj hfirst]
    decide
  · rw [isRoot, lookup_assemble, List.findSome?_singleton, speaksFor_replyAt (.inr rfl), if_pos rfl]
    simp [entryFor, placementAt]

/-- The earlier record comes first. -/
theorem replayed_record_masks :
    Fresh readMaps twoEpochs laterEpoch [replyAt earlierEpoch, replyAt laterEpoch]
        TrustSets.serverKey ⟨"server", TrustSets.serverKey, laterEpoch⟩ ∧
      ¬ ShownFresh readMaps twoEpochs laterEpoch [replyAt earlierEpoch, replyAt laterEpoch]
        TrustSets.serverKey (printNetworkMap readMaps twoEpochs aliceKey laterEpoch
          [replyAt earlierEpoch, replyAt laterEpoch]) := by
  refine ⟨fresh_replyAt (by simp), ?_⟩
  intro hshown
  have hfirst := ((shownFresh_iff (List.Perm.refl _)).mp hshown).1
  have htime := hfirst _ (by rw [List.findSome?_cons, speaksFor_replyAt (.inl rfl), if_pos rfl])
  exact absurd htime (by decide)

end Weverywhere.FreshRows
