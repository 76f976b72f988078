import Weverywhere.MapCoverage
import Weverywhere.RelayTiming

/-!
The map that comes of a discovery: what the nodes report, brought up by the relays in
time (`src/src/command/serve.rs`) and collected, assembled and drawn by `netmap`
(`src/src/command/netmap.rs`). A node is usually asked in more ways than one, and of its
records the first decides under whom it is drawn. As a node replies before it forwards,
somebody above it has always been heard of before.
-/
namespace Weverywhere.DrawnAnswers

open ByteStrings Attestation Identity Messages Discovery NetworkMap MapRows MapCoverage
  RowProvenance RelayTiming

/-! Drawing what was heard of in order. -/

section Drawing

variable (fromSlice : Bytes → Option Value) (c : Crypto) (ourPubkey : Bytes)

/-- Whoever a record names as its node's parent is us or was heard of before. -/
def ParentsFirst (replies : List (SocketAddr × Bytes)) : Prop :=
  ∀ front reply back, replies = front ++ reply :: back → ∀ key vn placement,
    speaksFor fromSlice c key reply.2 = some (vn, placement) →
      placement.parent = ourPubkey ∨ Verified fromSlice c front placement.parent

variable {fromSlice} {c} {ourPubkey} {now : UInt64} {replies : List (SocketAddr × Bytes)}
  {nodes : Nodes}

/-- Then the parents lead to a root: each to one that was heard of earlier. -/
theorem reachesRoot_of_parentsFirst
    (horder : nodes.entries.Perm (assemble fromSlice c now replies).entries)
    (h : ParentsFirst fromSlice c ourPubkey replies) {pk : Bytes}
    (hpk : Verified fromSlice c replies pk) : ReachesRoot nodes ourPubkey pk := by
  suffices hprefix : ∀ n front back, replies = front ++ back → front.length ≤ n → ∀ pk,
      Verified fromSlice c front pk → ReachesRoot nodes ourPubkey pk from
    hprefix replies.length replies [] (List.append_nil replies).symm (Nat.le_refl _) pk hpk
  intro n
  induction n with
  | zero =>
    intro front back _ hlength pk hverified
    obtain rfl := List.length_eq_zero_iff.mp (Nat.le_zero.mp hlength)
    obtain ⟨reply, hreply, -⟩ := hverified
    cases hreply
  | succ n ih =>
    intro front back hsplit hlength pk hverified
    -- the first record that speaks for the key makes its entry
    have hfound : (front.findSome? fun reply =>
        (speaksFor fromSlice c pk reply.2).map (entryFor now pk reply.1)).isSome = true := by
      rw [List.findSome?_isSome_iff]
      obtain ⟨reply, hreply, hspeaks⟩ := hverified
      exact ⟨reply, hreply, by rw [Option.isSome_map, hspeaks]⟩
    obtain ⟨node, hnode⟩ := Option.isSome_iff_exists.mp hfound
    have hlookup : nodes.lookup pk = some node := by
      rw [AList.perm_lookup horder, lookup_assemble, hsplit, List.findSome?_append, hnode,
        Option.some_or]
    obtain ⟨earlier, reply, rest, rfl, hentry, -⟩ := List.findSome?_eq_some_iff.mp hnode
    obtain ⟨⟨vn, placement⟩, hspeaks, rfl⟩ := Option.map_eq_some_iff.mp hentry
    rw [List.append_assoc] at hsplit
    have hparent := h earlier reply (rest ++ back) hsplit pk vn placement hspeaks
    rcases hparent with hours | hbefore
    · apply ReachesRoot.root
      simp only [isRoot, hlookup, entryFor, hours, BEq.rfl, Bool.true_or]
    · have hup : parentOf nodes pk = some placement.parent := by
        rw [parentOf, hlookup]
        rfl
      have hshorter : earlier.length ≤ n := by
        rw [List.length_append, List.length_cons] at hlength
        omega
      exact .child hup (ih earlier (reply :: (rest ++ back)) hsplit hshorter _ hbefore)

end Drawing

/-! What the nodes report. -/

/-- What a node says of itself. -/
structure Report where
  hostname : String
  pubkey : Bytes
  epochS : UInt64
  signature : Bytes
  trusts : Bool
  depth : ℕ
  nodeAddr : String

/-- The record of a node whose caller is `parent`. -/
def Report.record (r : Report) (parent : Bytes) : Bytes :=
  nodeRecord (buildAttestationCbor r.hostname r.pubkey r.epochS r.signature) r.trusts r.depth
    parent r.nodeAddr

/-- The attestation verifies, and all fits the buffers of `network-map.c`. -/
structure Report.Sound (c : Crypto) (r : Report) : Prop where
  hostname : (utf8 r.hostname).length ≤ 1024
  attestation : (buildAttestationCbor r.hostname r.pubkey r.epochS r.signature).length ≤ 1024
  depth : r.depth < 2 ^ 8
  nodeAddr : (utf8 r.nodeAddr).length ≤ 64
  verified : verifyDigest c r.pubkey (attestationSigningBytes r.hostname r.pubkey r.epochS)
    r.signature = .ok ()

def Report.placement (r : Report) (parent : Bytes) : Placement :=
  ⟨parent, r.trusts, if r.nodeAddr.isEmpty then none else some r.nodeAddr⟩

theorem Report.Sound.speaksFor {fromSlice : Bytes → Option Value} (hread : ReadsMaps fromSlice)
    {c : Crypto} {r : Report} (h : r.Sound c) {parent : Bytes} (hparent : parent.length ≤ 64)
    (key : Bytes) : speaksFor fromSlice c key (r.record parent) =
      if r.pubkey = key then some (⟨r.hostname, r.pubkey, r.epochS⟩, r.placement parent)
      else none := by
  obtain ⟨hhostname, hattestation, hdepth, haddr, hverified⟩ := h
  obtain ⟨hkey, -, hsignature, -⟩ := (verifyDigest_ok_iff c _ _ _).mp hverified
  have hparse : parseRecord fromSlice (r.record parent) =
      some (buildAttestationCbor r.hostname r.pubkey r.epochS r.signature, r.placement parent) := by
    apply parseRecord_nodeRecord hread <;> omega
  have hattested : verifyAttestationCbor fromSlice c
      (buildAttestationCbor r.hostname r.pubkey r.epochS r.signature) =
        .ok ⟨r.hostname, r.pubkey, r.epochS⟩ := by
    apply verifyAttestationCbor_build hread c _ _ _ hverified <;> omega
  rw [NetworkMap.speaksFor, hparse]
  simp only [hattested]

variable (report : Exchange → Report) (c : Crypto) (slack : ℕ)

/-- Every node returns the record of its report under its caller's key, and the records
of whom it asks in turn are due at its socket more than `slack` after its own has left. -/
inductive Reporting : Bytes → Answer → Prop
  | mk {caller : Bytes} {x : Exchange} {forwarded : List Answer} (sound : (report x).Sound c)
      (record : x.record = (report x).record caller)
      (later : ∀ a ∈ forwarded, x.replied + slack < a.exchange.replied + a.exchange.least)
      (deeper : ∀ a ∈ forwarded, Reporting (report x).pubkey a) : Reporting caller (.mk x forwarded)

/-- The record is a node's own, whose caller is `parent`. -/
def Speaks (key parent record : Bytes) : Prop :=
  parent.length ≤ 64 ∧ ∃ r : Report, r.Sound c ∧ r.pubkey = key ∧ record = r.record parent

variable {report} {c} {slack} {caller : Bytes} {a : Answer}

theorem Speaks.speaksFor_eq {fromSlice : Bytes → Option Value} (hread : ReadsMaps fromSlice)
    {key parent record : Bytes} (h : Speaks c key parent record) :
    ∃ vn placement, placement.parent = parent ∧ ∀ other, speaksFor fromSlice c other record =
      if key = other then some (vn, placement) else none := by
  obtain ⟨hparent, r, hsound, rfl, rfl⟩ := h
  exact ⟨_, r.placement parent, rfl, hsound.speaksFor hread hparent⟩

theorem Report.Sound.pubkey_length {r : Report} (h : r.Sound c) : r.pubkey.length ≤ 64 := by
  have hkey := ((verifyDigest_ok_iff c _ _ _).mp h.verified).1
  omega

theorem mem_exchangesOf {forwarded : List Answer} {x : Exchange} :
    x ∈ exchangesOf forwarded ↔ ∃ a ∈ forwarded, x ∈ a.exchanges := by
  induction forwarded with
  | nil => simp [exchangesOf]
  | cons a rest ih => simp [exchangesOf, ih]

theorem Reporting.speaks (h : Reporting report c slack caller a) (hcaller : caller.length ≤ 64) :
    ∀ x ∈ a.exchanges, (report x).Sound c ∧ ∃ parent, parent.length ≤ 64 ∧
      x.record = (report x).record parent := by
  induction h with
  | @mk caller y forwarded sound record later deeper ih =>
    intro x hx
    rw [Answer.exchanges] at hx
    rcases List.mem_cons.mp hx with rfl | hx
    · exact ⟨sound, caller, hcaller, record⟩
    · obtain ⟨a, ha, hxa⟩ := mem_exchangesOf.mp hx
      exact ih a ha sound.pubkey_length x hxa

/-- Nothing is due before the own record. -/
theorem Reporting.own_le (h : Reporting report c slack caller a) :
    ∀ d ∈ a.dues, a.exchange.replied + a.exchange.least ≤ d.time := by
  induction h with
  | @mk caller x forwarded sound record later deeper ih =>
    intro d hd
    rcases Answer.mem_dues.mp hd with rfl | ⟨a, ha, e, he, rfl⟩
    · exact Nat.le_refl _
    · have hown := ih a ha e he
      have hlater := later a ha
      simp only [Answer.exchange, Due.later]
      omega

/-- A record that names another node than the caller is due well after one of that node. -/
theorem Reporting.parent_due (h : Reporting report c slack caller a)
    (hcaller : caller.length ≤ 64) : ∀ d ∈ a.dues, ∃ key parent, Speaks c key parent d.record ∧
      (parent = caller ∨ ∃ d' ∈ a.dues, d'.time + slack < d.time ∧
        ∃ above, Speaks c parent above d'.record) := by
  induction h with
  | @mk caller x forwarded sound record later deeper ih =>
    have hown : Speaks c (report x).pubkey caller (x.own.later x.least).record :=
      ⟨hcaller, report x, sound, rfl, record⟩
    intro d hd
    rcases Answer.mem_dues.mp hd with rfl | ⟨a, ha, e, he, rfl⟩
    · exact ⟨_, _, hown, .inl rfl⟩
    · obtain ⟨key, parent, hspeaks, hparent⟩ := ih a ha sound.pubkey_length e he
      refine ⟨key, parent, hspeaks, .inr ?_⟩
      rcases hparent with rfl | ⟨d', hd', hbefore, habove⟩
      · refine ⟨_, Answer.mem_dues.mpr (.inl rfl), ?_, _, hown⟩
        have hlater := later a ha
        have hle := (deeper a ha).own_le e he
        simp only [Due.later, Exchange.own]
        omega
      · refine ⟨d'.later x.least, Answer.mem_dues.mpr (.inr ⟨a, ha, d', hd', rfl⟩), ?_, habove⟩
        simp only [Due.later]
        omega

/-! What the origin collects. -/

section Collected

variable {jitter soon hops : ℕ} {requestUuid : Uuid} {ourPubkey : Bytes}
  {roots : List Answer}

/-- A record that comes is due, and the record it was due well after has come before. -/
theorem parentsFirst_comers {fromSlice : Bytes → Option Value} (hread : ReadsMaps fromSlice)
    (hprompt : ∀ a ∈ roots, Prompt jitter soon slack hops a)
    (hslack : jitter * hops ≤ slack) (hsoon : soon + slack ≤ relayQuietTimeoutMs)
    (huuid : ∀ a ∈ roots, a.exchange.requestUuid = requestUuid)
    (hour : ourPubkey.length ≤ 64)
    (hreport : ∀ a ∈ roots, Reporting report c slack ourPubkey a) :
    ParentsFirst fromSlice c ourPubkey ((comers roots).filterMap (entry requestUuid)) := by
  intro front reply back hsplit key vn placement hspeaks
  obtain ⟨before, rest, hcomers, rfl, hrest⟩ := List.filterMap_eq_append_iff.mp hsplit
  obtain ⟨silent, r, later, rfl, hsilent, hentry, -⟩ := List.filterMap_eq_cons_iff.mp hrest
  have hr : r ∈ comers roots := by
    rw [hcomers]
    simp
  obtain ⟨a, ha, hra⟩ := mem_comers.mp hr
  have hrel := (hprompt a ha).rel_arrivals hslack hsoon
  rw [huuid a ha] at hrel
  obtain ⟨d, hd, hcarries⟩ := exists_of_rel_right hrel hra
  obtain ⟨key', parent, hown, hparent⟩ := (hreport a ha).parent_due hour d hd
  obtain rfl : (a.exchange.address, d.record) = reply :=
    Option.some.inj (hcarries.entry_eq.symm.trans hentry)
  obtain ⟨vn', placement', hplacement, hreads⟩ := hown.speaksFor_eq hread
  obtain rfl : placement' = placement := by
    rw [hreads key] at hspeaks
    split_ifs at hspeaks
    · exact congrArg Prod.snd (Option.some.inj hspeaks)
  rw [hplacement]
  rcases hparent with rfl | ⟨d', hd', hbefore, above, habove⟩
  · exact .inl rfl
  · right
    obtain ⟨r', hr', hcarries'⟩ := exists_of_rel_left hrel hd'
    have hle := hcarries'.le_due
    have hge := hcarries.due_le
    have hearlier : r'.time < r.time := by omega
    have hentry' := hcarries'.entry_eq
    have hmem := mem_comers.mpr ⟨a, ha, hr'⟩
    have hsorted : (comers roots).Pairwise fun x y => x.time ≤ y.time := comers_sorted
    rw [hcomers] at hmem hsorted
    have hfront : r' ∈ before := by
      rcases List.mem_append.mp hmem with hmem | hmem
      · exact hmem
      · rcases List.mem_append.mp hmem with hmem | hmem
        · exact absurd hentry' (by rw [hsilent r' hmem]; nofun)
        · rcases List.mem_cons.mp hmem with rfl | hmem
          · omega
          · have htail := (List.pairwise_append.mp (List.pairwise_append.mp hsorted).2.1).2.1
            have hafter := (List.pairwise_cons.mp htail).1 r' hmem
            omega
    obtain ⟨vn'', placement'', -, hreads'⟩ := habove.speaksFor_eq hread
    refine ⟨_, List.mem_filterMap.mpr ⟨r', hfront, hentry'⟩, ?_⟩
    rw [hreads' parent, if_pos rfl]
    rfl

/-- What is collected are records of the nodes that were asked. -/
theorem exists_of_collected (hprompt : ∀ a ∈ roots, Prompt jitter soon slack hops a)
    (hslack : jitter * hops ≤ slack) (hsoon : soon + slack ≤ relayQuietTimeoutMs)
    (huuid : ∀ a ∈ roots, a.exchange.requestUuid = requestUuid) (hour : ourPubkey.length ≤ 64)
    (hreport : ∀ a ∈ roots, Reporting report c slack ourPubkey a) {reply : SocketAddr × Bytes}
    (hreply : reply ∈ (comers roots).filterMap (entry requestUuid)) :
    ∃ x ∈ roots.flatMap Answer.exchanges, ∃ parent, parent.length ≤ 64 ∧
      (report x).Sound c ∧ reply.2 = (report x).record parent := by
  have hperm := perm_comers hprompt hslack hsoon huuid
  obtain ⟨a, ha, hmem⟩ := List.mem_flatMap.mp (hperm.subset hreply)
  obtain ⟨x, hx, rfl⟩ := List.mem_map.mp hmem
  obtain ⟨hsound, parent, hparent, hrecord⟩ := (hreport a ha).speaks hour x hx
  exact ⟨x, List.mem_flatMap.mpr ⟨a, ha, hx⟩, parent, hparent, hsound, hrecord⟩

theorem verified_iff_asked {fromSlice : Bytes → Option Value} (hread : ReadsMaps fromSlice)
    (hprompt : ∀ a ∈ roots, Prompt jitter soon slack hops a)
    (hslack : jitter * hops ≤ slack) (hsoon : soon + slack ≤ relayQuietTimeoutMs)
    (huuid : ∀ a ∈ roots, a.exchange.requestUuid = requestUuid) (hour : ourPubkey.length ≤ 64)
    (hreport : ∀ a ∈ roots, Reporting report c slack ourPubkey a) (pk : Bytes) :
    Verified fromSlice c ((comers roots).filterMap (entry requestUuid)) pk ↔
      pk ∈ (roots.flatMap Answer.exchanges).map fun x => (report x).pubkey := by
  constructor
  · rintro ⟨reply, hreply, hsome⟩
    obtain ⟨x, hx, parent, hparent, hsound, hrecord⟩ :=
      exists_of_collected hprompt hslack hsoon huuid hour hreport hreply
    rw [hrecord, hsound.speaksFor hread hparent] at hsome
    split_ifs at hsome with hkey
    · exact List.mem_map.mpr ⟨x, hx, hkey⟩
    · cases hsome
  · intro hpk
    obtain ⟨x, hx, rfl⟩ := List.mem_map.mp hpk
    obtain ⟨a, ha, hxa⟩ := List.mem_flatMap.mp hx
    obtain ⟨hsound, parent, hparent, hrecord⟩ := (hreport a ha).speaks hour x hxa
    have hcollected : (a.exchange.address, x.record) ∈
        (comers roots).filterMap (entry requestUuid) :=
      (perm_comers hprompt hslack hsoon huuid).symm.subset
        (List.mem_flatMap.mpr ⟨a, ha, List.mem_map.mpr ⟨x, hxa, rfl⟩⟩)
    refine ⟨_, hcollected, ?_⟩
    rw [hrecord, hsound.speaksFor hread hparent, if_pos rfl]
    rfl

/-- When all subtrees are prompt, the map has one row for each node that was asked and no
other, however many ways a node was asked in and in whatever order the node table is
read; and each row shows a hostname that its node has reported. -/
theorem asked_nodes_drawn_once {fromSlice : Bytes → Option Value} (hread : ReadsMaps fromSlice)
    (start : ℕ) (hprompt : ∀ a ∈ roots, Prompt jitter soon slack hops a)
    (hslack : jitter * hops ≤ slack) (hsoon : soon + slack ≤ relayQuietTimeoutMs)
    (huuid : ∀ a ∈ roots, a.exchange.requestUuid = requestUuid)
    (hinside : ∀ a ∈ roots, ∀ d ∈ a.dues, d.time + slack < start + collectMs)
    (hour : ourPubkey.length ≤ 64) (hreport : ∀ a ∈ roots, Reporting report c slack ourPubkey a)
    (now : UInt64) (nodes : Nodes)
    (horder : nodes.entries.Perm (assemble fromSlice c now (collectUntil requestUuid
      (start + collectMs) start (inOrder (roots.flatMap Answer.arrivals)))).entries) :
    (∀ pk, ((networkRows nodes ourPubkey).map Row.pubkey).count pk =
      if pk ∈ (roots.flatMap Answer.exchanges).map fun x => (report x).pubkey then 1 else 0) ∧
    ∀ row ∈ networkRows nodes ourPubkey, ∃ x ∈ roots.flatMap Answer.exchanges,
      (report x).pubkey = row.pubkey ∧ (report x).hostname = row.hostname := by
  rw [collectUntil_eq_comers start hprompt hslack hsoon hinside] at horder
  have hfirst := parentsFirst_comers hread hprompt hslack hsoon huuid hour hreport
  have hverified := verified_iff_asked hread hprompt hslack hsoon huuid hour hreport
  constructor
  · intro pk
    split_ifs with hpk
    · apply List.count_eq_one_of_mem (rows_nodup nodes ourPubkey)
      rw [mem_rows_iff]
      exact reachesRoot_of_parentsFirst horder hfirst ((hverified pk).mpr hpk)
    · apply List.count_eq_zero_of_not_mem
      intro hrow
      have hreaches := (mem_rows_iff nodes ourPubkey pk).mp hrow
      exact hpk ((hverified pk).mp ((lookup_isSome_iff horder pk).mp hreaches.lookup_isSome))
  · intro row hrow
    obtain ⟨node, hnode, indent, isLast, hshown⟩ := row_eq_rowOf hrow
    rw [AList.perm_lookup horder, lookup_assemble] at hnode
    obtain ⟨reply, hreply, hentry⟩ := List.exists_of_findSome?_eq_some hnode
    obtain ⟨⟨vn, placement⟩, hreads, rfl⟩ := Option.map_eq_some_iff.mp hentry
    obtain ⟨x, hx, parent, hparent, hsound, hrecord⟩ :=
      exists_of_collected hprompt hslack hsoon huuid hour hreport hreply
    rw [hrecord, hsound.speaksFor hread hparent] at hreads
    split_ifs at hreads with hkey
    obtain rfl := congrArg Prod.fst (Option.some.inj hreads)
    refine ⟨x, hx, hkey, ?_⟩
    rw [hshown]
    rfl

end Collected

/-! The laptop and the server behind it. -/

/-- The signatures on record: of each node's hostname, key and clock. -/
def nodesCrypto : Crypto := idealCrypto
  [(TrustSets.laptopKey.toList,
      attestationSigningBytes "laptop" TrustSets.laptopKey.toList 1760000000),
    (TrustSets.serverKey, attestationSigningBytes "server" TrustSets.serverKey 1760000000)]

def reportAt (hostname : String) (pubkey : Bytes) (depth : ℕ) : Report where
  hostname := hostname
  pubkey := pubkey
  epochS := 1760000000
  signature := nodesCrypto.sign pubkey (attestationSigningBytes hostname pubkey 1760000000)
  trusts := true
  depth := depth
  nodeAddr := ""

/-- The program runs as PID 7 on the laptop. -/
def reportOf (x : Exchange) : Report :=
  if x.fromPid = 7 then reportAt "laptop" TrustSets.laptopKey.toList 2
  else reportAt "server" TrustSets.serverKey 1

def reportedAnswer : Answer :=
  .mk { laptopExchange with
    record := (reportAt "laptop" TrustSets.laptopKey.toList 2).record aliceKey }
    [.mk { serverExchange with
      record := (reportAt "server" TrustSets.serverKey 1).record TrustSets.laptopKey.toList } []]

theorem reportedAnswer_prompt : Prompt 1 1400 20 2 reportedAnswer := by
  refine .mk ⟨by decide, fun k => ?_, by decide +kernel, by decide⟩ ?_ ?_ ?_ ?_
  · simp only [laptopExchange]
    omega
  · simp [Answer.exchange, serverExchange, laptopExchange]
  · simp [Answer.exchange, serverExchange, laptopExchange]
  · decide +kernel
  · intro a ha
    obtain rfl := List.mem_singleton.mp ha
    refine .mk ⟨by decide, fun k => ?_, by decide +kernel, by decide +kernel⟩ ?_ ?_ ?_ ?_
    · simp only [serverExchange]
      omega
    all_goals simp

theorem reportedAnswer_reporting : Reporting reportOf nodesCrypto 20 aliceKey reportedAnswer := by
  refine .mk ⟨?_, ?_, ?_, ?_, ?_⟩ rfl ?_ ?_
  · decide +kernel
  · decide +kernel
  · decide +kernel
  · decide +kernel
  · decide +kernel
  · simp [Answer.exchange, serverExchange, laptopExchange]
  · intro a ha
    obtain rfl := List.mem_singleton.mp ha
    refine .mk ⟨?_, ?_, ?_, ?_, ?_⟩ rfl (by simp) (by simp)
    all_goals decide +kernel

def laptopNodes : Nodes := assemble readMaps nodesCrypto 1760000000 (collectUntil
  (Vector.replicate 16 1) (5 + collectMs) 5 (inOrder ([reportedAnswer].flatMap Answer.arrivals)))

theorem asked_nodes_drawn_once_laptop :
    (∀ pk, ((networkRows laptopNodes aliceKey).map Row.pubkey).count pk =
      if pk ∈ ([reportedAnswer].flatMap Answer.exchanges).map fun x => (reportOf x).pubkey then 1
      else 0) ∧
    ∀ row ∈ networkRows laptopNodes aliceKey, ∃ x ∈ [reportedAnswer].flatMap Answer.exchanges,
      (reportOf x).pubkey = row.pubkey ∧ (reportOf x).hostname = row.hostname := by
  have hour : aliceKey.length ≤ 64 := by decide
  have hprompt : ∀ a ∈ [reportedAnswer], Prompt 1 1400 20 2 a := by
    simpa using reportedAnswer_prompt
  have hreport : ∀ a ∈ [reportedAnswer], Reporting reportOf nodesCrypto 20 aliceKey a := by
    simpa using reportedAnswer_reporting
  have huuid : ∀ a ∈ [reportedAnswer], a.exchange.requestUuid = Vector.replicate 16 1 := by
    intro a ha
    obtain rfl := List.mem_singleton.mp ha
    rfl
  have hinside : ∀ a ∈ [reportedAnswer], ∀ d ∈ a.dues, d.time + 20 < 5 + collectMs := by
    decide +kernel
  exact asked_nodes_drawn_once readMaps_readsMaps 5 hprompt (by decide) (by decide) huuid hinside
    hour hreport 1760000000 laptopNodes (List.Perm.refl _)

end Weverywhere.DrawnAnswers
