import Weverywhere.MapRows
import Weverywhere.RelayWorld

/-!
Whose word a row of the map is. Everybody but one honest node is an adversary who
sends the origin what it likes, short of forging that node's signature. An
attestation signs a hostname, a key and a clock, so the parent, the trust mark and
the address beside it are those of whoever sent the record: they are the node's
own when the first record under its key is one it returned.
-/
namespace Weverywhere.RowProvenance

open ByteStrings Attestation Identity Messages Discovery RelayWorld NetworkMap MapRows Runs

/-- How the honest node has used its key, the records it returned with the
discovery each belongs to, and what the origin has collected. -/
structure World where
  calls : List SignCall
  returned : List (ℕ × Bytes)
  replies : List (SocketAddr × Bytes)

inductive Action
  | sign (call : SignCall)
  /-- `host::return_map` in a program of that discovery. -/
  | returnMap (discovery : ℕ) (record : Bytes)
  | receive (responder : SocketAddr) (message : NetworkMessage)

def start : World := ⟨[], [], []⟩

section Step

variable (requestUuid : Uuid)

/-- One datagram read by `collect_until`. -/
def collectReply (responder : SocketAddr) (message : NetworkMessage) :
    Option (SocketAddr × Bytes) :=
  (collected requestUuid message).map fun reply => (responder, reply.2)

def step (w : World) : Action → World
  | .sign call => { w with calls := w.calls ++ [call] }
  | .returnMap discovery record => { w with returned := w.returned ++ [(discovery, record)] }
  | .receive responder message =>
      { w with replies := w.replies ++ (collectReply requestUuid responder message).toList }

end Step

variable (fromSlice : Bytes → Option Value) (c : Crypto)

/-- The origin collects for `requestUuid`, the UUID of `discovery`; `v` is the key
of the honest node. -/
structure Origin where
  requestUuid : Uuid
  discovery : ℕ
  ourPubkey : Bytes
  v : Bytes

/-- Ideal ed25519 for the honest key, which attests no other. -/
def Allowed (o : Origin) (w : World) : Action → Prop
  | .sign (.signedAttestation _ pubkey _) => pubkey = o.v
  | .receive responder message =>
      ∀ reply ∈ collectReply o.requestUuid responder message, ∀ attestation placement,
        parseRecord fromSlice reply.2 = some (attestation, placement) →
        ∀ signature ∈ signatureOf fromSlice attestation, ∀ m,
          c.verify o.v m signature = true → ∃ call ∈ w.calls, call.message c = m
  | _ => True

/-- The honest node returned a record with this placement in the discovery. -/
def Own (o : Origin) (w : World) (placement : Placement) : Prop :=
  ∃ record attestation, (o.discovery, record) ∈ w.returned ∧
    parseRecord fromSlice record = some (attestation, placement)

/-- A row of the honest node's key is placed, marked and addressed as a record
says that the node returned in this discovery. -/
def RowsOwn (o : Origin) (w : World) : Prop :=
  ∀ now, ∀ row ∈ printNetworkMap fromSlice c o.ourPubkey now w.replies, row.pubkey = o.v →
    ∃ placement, Own fromSlice o w placement ∧
      parentOf (assemble fromSlice c now w.replies) o.v = some placement.parent ∧
      row.trustMark = trustMark placement.trustsCaller ∧
      row.addr.getLeft? = placement.nodeAddr

/-- The condition on a step: the first collected reply that speaks for the honest
node has the placement of a record it has returned in this discovery. -/
def FirstIsOwn (o : Origin) (w : World) : Action → Prop
  | .receive responder message =>
      ∀ reply ∈ collectReply o.requestUuid responder message,
        (∀ earlier ∈ w.replies, speaksFor fromSlice c o.v earlier.2 = none) →
        ∀ spoken ∈ speaksFor fromSlice c o.v reply.2, Own fromSlice o w spoken.2
  | _ => True

/-- What the first reply that speaks for the honest node says. -/
def firstSpoken (o : Origin) (replies : List (SocketAddr × Bytes)) :
    Option (VerifiedNode × Placement) :=
  replies.findSome? fun reply => speaksFor fromSlice c o.v reply.2

/-- The entry of the honest node's key has the placement of a record the node
returned in this discovery. -/
def EntryOwn (o : Origin) (w : World) : Prop :=
  ∀ spoken ∈ firstSpoken fromSlice c o w.replies, Own fromSlice o w spoken.2

theorem firstSpoken_snoc (o : Origin) (replies : List (SocketAddr × Bytes))
    (reply : SocketAddr × Bytes) :
    firstSpoken fromSlice c o (replies ++ [reply]) =
      (firstSpoken fromSlice c o replies).or (speaksFor fromSlice c o.v reply.2) := by
  rw [firstSpoken, List.findSome?_append, List.findSome?_singleton]
  rfl

theorem entryOwn_start (o : Origin) : EntryOwn fromSlice c o start := by
  intro spoken hspoken
  cases hspoken

theorem entryOwn_step_iff (o : Origin) (w : World) (action : Action)
    (h : EntryOwn fromSlice c o w) :
    EntryOwn fromSlice c o (step o.requestUuid w action) ↔ FirstIsOwn fromSlice c o w action := by
  cases action with
  | sign call => exact ⟨fun _ => trivial, fun _ => h⟩
  | returnMap discovery record =>
    refine ⟨fun _ => trivial, fun _ spoken hspoken => ?_⟩
    obtain ⟨own, attestation, hmem, hparse⟩ := h spoken hspoken
    exact ⟨own, attestation, List.mem_append_left _ hmem, hparse⟩
  | receive responder message =>
    simp only [EntryOwn, FirstIsOwn, step]
    cases collectReply o.requestUuid responder message with
    | none =>
      rw [Option.toList_none, List.append_nil]
      constructor
      · rintro - reply ⟨⟩
      · exact fun _ => h
    | some reply =>
      rw [Option.toList_some, firstSpoken_snoc]
      cases hfirst : firstSpoken fromSlice c o w.replies with
      | none =>
        have hsilent : ∀ earlier ∈ w.replies, speaksFor fromSlice c o.v earlier.2 = none :=
          List.findSome?_eq_none_iff.mp hfirst
        constructor
        · rintro hown reply' ⟨rfl⟩ - spoken hspoken
          exact hown spoken hspoken
        · intro hok spoken hspoken
          exact hok reply rfl hsilent spoken hspoken
      | some spoken =>
        -- somebody has spoken for the node already
        have hspoke : ¬ ∀ earlier ∈ w.replies, speaksFor fromSlice c o.v earlier.2 = none := by
          intro hsilent
          have hnone := List.findSome?_eq_none_iff.mpr hsilent
          exact absurd (hfirst.symm.trans hnone) (by simp)
        constructor
        · intro _ _ _ hsilent
          exact absurd hsilent hspoke
        · intro _ spoken' hspoken'
          exact h spoken' (hfirst.trans hspoken')

/-- The entry under the honest node's key stays the node's own exactly when the
first record that speaks for the node has the placement of one it returned. -/
theorem entries_own_iff (o : Origin) (actions : List Action) :
    EveryState (step o.requestUuid) (EntryOwn fromSlice c o) start actions ↔
      EachStep (step o.requestUuid) (FirstIsOwn fromSlice c o) start actions := by
  have hnothing : ∀ (_ : World) (_ : Action), True → True := fun _ _ h => h
  exact everyState_iff_eachStep_of_inv _ hnothing
    (fun w action _ => entryOwn_step_iff fromSlice c o w action) trivial
    (entryOwn_start fromSlice c o) actions

theorem rowsOwn_of_entryOwn {o : Origin} {w : World} (h : EntryOwn fromSlice c o w) :
    RowsOwn fromSlice c o w := by
  intro now row hrow hkey
  obtain ⟨node, hlookup, indent, isLast, hshown⟩ := row_eq_rowOf hrow
  rw [hkey] at hlookup hshown
  have hplaced := placement_lookup_assemble fromSlice c now w.replies o.v
  rw [hlookup, Option.map_some] at hplaced
  obtain ⟨spoken, hspoken, hplacement⟩ := Option.map_eq_some_iff.mp hplaced.symm
  refine ⟨node.placement, hplacement ▸ h spoken hspoken, ?_, ?_, ?_⟩
  · rw [parentOf, hlookup, Option.map_some]
  · rw [hshown]
    rfl
  · rw [hshown, rowOf]
    cases node.placement.nodeAddr <;> rfl

/-! What the signature does cover. -/

/-- Every reply that speaks for the honest node repeats a hostname and a clock the
node has attested. -/
structure Attested (o : Origin) (w : World) : Prop where
  honest : ∀ hostname pubkey epochS, .signedAttestation hostname pubkey epochS ∈ w.calls →
    pubkey = o.v
  replies : ∀ reply ∈ w.replies, ∀ spoken ∈ speaksFor fromSlice c o.v reply.2,
    .signedAttestation spoken.1.hostname o.v spoken.1.epochS ∈ w.calls

theorem attested_start (o : Origin) : Attested fromSlice c o start :=
  ⟨by simp [start], by simp [start]⟩

theorem attested_reply {o : Origin} {w : World} (hc : CollisionFree c)
    (h : Attested fromSlice c o w) {responder : SocketAddr} {message : NetworkMessage}
    (hallowed : Allowed fromSlice c o w (.receive responder message)) {reply : SocketAddr × Bytes}
    (hreply : reply ∈ collectReply o.requestUuid responder message)
    {spoken : VerifiedNode × Placement}
    (hspoken : spoken ∈ speaksFor fromSlice c o.v reply.2) :
    .signedAttestation spoken.1.hostname o.v spoken.1.epochS ∈ w.calls := by
  obtain ⟨hkey, attestation, hparse, hverified⟩ := speaksFor_eq_some fromSlice hspoken
  obtain ⟨-, signature, hsignature, hverify⟩ := verifyAttestationCbor_eq_ok fromSlice hverified
  rw [hkey] at hverify
  obtain ⟨call, hcall, hmessage⟩ :=
    hallowed reply hreply attestation spoken.2 hparse signature hsignature _ hverify
  -- a digest is never the text of an attestation
  cases call with
  | signIdentityData humanName generatedAt validity fmt key =>
    exact absurd hmessage (hc.sha256_ne_attestation _ _ _ _)
  | signPayload id payload => exact absurd hmessage (hc.sha256_ne_attestation _ _ _ _)
  | signedAttestation hostname pubkey epochS =>
    have hown := h.honest hostname pubkey epochS hcall
    subst hown
    obtain ⟨hhostname, hepoch⟩ := attestationSigningBytes_injective hmessage
    rw [← hhostname, ← hepoch]
    exact hcall

theorem attested_step {o : Origin} {w : World} (hc : CollisionFree c) {action : Action}
    (hallowed : Allowed fromSlice c o w action) (h : Attested fromSlice c o w) :
    Attested fromSlice c o (step o.requestUuid w action) := by
  cases action with
  | sign call =>
    constructor
    · intro hostname pubkey epochS hmem
      rcases List.mem_append.mp hmem with hmem | hmem
      · exact h.honest hostname pubkey epochS hmem
      · rw [← List.mem_singleton.mp hmem] at hallowed
        exact hallowed
    · intro reply hreply spoken hspoken
      exact List.mem_append_left _ (h.replies reply hreply spoken hspoken)
  | returnMap discovery record => exact ⟨h.honest, h.replies⟩
  | receive responder message =>
    refine ⟨h.honest, ?_⟩
    intro reply hmem spoken hspoken
    rcases List.mem_append.mp hmem with hmem | hmem
    · exact h.replies reply hmem spoken hspoken
    · exact attested_reply fromSlice c hc h hallowed (Option.mem_toList.mp hmem) hspoken

/-- Under ideal ed25519 nobody gives the honest node a hostname or a time it has
not attested. -/
theorem rows_attested (hc : CollisionFree c) (o : Origin) {actions : List Action}
    (hallowed : EachStep (step o.requestUuid) (Allowed fromSlice c o) start actions) :
    EveryState (step o.requestUuid) (fun w => ∀ now,
      ∀ row ∈ printNetworkMap fromSlice c o.ourPubkey now w.replies, row.pubkey = o.v →
        ∃ epochS, .signedAttestation row.hostname o.v epochS ∈ w.calls) start actions := by
  have hrows : ∀ w, Attested fromSlice c o w → ∀ now,
      ∀ row ∈ printNetworkMap fromSlice c o.ourPubkey now w.replies, row.pubkey = o.v →
        ∃ epochS, .signedAttestation row.hostname o.v epochS ∈ w.calls := by
    intro w h now row hrow hkey
    obtain ⟨node, hlookup, indent, isLast, hshown⟩ := row_eq_rowOf hrow
    rw [hkey, lookup_assemble] at hlookup
    obtain ⟨reply, hreply, hentry⟩ := List.exists_of_findSome?_eq_some hlookup
    obtain ⟨spoken, hspoken, rfl⟩ := Option.map_eq_some_iff.mp hentry
    rw [hshown]
    exact ⟨spoken.1.epochS, h.replies reply hreply spoken hspoken⟩
  exact everyState_of_eachStep _ (fun w action hok h => attested_step fromSlice c hc hok h) hrows
    hallowed (attested_start fromSlice c o)

/-- Whatever the others send and whenever the map is printed, a row of the honest
node's key shows the parent, the trust mark and the address of a record that node
returned in this discovery, as long as the first collected record whose attestation
verifies under the key carries those of one it had returned. -/
theorem rows_own (o : Origin) {actions : List Action}
    (h : EachStep (step o.requestUuid) (FirstIsOwn fromSlice c o) start actions) :
    EveryState (step o.requestUuid) (RowsOwn fromSlice c o) start actions := by
  have hstep : ∀ (w : World) action, FirstIsOwn fromSlice c o w action →
      EntryOwn fromSlice c o w → EntryOwn fromSlice c o (step o.requestUuid w action) :=
    fun w action hfirst hown => (entryOwn_step_iff fromSlice c o w action hown).mpr hfirst
  exact everyState_of_eachStep _ hstep (fun w hown => rowsOwn_of_entryOwn fromSlice c hown) h
    (entryOwn_start fromSlice c o)

/-! A server asked directly, and one whose record comes through the laptop. -/

def serverOrigin : Origin := ⟨Vector.replicate 16 7, 0, aliceKey, TrustSets.serverKey⟩

/-- The one signature on record: the server's hostname, key and clock. -/
def serverCrypto : Crypto := idealCrypto
  [(TrustSets.serverKey, attestationSigningBytes "server" TrustSets.serverKey 1760000000)]

def readMaps (bytes : Bytes) : Option Value := (Cbor.decode 2 bytes).map ofCbor

theorem readMaps_readsMaps : ReadsMaps readMaps := by
  intro entries _ hentries
  rw [readMaps, Cbor.decode_encode 2 _ hentries, Option.map_some]

def serverAttestation : Bytes :=
  buildAttestationCbor "server" TrustSets.serverKey 1760000000 (serverCrypto.sign
    TrustSets.serverKey (attestationSigningBytes "server" TrustSets.serverKey 1760000000))

/-- The server does not trust the origin, which asked it itself. -/
def serverRecord : Bytes := nodeRecord serverAttestation false 1 aliceKey "192.168.1.20:2240"

/-- The laptop's version: the server is its child, trusts the origin and is
somewhere else. -/
def laptopRecord : Bytes :=
  nodeRecord serverAttestation true 2 TrustSets.laptopKey.toList "192.168.1.66:2240"

def served (record : Bytes) : List Action :=
  [.sign (.signedAttestation "server" TrustSets.serverKey 1760000000),
    .returnMap 0 serverRecord,
    .receive (.v4 0xC0A8010A 2240) (.basicReturnMap 1 (Vector.replicate 16 7) record)]

theorem serverAttestation_verified : verifyAttestationCbor readMaps serverCrypto serverAttestation =
    .ok ⟨"server", TrustSets.serverKey, 1760000000⟩ := by
  apply verifyAttestationCbor_build readMaps_readsMaps <;> decide +kernel

theorem parse_serverRecord : parseRecord readMaps serverRecord =
    some (serverAttestation, ⟨aliceKey, false, some "192.168.1.20:2240"⟩) := by
  apply parseRecord_nodeRecord readMaps_readsMaps <;> decide +kernel

theorem parse_laptopRecord : parseRecord readMaps laptopRecord =
    some (serverAttestation, ⟨TrustSets.laptopKey.toList, true, some "192.168.1.66:2240"⟩) := by
  apply parseRecord_nodeRecord readMaps_readsMaps <;> decide +kernel

/-- The honest server makes its own attestation, so no datagram carries a
signature it has not issued. -/
theorem served_allowed (record : Bytes) :
    EachStep (step serverOrigin.requestUuid) (Allowed readMaps serverCrypto serverOrigin) start
      (served record) := by
  refine ⟨rfl, trivial, ?_, trivial⟩
  intro reply _ attestation placement _ signature _ m hverify
  simp only [serverCrypto, idealCrypto, List.mem_singleton, Bool.and_eq_true,
    decide_eq_true_eq, Prod.mk.injEq] at hverify
  exact ⟨.signedAttestation "server" TrustSets.serverKey 1760000000, by simp [step, start],
    hverify.1.2.symm⟩

theorem rows_own_passed_on :
    EveryState (step serverOrigin.requestUuid) (RowsOwn readMaps serverCrypto serverOrigin) start
      (served serverRecord) := by
  have hfirst : EachStep (step serverOrigin.requestUuid)
      (FirstIsOwn readMaps serverCrypto serverOrigin) start (served serverRecord) := by
    refine ⟨trivial, trivial, ?_, trivial⟩
    rintro reply ⟨rfl⟩ - spoken hspoken
    obtain ⟨-, attestation, hparse, -⟩ := speaksFor_eq_some readMaps hspoken
    exact ⟨serverRecord, attestation, by simp [step, start, serverOrigin], hparse⟩
  exact rows_own readMaps serverCrypto serverOrigin hfirst

theorem altered_record_shown :
    EachStep (step serverOrigin.requestUuid) (Allowed readMaps serverCrypto serverOrigin) start
      (served laptopRecord) ∧
    ¬ EveryState (step serverOrigin.requestUuid) (RowsOwn readMaps serverCrypto serverOrigin) start
      (served laptopRecord) := by
  refine ⟨served_allowed laptopRecord, fun hrows => ?_⟩
  have hreplies : ((served laptopRecord).foldl (step serverOrigin.requestUuid) start).replies =
      [(.v4 0xC0A8010A 2240, laptopRecord)] := by
    rfl
  have hentry : ∀ v, (assemble readMaps serverCrypto 1760000000
      [(.v4 0xC0A8010A 2240, laptopRecord)]).lookup v =
      if TrustSets.serverKey = v then some (entryFor 1760000000 v (.v4 0xC0A8010A 2240)
        (⟨"server", TrustSets.serverKey, 1760000000⟩,
          ⟨TrustSets.laptopKey.toList, true, some "192.168.1.66:2240"⟩)) else none := by
    intro v
    rw [lookup_assemble, List.findSome?_singleton, speaksFor, parse_laptopRecord]
    simp only [serverAttestation_verified]
    split_ifs <;> rfl
  have hother : ¬ TrustSets.serverKey = TrustSets.laptopKey.toList := by decide
  -- nobody has answered for the laptop, so the server is drawn at the margin
  have hroot : isRoot (assemble readMaps serverCrypto 1760000000
      [(.v4 0xC0A8010A 2240, laptopRecord)]) aliceKey TrustSets.serverKey = true := by
    rw [isRoot, hentry, if_pos rfl]
    simp only [entryFor, hentry, if_neg hother, Option.isNone_none, Bool.or_true]
  obtain ⟨row, hrow, hkey⟩ := root_drawn hroot
  have hlast := hrows.last
  rw [RowsOwn, hreplies] at hlast
  obtain ⟨placement, ⟨record, attestation, hreturned, hparse⟩, hparent, -⟩ :=
    hlast 1760000000 row hrow hkey
  have hrecord : record = serverRecord :=
    (Prod.mk.inj (List.mem_singleton.mp hreturned)).2
  rw [hrecord, parse_serverRecord] at hparse
  obtain ⟨-, rfl⟩ := Prod.mk.inj (Option.some.inj hparse)
  rw [parentOf, serverOrigin, hentry, if_pos rfl] at hparent
  have hsame : TrustSets.laptopKey.toList = aliceKey := Option.some.inj hparent
  exact absurd hsame (by decide)

end Weverywhere.RowProvenance
