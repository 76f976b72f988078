import Weverywhere.IpAddresses
import Weverywhere.MessagesRead
import Weverywhere.PeersRegistry
import Weverywhere.Runs

/-!
The lines `host::peer_report` hands to a program (`src/src/executor/mod.rs`): four
fields with tabs between them, the first of them a name nobody has checked.
-/
namespace Weverywhere.PeerReports

open ByteStrings Identity Weverywhere.Configuration IpAddresses Messages MessagesRead Node
  PeersRegistry Runs

/-- How a `SocketAddr` is displayed. -/
def socketAddrChars : SocketAddr → List Char
  | .v4 ip port => (ipv4ToString ip).toList ++ ':' :: Nat.toDigits 10 port.toNat
  | .v6 ip port _ scopeId =>
      '[' :: ((ipv6ToString ip).toList ++
        ((if scopeId = 0 then [] else '%' :: Nat.toDigits 10 scopeId.toNat) ++
          ']' :: ':' :: Nat.toDigits 10 port.toNat))

def socketAddrToString (addr : SocketAddr) : String := String.ofList (socketAddrChars addr)

def trustedFlag (trusted : Bool) : String := if trusted then "1" else "0"

/-- The four fields of a report. -/
def reportFields (info : PeerInfo) : List String :=
  [info.humanName, socketAddrToString info.lastAddr, trustedFlag info.trusted, hex info.pubkey]

/-- An element of `peer_reports`. -/
def reportLine (info : PeerInfo) : String :=
  info.humanName ++ "\t" ++ socketAddrToString info.lastAddr ++ "\t" ++ trustedFlag info.trusted ++
    "\t" ++ hex info.pubkey

/-- The line `host::peer_report` hands out, `none` for an index out of range. -/
def peerReportLine (peerReports : List String) (index : Int32) : Option String :=
  getIndex peerReports index

/-- `host::peer_report`: as much of the line as the buffer takes. -/
def peerReport (peerReports : List String) (index cap : Int32) : Option Bytes :=
  (peerReportLine peerReports index).map (written cap)

/-- What a reader makes of a line: it splits it at the tabs. -/
def splitTabs (line : String) : List String := (line.toList.splitOn '\t').map String.ofList

/-- A line that says of a peer what the registry says. -/
structure ReadsBack (info : PeerInfo) (line : String) : Prop where
  fields : splitTabs line = reportFields info
  no_line_break : ∀ c ∈ line.toList, c ≠ '\n' ∧ c ≠ '\r'

/-- In whatever order the registry was iterated, the line at an index reads back as the
peer at that index. -/
def ReportsUnambiguous (e : Executor) : Prop :=
  ∀ peers : List PeerInfo, peers.Perm (e.peers.entries.map Sigma.snd) →
    ∀ index info, getIndex peers index = some info →
      ∃ line, peerReportLine (peers.map reportLine) index = some line ∧ ReadsBack info line

/-- Neither a tab nor a line break. -/
def Plain (c : Char) : Prop := c ≠ '\t' ∧ c ≠ '\n' ∧ c ≠ '\r'

instance (c : Char) : Decidable (Plain c) := inferInstanceAs (Decidable (_ ∧ _))

def PlainText (s : String) : Prop := ∀ c ∈ s.toList, Plain c

instance (s : String) : Decidable (PlainText s) := List.decidableBAll _ s.toList

/-! The fields other than the name are plain. -/

theorem plain_digitChar {d : ℕ} (hd : d < 16) : Plain (Nat.digitChar d) := by
  have hall : ∀ d < 16, Plain (Nat.digitChar d) := by decide
  exact hall d hd

theorem plain_toDigits {base : ℕ} (hbase : 1 < base) (hle : base ≤ 16) {n : ℕ} {c : Char}
    (h : c ∈ Nat.toDigits base n) : Plain c := by
  obtain ⟨d, hd, rfl⟩ := Numerals.mem_toDigits hbase h
  exact plain_digitChar (by omega)

theorem plainText_hex (bytes : Bytes) : PlainText (hex bytes) := by
  intro c hc
  rw [hex, String.toList_ofList] at hc
  obtain ⟨b, -, hdigit⟩ := List.mem_flatMap.mp hc
  have hb := b.toNat_lt
  simp only [hexDigits, List.mem_cons, List.not_mem_nil, or_false] at hdigit
  rcases hdigit with rfl | rfl
  · exact plain_digitChar (by omega)
  · exact plain_digitChar (by omega)

theorem plainText_trustedFlag (trusted : Bool) : PlainText (trustedFlag trusted) := by
  cases trusted with
  | false => decide
  | true => decide

theorem ne_of_ipChar {c d : Char} (h : IpChar c) (hdigit : Numerals.isDigit 16 d = false)
    (hdot : d ≠ '.') (hcolon : d ≠ ':') : c ≠ d := by
  intro hsame
  subst hsame
  rcases h with h | h | h
  · rw [hdigit] at h
    cases h
  · exact hdot h
  · exact hcolon h

theorem plain_of_ipChar {c : Char} (h : IpChar c) : Plain c :=
  ⟨ne_of_ipChar h (by decide) (by decide) (by decide),
    ne_of_ipChar h (by decide) (by decide) (by decide),
    ne_of_ipChar h (by decide) (by decide) (by decide)⟩

theorem plainText_ipv4ToString (a : Ipv4Addr) : PlainText (ipv4ToString a) :=
  fun c hc => plain_of_ipChar (ipChar_ipv4ToString a c hc)

theorem plainText_ipv6ToString (a : Ipv6Addr) : PlainText (ipv6ToString a) :=
  fun c hc => plain_of_ipChar (ipChar_ipv6ToString a c hc)

theorem plainText_socketAddrToString (addr : SocketAddr) : PlainText (socketAddrToString addr) := by
  have hdigits : ∀ {n : ℕ} {c : Char}, c ∈ Nat.toDigits 10 n → Plain c :=
    fun h => plain_toDigits (by omega) (by omega) h
  intro c hc
  rw [socketAddrToString, String.toList_ofList] at hc
  cases addr with
  | v4 ip port =>
    simp only [socketAddrChars, List.mem_append, List.mem_cons] at hc
    rcases hc with h | rfl | h
    · exact plainText_ipv4ToString ip c h
    · decide
    · exact hdigits h
  | v6 ip port flowinfo scopeId =>
    simp only [socketAddrChars, List.mem_append, List.mem_cons] at hc
    rcases hc with rfl | h | h | rfl | rfl | h
    · decide
    · exact plainText_ipv6ToString ip c h
    · split_ifs at h with hscope
      · cases h
      · rcases List.mem_cons.mp h with rfl | h
        · decide
        · exact hdigits h
    · decide
    · decide
    · exact hdigits h

/-! One line. -/

theorem reportLine_toList (info : PeerInfo) :
    (reportLine info).toList = info.humanName.toList ++ '\t' ::
      ((socketAddrToString info.lastAddr).toList ++ '\t' ::
        ((trustedFlag info.trusted).toList ++ '\t' :: (hex info.pubkey).toList)) := by
  have htab : "\t".toList = ['\t'] := rfl
  simp only [reportLine, String.toList_append, htab, List.append_assoc, List.cons_append,
    List.nil_append]

/-- What comes after the name always splits into the other three fields. -/
theorem splitOn_reportLine (info : PeerInfo) :
    (reportLine info).toList.splitOn '\t' =
      info.humanName.toList.splitOn '\t' ++
        [(socketAddrToString info.lastAddr).toList, (trustedFlag info.trusted).toList,
          (hex info.pubkey).toList] := by
  have htabless : ∀ s, PlainText s → '\t' ∉ s.toList := fun s hs hmem => (hs _ hmem).1 rfl
  rw [reportLine_toList, List.splitOn_append_cons_self,
    List.splitOn_append_cons_self_of_not_mem (htabless _ (plainText_socketAddrToString _)),
    List.splitOn_append_cons_self_of_not_mem (htabless _ (plainText_trustedFlag _)),
    List.splitOn_eq_singleton (htabless _ (plainText_hex _))]

theorem splitOn_eq_singleton_iff (s : List Char) : s.splitOn '\t' = [s] ↔ '\t' ∉ s := by
  constructor
  · intro h hmem
    obtain ⟨before, after, rfl⟩ := List.append_of_mem hmem
    rw [List.splitOn_append_cons_self] at h
    have hlength := congrArg List.length h
    have hbefore := List.length_pos_iff.mpr (List.splitOn_ne_nil '\t' before)
    have hafter := List.length_pos_iff.mpr (List.splitOn_ne_nil '\t' after)
    rw [List.length_append, List.length_singleton] at hlength
    omega
  · exact List.splitOn_eq_singleton

theorem splitTabs_reportLine_iff (info : PeerInfo) :
    splitTabs (reportLine info) = reportFields info ↔ '\t' ∉ info.humanName.toList := by
  let others : List (List Char) := [(socketAddrToString info.lastAddr).toList,
    (trustedFlag info.trusted).toList, (hex info.pubkey).toList]
  have hfields : reportFields info = ([info.humanName.toList] ++ others).map String.ofList := by
    simp [reportFields, others]
  have hinjective : Function.Injective (List.map String.ofList) :=
    List.map_injective_iff.mpr fun _ _ h => String.ofList_injective h
  rw [splitTabs, splitOn_reportLine, hfields, hinjective.eq_iff, List.append_left_inj,
    splitOn_eq_singleton_iff]

/-- A line reads back exactly when the name has neither tabs nor line breaks. -/
theorem readsBack_iff (info : PeerInfo) :
    ReadsBack info (reportLine info) ↔ PlainText info.humanName := by
  constructor
  · intro h c hc
    have hmem : c ∈ (reportLine info).toList := by
      rw [reportLine_toList]
      exact List.mem_append_left _ hc
    refine ⟨?_, h.no_line_break c hmem⟩
    intro htab
    exact (splitTabs_reportLine_iff info).mp h.fields (htab ▸ hc)
  · intro hname
    constructor
    · apply (splitTabs_reportLine_iff info).mpr
      intro htab
      exact (hname _ htab).1 rfl
    · intro c hc
      rw [reportLine_toList] at hc
      simp only [List.mem_append, List.mem_cons] at hc
      have htab : '\t' ≠ '\n' ∧ '\t' ≠ '\r' := by decide
      rcases hc with h | rfl | h | rfl | h | rfl | h
      · exact (hname c h).2
      · exact htab
      · exact (plainText_socketAddrToString _ c h).2
      · exact htab
      · exact (plainText_trustedFlag _ c h).2
      · exact htab
      · exact (plainText_hex _ c h).2

/-! The registry. -/

theorem getIndex_map {α β : Type} (f : α → β) (xs : List α) (index : Int32) :
    getIndex (xs.map f) index = (getIndex xs index).map f := by
  unfold getIndex
  split_ifs
  · rfl
  · exact List.getElem?_map

theorem getIndex_mem {α : Type} {xs : List α} {index : Int32} {x : α}
    (h : getIndex xs index = some x) : x ∈ xs := by
  unfold getIndex at h
  split_ifs at h
  exact List.mem_of_getElem? h

theorem peerReportLine_map {peers : List PeerInfo} {index : Int32} {info : PeerInfo}
    (h : getIndex peers index = some info) :
    peerReportLine (peers.map reportLine) index = some (reportLine info) := by
  rw [peerReportLine, getIndex_map, h, Option.map_some]

/-- The reports are unambiguous exactly when every name in the registry is plain. -/
theorem reportsUnambiguous_iff (e : Executor) :
    ReportsUnambiguous e ↔ ∀ info ∈ e.peers.entries.map Sigma.snd, PlainText info.humanName := by
  constructor
  · intro h info hinfo
    -- some iteration order has the peer in front
    have hperm := List.perm_cons_erase hinfo
    have hfirst : getIndex (info :: (e.peers.entries.map Sigma.snd).erase info) 0 = some info := rfl
    obtain ⟨line, hline, hreads⟩ := h _ hperm.symm 0 info hfirst
    rw [peerReportLine_map hfirst] at hline
    obtain rfl := Option.some.inj hline
    exact (readsBack_iff info).mp hreads
  · intro h peers hperm index info hinfo
    refine ⟨reportLine info, peerReportLine_map hinfo, (readsBack_iff info).mpr ?_⟩
    exact h info (hperm.mem_iff.mp (getIndex_mem hinfo))

section Runs

variable (c : Crypto) (compiles : Bytes → Bool)

/-- A source whose name is written into the registry has a plain one. -/
def NotesPlainName (_ : Executor) : Event → Prop
  | .datagram _ _ received => ∀ source, notedSource c received = some source →
      PlainText source.humanName
  | _ => True

theorem mem_entries_insert {key : String} {info other : PeerInfo}
    {peers : AList fun _ : String => PeerInfo}
    (h : other ∈ (peers.insert key info).entries.map Sigma.snd) :
    other = info ∨ other ∈ peers.entries.map Sigma.snd := by
  rw [AList.entries_insert, List.map_cons] at h
  rcases List.mem_cons.mp h with h | h
  · exact Or.inl h
  · right
    obtain ⟨entry, hentry, rfl⟩ := List.mem_map.mp h
    exact List.mem_map_of_mem ((List.kerase_sublist key peers.entries).subset hentry)

theorem reportsUnambiguous_step_iff {e : Executor} (h : ReportsUnambiguous e) (event : Event) :
    ReportsUnambiguous (e.step c compiles event) ↔ NotesPlainName c e event := by
  have hnames := (reportsUnambiguous_iff e).mp h
  rw [reportsUnambiguous_iff]
  cases event with
  | startup name key => exact ⟨fun _ => trivial, fun _ => hnames⟩
  | messagesPush pid id text now =>
    rw [step_messagesPush_peers]
    exact ⟨fun _ => trivial, fun _ => hnames⟩
  | datagram addr now received =>
    rw [step_datagram_peers]
    cases hnoted : notedSource c received with
    | none =>
      constructor
      · intro _ source hsource
        rw [hnoted] at hsource
        cases hsource
      · exact fun _ => hnames
    | some source =>
      have hinsert : (e.notePeer addr source now).peers.entries.map Sigma.snd =
          (e.peers.insert (hex source.encodedPublicKey)
            (e.peerInfo addr source now)).entries.map Sigma.snd := rfl
      simp only [hinsert]
      constructor
      · intro hall other hother
        rw [hnoted] at hother
        obtain rfl := Option.some.inj hother
        exact hall (e.peerInfo addr source now)
          (by rw [AList.entries_insert]; exact List.mem_cons_self)
      · intro hplain info hinfo
        rcases mem_entries_insert hinfo with rfl | hold
        · exact hplain source hnoted
        · exact hnames info hold

/-- In every state a node reaches, the lines its programs are handed read back as the
peers, exactly when no datagram brings a name with a tab or a line break. -/
theorem reports_unambiguous_iff (events : List Event) :
    EveryState (Executor.step c compiles) ReportsUnambiguous Executor.new events ↔
      EachStep (Executor.step c compiles) (NotesPlainName c) Executor.new events := by
  have hstart : ReportsUnambiguous Executor.new := by
    rw [reportsUnambiguous_iff]
    intro info hinfo
    cases hinfo
  have hstep : ∀ (e : Executor) (event : Event), ReportsUnambiguous e →
      (ReportsUnambiguous (e.step c compiles event) ↔ NotesPlainName c e event) :=
    fun _ event h => reportsUnambiguous_step_iff c compiles h event
  exact everyState_iff_eachStep_of_step (Executor.step c compiles) hstep hstart events

end Runs

/-- A name that brings fields of its own. -/
def tabbedName : String := "alice\t10.0.0.9:2240\t1\t00ff"

def tabbedRequest : ProgramData :=
  { forgedRequest with source := idealIdentity tabbedName aliceKey 1760000000 }

/-- The reader of the report sees seven fields, the first four of the sender's making. -/
theorem tabbed_name_misread :
    ¬ EveryState (Executor.step (idealCrypto []) fun _ => false) ReportsUnambiguous Executor.new
      [.datagram (.v4 1 2240) 1 (some (.executeRequest tabbedRequest))] := by
  intro h
  have hlast := (reportsUnambiguous_iff _).mp h.last
  have htab := hlast _ (List.mem_map_of_mem List.mem_cons_self) '\t' (by decide)
  exact htab.1 rfl

end Weverywhere.PeerReports
