import Weverywhere.IpAddresses
import Weverywhere.Toml
import Mathlib.Data.List.DropRight

/-!
The `[[peer]]` block that pins the key of a peer (`src/src/config.rs`), and what a
configuration makes of it when it is read back. The parser of TOML is third-party: it is
a parameter, of which it is used that it conforms to TOML.
-/
namespace Weverywhere.PinnedPeers

open Weverywhere.Configuration IpAddresses Toml

/-! The code. -/

/-- A character in `toml_basic_string`. -/
def escapeChar (c : Char) : List Char :=
  if c = '"' then ['\\', '"']
  else if c = '\\' then ['\\', '\\']
  else if c = '\n' then ['\\', 'n']
  else if c = '\r' then ['\\', 'r']
  else if c = '\t' then ['\\', 't']
  else [c]

def tomlBasicString (s : String) : String :=
  String.ofList ('"' :: (s.toList.flatMap escapeChar ++ ['"']))

/-- `expected_key = {{ key = `, as `format!` takes it. -/
def keyOpening : String := "expected_key = " ++ String.singleton '{' ++ " key = "

def keyClosing : String := " " ++ String.singleton '}' ++ "\n"

def toPinnedToml (peer : PeerMetadata) (observedKey : String) : String :=
  let s := "[[peer]]\n"
  let s := match peer.hostname with
    | some h => s ++ "hostname = " ++ tomlBasicString h ++ "\n"
    | none => s
  let s := match peer.ipv6 with
    | some v6 => s ++ "ipv6 = " ++ tomlBasicString (ipv6ToString v6) ++ "\n"
    | none => s
  let s := match peer.ipv4 with
    | some v4 => s ++ "ipv4 = " ++ tomlBasicString (ipv4ToString v4) ++ "\n"
    | none => s
  s ++ keyOpening ++ tomlBasicString observedKey ++ keyClosing

/-! Reading the block back. -/

def stringOf : Value → Option String
  | .string s => some s
  | _ => none

/-- The derived `Deserialize` of `SingleTrustedKey`, from a table. -/
def singleTrustedKeyOf : Value → Option SingleTrustedKey
  | .table entries => (entries.lookup "key").bind fun key => (stringOf key).map .mk
  | _ => none

/-- A field with `#[serde(default)]`: it may be missing, but not be anything else. -/
def optionalField {α : Type} (table : Table) (key : String) (read : Value → Option α) :
    Option (Option α) :=
  match table.lookup key with
  | none => some none
  | some value => (read value).map some

/-- The derived `Deserialize` of `PeerMetadataToml`, from a table. -/
def peerMetadataTomlOf (table : Table) : Option PeerMetadataToml := do
  let hostname ← optionalField table "hostname" stringOf
  let ipv6 ← optionalField table "ipv6" fun value => (stringOf value).bind ipv6FromStr
  let ipv4 ← optionalField table "ipv4" fun value => (stringOf value).bind ipv4FromStr
  let expectedKey ← optionalField table "expected_key" singleTrustedKeyOf
  some { hostname, ipv6, ipv4, expectedKey }

/-- The block is one `[[peer]]` entry, and that entry is the peer with its key pinned. -/
def ReadsBack (fromStr : String → Option Table) (peer : PeerMetadata) (observedKey : String) :
    Prop :=
  ∃ entry raw, fromStr (toPinnedToml peer observedKey) = some [("peer", .array [.table entry])] ∧
    peerMetadataTomlOf entry = some raw ∧
    PeerMetadata.tryFrom raw = .ok { peer with expectedKey := some ⟨observedKey⟩ }

/-! Strings. -/

theorem escapeChar_of_forbidden {c : Char} (h : Forbidden c) : escapeChar c = [c] := by
  unfold escapeChar
  split_ifs with h1 h2 h3 h4 h5
  · exact absurd h (by rw [h1]; decide)
  · exact absurd h (by rw [h2]; decide)
  · exact absurd h (by rw [h3]; decide)
  · exact absurd h (by rw [h4]; decide)
  · exact absurd h (by rw [h5]; decide)
  · rfl

theorem readBasic_escapeChar {c : Char} (h : ¬ Forbidden c) (rest : List Char) :
    readBasic .text (escapeChar c ++ rest) = (readBasic .text rest).map (prepend c) := by
  unfold escapeChar
  split_ifs with h1 h2 h3 h4 h5
  · subst h1
    exact readBasic_escaped rfl rest
  · subst h2
    exact readBasic_escaped rfl rest
  · subst h3
    exact readBasic_escaped rfl rest
  · subst h4
    exact readBasic_escaped rfl rest
  · subst h5
    exact readBasic_escaped rfl rest
  · apply readBasic_unescaped
    rw [Forbidden, not_or] at h
    have hlow : 0x20 ≤ c.toNat := by
      by_contra hlow
      exact h.1 ⟨by omega, h5, h3, h4⟩
    rw [basicUnescaped, Bool.or_eq_true]
    right
    simp only [Bool.and_eq_true, decide_eq_true_eq, bne_iff_ne]
    exact ⟨⟨⟨hlow, h1⟩, h2⟩, h.2⟩

theorem readBasic_flatMap {s : List Char} (h : ∀ c ∈ s, ¬ Forbidden c) (rest : List Char) :
    readBasic .text (s.flatMap escapeChar ++ '"' :: rest) = some (s, rest) := by
  induction s with
  | nil => rfl
  | cons c s ih =>
    rw [List.forall_mem_cons] at h
    rw [List.flatMap_cons, List.append_assoc, readBasic_escapeChar h.1, ih h.2]
    rfl

theorem readsAs_tomlBasicString {s : String} (h : Allowed s) :
    ReadsAs (tomlBasicString s).toList s := by
  intro rest
  rw [tomlBasicString, String.toList_ofList, List.cons_append, List.append_assoc,
    List.singleton_append, readString, readBasic_flatMap h, Option.map_some, String.ofList_toList]

theorem mem_tomlBasicString {s : String} {c : Char} (h : Forbidden c) (hc : c ∈ s.toList) :
    c ∈ (tomlBasicString s).toList := by
  rw [tomlBasicString, String.toList_ofList]
  apply List.mem_cons_of_mem
  apply List.mem_append_left
  refine List.mem_flatMap.mpr ⟨c, hc, ?_⟩
  rw [escapeChar_of_forbidden h]
  exact List.mem_singleton_self c

/-- The string is one that TOML reads as `s` exactly when all that TOML forbids in `s` is
escaped, and the code escapes none of it. -/
theorem denotes_tomlBasicString_iff (s : String) : Denotes (tomlBasicString s) s ↔ Allowed s := by
  constructor
  · intro h c hc hforbidden
    exact (took_readString h).all c (mem_tomlBasicString hforbidden hc) hforbidden
  · intro h
    have hread := readsAs_tomlBasicString h []
    rwa [List.append_nil] at hread

/-! The block. -/

/-- The entries of the block. -/
def entriesOf (peer : PeerMetadata) (observedKey : String) : Table :=
  (peer.hostname.map fun h => ("hostname", .string h)).toList ++
    ((peer.ipv6.map fun v6 => ("ipv6", .string (ipv6ToString v6))).toList ++
      ((peer.ipv4.map fun v4 => ("ipv4", .string (ipv4ToString v4))).toList ++
        [("expected_key", .table [("key", .string observedKey)])]))

/-- The line of a string. -/
def stringLine (key text : String) : List Char :=
  keyValLine key.toList (tomlBasicString text).toList

def keyLine (observedKey : String) : List Char :=
  keyValLine "expected_key".toList (inlineTable "key".toList (tomlBasicString observedKey).toList)

def linesOf (peer : PeerMetadata) (observedKey : String) : List (List Char) :=
  (peer.hostname.map fun h => stringLine "hostname" h).toList ++
    ((peer.ipv6.map fun v6 => stringLine "ipv6" (ipv6ToString v6)).toList ++
      ((peer.ipv4.map fun v4 => stringLine "ipv4" (ipv4ToString v4)).toList ++
        [keyLine observedKey]))

theorem toList_stringLine {label key : String} (hlabel : label.toList = key.toList ++ equals)
    (s text : String) : (s ++ label ++ tomlBasicString text ++ "\n").toList =
      s.toList ++ (stringLine key text ++ ['\n']) := by
  have hend : "\n".toList = ['\n'] := rfl
  simp only [String.toList_append, hlabel, hend, stringLine, keyValLine, List.append_assoc]

theorem toList_keyLine {label close : String}
    (hlabel : label.toList = "expected_key".toList ++ (equals ++ '{' :: ' ' ::
      ("key".toList ++ equals))) (hclose : close.toList = [' ', '}', '\n'])
    (s observedKey : String) : (s ++ label ++ tomlBasicString observedKey ++ close).toList =
      s.toList ++ (keyLine observedKey ++ ['\n']) := by
  rw [keyLine]
  generalize "expected_key".toList = outer at *
  generalize "key".toList = inner at *
  simp only [String.toList_append, hlabel, hclose, keyValLine, inlineTable, List.append_assoc,
    List.cons_append, List.nil_append]

theorem toPinnedToml_toList (peer : PeerMetadata) (observedKey : String) :
    (toPinnedToml peer observedKey).toList =
      unlines (headerLine "peer".toList :: linesOf peer observedKey) := by
  have hheader : "[[peer]]\n".toList = headerLine "peer".toList ++ ['\n'] := by decide
  have hhostname : "hostname = ".toList = "hostname".toList ++ equals := by decide
  have hipv6 : "ipv6 = ".toList = "ipv6".toList ++ equals := by decide
  have hipv4 : "ipv4 = ".toList = "ipv4".toList ++ equals := by decide
  have hkey : keyOpening.toList =
      "expected_key".toList ++ (equals ++ '{' :: ' ' :: ("key".toList ++ equals)) := by decide
  obtain ⟨hostname, ipv6, ipv4, expectedKey⟩ := peer
  rw [unlines, List.flatMap_cons, ← hheader, toPinnedToml, toList_keyLine hkey (by decide), linesOf]
  cases hostname <;> cases ipv6 <;> cases ipv4 <;>
    simp only [toList_stringLine hhostname, toList_stringLine hipv6, toList_stringLine hipv4,
      Option.map_none, Option.map_some, Option.toList_none, Option.toList_some, List.nil_append,
      List.flatMap_append, List.flatMap_cons, List.flatMap_nil, List.append_nil, List.append_assoc]

/-! The lines are read as the entries. -/

theorem bareKey_of_all {key : List Char} (hne : key ≠ []) (h : key.all isBareKey = true) :
    BareKey key := ⟨hne, fun c hc => List.all_eq_true.mp h c hc⟩

theorem bareKey_peer : BareKey "peer".toList := bareKey_of_all (by decide) (by decide)

theorem bareKey_hostname : BareKey "hostname".toList := bareKey_of_all (by decide) (by decide)

theorem bareKey_ipv6 : BareKey "ipv6".toList := bareKey_of_all (by decide) (by decide)

theorem bareKey_ipv4 : BareKey "ipv4".toList := bareKey_of_all (by decide) (by decide)

theorem bareKey_expectedKey : BareKey "expected_key".toList :=
  bareKey_of_all (by decide) (by decide)

theorem bareKey_key : BareKey "key".toList := bareKey_of_all (by decide) (by decide)

theorem noBlank_tomlBasicString (s : String) (rest : List Char) :
    NoBlank ((tomlBasicString s).toList ++ rest) := by
  rw [tomlBasicString, String.toList_ofList]
  exact noBlank_cons (by decide) _

theorem readLine_stringLine {key text : String} (hkey : BareKey key.toList) (h : Allowed text) :
    readLine (stringLine key text) = some (.keyVal key (.string text)) := by
  have hblank := noBlank_tomlBasicString text []
  rw [List.append_nil] at hblank
  rw [stringLine, readLine_keyValLine hkey hblank (readValue_string (readsAs_tomlBasicString h)),
    String.ofList_toList]

theorem readLine_keyLine {observedKey : String} (h : Allowed observedKey) :
    readLine (keyLine observedKey) =
      some (.keyVal "expected_key" (.table [("key", .string observedKey)])) := by
  have htable := readValue_inlineTable bareKey_key (noBlank_tomlBasicString observedKey)
    (readsAs_tomlBasicString h)
  rw [String.ofList_toList] at htable
  have hline := readLine_keyValLine bareKey_expectedKey (noBlank_cons (by decide) _) htable
  rwa [String.ofList_toList] at hline

theorem allowed_of_ipChar {s : String} (h : ∀ c ∈ s.toList, IpChar c) : Allowed s := by
  intro c hc
  rcases h c hc with hdigit | rfl | rfl
  · obtain ⟨d, hd⟩ := Option.isSome_iff_exists.mp hdigit
    exact not_forbidden_toDigit hd
  · decide
  · decide

theorem readLine_linesOf {peer : PeerMetadata} {observedKey : String}
    (hhostname : ∀ h ∈ peer.hostname, Allowed h) (hkey : Allowed observedKey) :
    List.Forall₂ (fun line (pair : String × Value) =>
      readLine line = some (.keyVal pair.1 pair.2)) (linesOf peer observedKey)
      (entriesOf peer observedKey) := by
  have hoption : ∀ {α : Type} (o : Option α) (line : α → List Char) (pair : α → String × Value),
      (∀ x ∈ o, readLine (line x) = some (.keyVal (pair x).1 (pair x).2)) →
      List.Forall₂ (fun line (pair : String × Value) =>
        readLine line = some (.keyVal pair.1 pair.2)) (o.map line).toList (o.map pair).toList := by
    intro α o line pair hread
    cases o with
    | none => exact .nil
    | some x => exact .cons (hread x rfl) .nil
  rw [linesOf, entriesOf]
  refine List.rel_append (hoption _ _ _ ?_) (List.rel_append (hoption _ _ _ ?_)
    (List.rel_append (hoption _ _ _ ?_) (.cons (readLine_keyLine hkey) .nil)))
  · intro h hh
    exact readLine_stringLine bareKey_hostname (hhostname h hh)
  · intro v6 _
    exact readLine_stringLine bareKey_ipv6 (allowed_of_ipChar (ipChar_ipv6ToString v6))
  · intro v4 _
    exact readLine_stringLine bareKey_ipv4 (allowed_of_ipChar (ipChar_ipv4ToString v4))

theorem newline_not_mem_tomlBasicString (s : String) : '\n' ∉ (tomlBasicString s).toList := by
  intro hmem
  simp only [tomlBasicString, String.toList_ofList, List.mem_cons, List.mem_append,
    List.mem_flatMap, List.not_mem_nil, Char.reduceEq, false_or, or_false] at hmem
  obtain ⟨c, -, hc⟩ := hmem
  unfold escapeChar at hc
  split_ifs at hc with h1 h2 h3 h4 h5
  · simp at hc
  · simp at hc
  · simp at hc
  · simp at hc
  · simp at hc
  · exact h3 (List.mem_singleton.mp hc).symm

theorem newline_not_mem_keyValLine {key text : List Char} (hkey : BareKey key)
    (htext : '\n' ∉ text) : '\n' ∉ keyValLine key text := by
  intro hmem
  rw [keyValLine, List.mem_append, List.mem_append] at hmem
  rcases hmem with hmem | hmem | hmem
  · exact hkey.not_mem (by decide) hmem
  · exact absurd hmem (by decide)
  · exact htext hmem

theorem newline_not_mem_inlineTable {key text : List Char} (hkey : BareKey key)
    (htext : '\n' ∉ text) : '\n' ∉ inlineTable key text := by
  intro hmem
  simp only [inlineTable, equals, List.mem_cons, List.mem_append, List.not_mem_nil, Char.reduceEq,
    false_or, or_false] at hmem
  rcases hmem with hmem | hmem
  · exact hkey.not_mem (by decide) hmem
  · exact htext hmem

theorem newline_not_mem_linesOf (peer : PeerMetadata) (observedKey : String) :
    ∀ line ∈ linesOf peer observedKey, '\n' ∉ line := by
  intro line hline
  simp only [linesOf, List.mem_append, Option.mem_toList, Option.map_eq_some_iff,
    List.mem_singleton] at hline
  rcases hline with ⟨h, -, rfl⟩ | ⟨v6, -, rfl⟩ | ⟨v4, -, rfl⟩ | rfl
  · exact newline_not_mem_keyValLine bareKey_hostname (newline_not_mem_tomlBasicString h)
  · exact newline_not_mem_keyValLine bareKey_ipv6 (newline_not_mem_tomlBasicString _)
  · exact newline_not_mem_keyValLine bareKey_ipv4 (newline_not_mem_tomlBasicString _)
  · exact newline_not_mem_keyValLine bareKey_expectedKey
      (newline_not_mem_inlineTable bareKey_key (newline_not_mem_tomlBasicString observedKey))

theorem nodup_entriesOf (peer : PeerMetadata) (observedKey : String) :
    ((entriesOf peer observedKey).map Prod.fst).Nodup := by
  obtain ⟨hostname, ipv6, ipv4, expectedKey⟩ := peer
  cases hostname <;> cases ipv6 <;> cases ipv4 <;> simp [entriesOf]

theorem parse_toPinnedToml {peer : PeerMetadata} {observedKey : String}
    (hhostname : ∀ h ∈ peer.hostname, Allowed h) (hkey : Allowed observedKey) :
    parse (toPinnedToml peer observedKey) =
      some [("peer", .array [.table (entriesOf peer observedKey)])] := by
  have hparse := parse_entry bareKey_peer (readLine_linesOf hhostname hkey)
    (newline_not_mem_linesOf peer observedKey) (nodup_entriesOf peer observedKey)
  rwa [← toPinnedToml_toList, String.ofList_toList, String.ofList_toList] at hparse

theorem mem_toPinnedToml {peer : PeerMetadata} {observedKey : String} {line : List Char} {c : Char}
    (hline : line ∈ linesOf peer observedKey) (hc : c ∈ line) :
    c ∈ (toPinnedToml peer observedKey).toList := by
  rw [toPinnedToml_toList, unlines, List.mem_flatMap]
  exact ⟨line, List.mem_cons_of_mem _ hline, List.mem_append_left _ hc⟩

theorem mem_toPinnedToml_of_hostname {peer : PeerMetadata} {observedKey h : String} {c : Char}
    (hh : h ∈ peer.hostname) (hc : c ∈ (tomlBasicString h).toList) :
    c ∈ (toPinnedToml peer observedKey).toList := by
  have hline : stringLine "hostname" h ∈ linesOf peer observedKey := by
    rw [linesOf, Option.mem_def.mp hh]
    exact List.mem_append_left _ (List.mem_singleton_self _)
  exact mem_toPinnedToml hline (List.mem_append_right _ (List.mem_append_right _ hc))

theorem mem_toPinnedToml_of_key {peer : PeerMetadata} {observedKey : String} {c : Char}
    (hc : c ∈ (tomlBasicString observedKey).toList) :
    c ∈ (toPinnedToml peer observedKey).toList := by
  have hline : keyLine observedKey ∈ linesOf peer observedKey := by
    rw [linesOf]
    exact List.mem_append_right _ (List.mem_append_right _ (List.mem_append_right _
      (List.mem_singleton_self _)))
  have htable : c ∈ inlineTable "key".toList (tomlBasicString observedKey).toList :=
    List.mem_cons_of_mem _ (List.mem_cons_of_mem _ (List.mem_append_right _
      (List.mem_append_right _ (List.mem_append_left _ hc))))
  exact mem_toPinnedToml hline (List.mem_append_right _ (List.mem_append_right _ htable))

/-! The entry is the peer. -/

theorem peerMetadataTomlOf_entriesOf (peer : PeerMetadata) (observedKey : String) :
    peerMetadataTomlOf (entriesOf peer observedKey) =
      some ⟨peer.hostname, peer.ipv6, peer.ipv4, some ⟨observedKey⟩⟩ := by
  obtain ⟨hostname, ipv6, ipv4, expectedKey⟩ := peer
  cases hostname <;> cases ipv6 <;> cases ipv4 <;>
    simp [peerMetadataTomlOf, optionalField, entriesOf, stringOf, singleTrustedKeyOf,
      List.lookup_cons, ipv6FromStr_ipv6ToString, ipv4FromStr_ipv4ToString]

theorem trim_eq (s : String) :
    trim s = String.ofList ((s.toList.dropWhile isWhitespace).rdropWhile isWhitespace) := rfl

/-- What has been trimmed has nothing to trim: it begins as what is left of the text when
the front is trimmed. -/
theorem trim_trim (s : String) : trim (trim s) = trim s := by
  have hfront : (s.toList.dropWhile isWhitespace).dropWhile isWhitespace =
      s.toList.dropWhile isWhitespace := List.dropWhile_idempotent _ _
  rw [trim_eq, trim_eq s, String.toList_ofList]
  generalize s.toList.dropWhile isWhitespace = text at *
  have hkept : (text.rdropWhile isWhitespace).dropWhile isWhitespace =
      text.rdropWhile isWhitespace := by
    rw [List.dropWhile_eq_self_iff] at hfront ⊢
    intro hlength
    have hstart : text.rdropWhile isWhitespace <+: text := List.rdropWhile_prefix _ _
    rw [hstart.getElem hlength]
    exact hfront (hlength.trans_le hstart.length_le)
  rw [hkept, List.rdropWhile_idempotent]

/-- A peer that a configuration is loaded with. -/
theorem tryFrom_pinned {raw : PeerMetadataToml} {peer : PeerMetadata}
    (hload : PeerMetadata.tryFrom raw = .ok peer) (observedKey : String) :
    PeerMetadata.tryFrom ⟨peer.hostname, peer.ipv6, peer.ipv4, some ⟨observedKey⟩⟩ =
      .ok { peer with expectedKey := some ⟨observedKey⟩ } := by
  unfold PeerMetadata.tryFrom at hload
  simp only at hload
  split_ifs at hload with hunset
  obtain rfl := Except.ok.inj hload
  have hkept : ((raw.hostname.bind fun h => if trim h = "" then none else some (trim h)).bind
      fun h => if trim h = "" then none else some (trim h)) =
      raw.hostname.bind fun h => if trim h = "" then none else some (trim h) := by
    cases raw.hostname with
    | none => rfl
    | some h =>
      rw [Option.bind_some]
      split_ifs with hempty
      · rfl
      · rw [Option.bind_some, trim_trim, if_neg hempty]
  unfold PeerMetadata.tryFrom
  simp only [hkept, if_neg hunset]

theorem allowed_of_readsBack {fromStr : String → Option Table} (htoml : Conforms fromStr)
    {peer : PeerMetadata} {observedKey : String} (h : ReadsBack fromStr peer observedKey) :
    (∀ h ∈ peer.hostname, Allowed h) ∧ Allowed observedKey := by
  obtain ⟨entry, read, hparse, -⟩ := h
  have hallowed : Allowed (toPinnedToml peer observedKey) := by
    by_contra hnot
    rw [htoml.rejects _ hnot] at hparse
    cases hparse
  constructor
  · intro h hh c hc hforbidden
    exact hallowed c (mem_toPinnedToml_of_hostname hh (mem_tomlBasicString hforbidden hc))
      hforbidden
  · intro c hc hforbidden
    exact hallowed c (mem_toPinnedToml_of_key (mem_tomlBasicString hforbidden hc)) hforbidden

/-- For every parser that conforms to TOML. A block reads back as the peer, with its key
pinned, exactly when neither the hostname nor the key has a control character that TOML
wants escaped and the code does not escape; and a string is written as TOML reads it
exactly when it has none. -/
theorem pinned_toml_reads_back_iff (fromStr : String → Option Table) (htoml : Conforms fromStr) :
    (∀ raw peer observedKey, PeerMetadata.tryFrom raw = .ok peer →
      (ReadsBack fromStr peer observedKey ↔
        (∀ h ∈ peer.hostname, Allowed h) ∧ Allowed observedKey)) ∧
      ∀ s, Denotes (tomlBasicString s) s ↔ Allowed s := by
  refine ⟨?_, denotes_tomlBasicString_iff⟩
  intro raw peer observedKey hload
  constructor
  · exact allowed_of_readsBack htoml
  · intro h
    refine ⟨entriesOf peer observedKey, _, ?_, peerMetadataTomlOf_entriesOf peer observedKey,
      tryFrom_pinned hload observedKey⟩
    exact htoml.reads _ _ (parse_toPinnedToml h.1 h.2)

/-- A peer with a hostname and an address. -/
def node1 : PeerMetadata := ⟨some "node1", none, some 0x0A000009, none⟩

theorem node1_reads_back :
    PeerMetadata.tryFrom ⟨some " node1 ", none, some 0x0A000009, none⟩ = .ok node1 ∧
      ReadsBack parse node1 "ssh-ed25519 AAAAOBSERVED" := by
  have hload : PeerMetadata.tryFrom ⟨some " node1 ", none, some 0x0A000009, none⟩ = .ok node1 := by
    rfl
  have hiff := (pinned_toml_reads_back_iff parse conforms_parse).1 _ node1
    "ssh-ed25519 AAAAOBSERVED" hload
  refine ⟨hload, hiff.mpr ⟨?_, by decide⟩⟩
  intro h hh
  obtain rfl : "node1" = h := Option.some.inj hh
  decide

/-- A hostname that ends in the delete character. -/
def delPeer : PeerMetadata := ⟨some "node\x7f", none, none, none⟩

theorem delete_not_escaped :
    Conforms parse ∧ PeerMetadata.tryFrom ⟨some "node\x7f", none, none, none⟩ = .ok delPeer ∧
      ¬ ReadsBack parse delPeer "ssh-ed25519 AAAAOBSERVED" ∧
      ¬ Denotes (tomlBasicString "node\x7f") "node\x7f" := by
  have hnot : ¬ Allowed "node\x7f" := by decide
  refine ⟨conforms_parse, rfl, ?_, ?_⟩
  · intro hreads
    exact hnot ((allowed_of_readsBack conforms_parse hreads).1 _ rfl)
  · intro hdenotes
    exact hnot ((denotes_tomlBasicString_iff _).mp hdenotes)

end Weverywhere.PinnedPeers
