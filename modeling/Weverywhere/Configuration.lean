import Weverywhere.Identity

/-!
The configuration of a node (`src/src/config.rs`) and the key material it names
(`src/src/crypto_utils.rs`). The file system, the PEM and DER parsers and
`ssh_key` are third-party: a `Platform` says what they answer. A peer entry is
built from its wire form by `PeerMetadata.tryFrom` only.
-/
namespace Weverywhere.Configuration

open ByteStrings Identity

abbrev Ipv4Addr := BitVec 32

abbrev Ipv6Addr := BitVec 128

structure SingleTrustedKey where
  key : String
  deriving DecidableEq

structure SingleStartupProgram where
  wasiFile : String
  deriving DecidableEq

structure SingleInclude where
  path : String
  deriving DecidableEq

/-- The wire form of a `[[peer]]` entry. -/
structure PeerMetadataToml where
  hostname : Option String
  ipv6 : Option Ipv6Addr
  ipv4 : Option Ipv4Addr
  expectedKey : Option SingleTrustedKey
  deriving DecidableEq

structure PeerMetadata where
  hostname : Option String
  ipv6 : Option Ipv6Addr
  ipv4 : Option Ipv4Addr
  expectedKey : Option SingleTrustedKey
  deriving DecidableEq

structure Limit where
  maxCpuInstructions : UInt64
  maxMemoryBytes : UInt64
  deriving DecidableEq

structure Limits where
  trusted : Limit
  untrusted : Limit
  deriving DecidableEq

structure IdentityConfig where
  name : String
  keyfile : String
  deriving DecidableEq

structure Config where
  identity : IdentityConfig
  trusted : List SingleTrustedKey
  startupProgram : List SingleStartupProgram
  includes : List SingleInclude
  peer : List PeerMetadata
  limits : Limits
  deriving DecidableEq

/-! Hosts of a peer. -/

/-- `char::is_whitespace`: the Unicode `White_Space` property. -/
def isWhitespace (c : Char) : Bool :=
  (9 ≤ c.toNat && c.toNat ≤ 13) || c.toNat == 0x20 || c.toNat == 0x85 || c.toNat == 0xA0 ||
    c.toNat == 0x1680 || (0x2000 ≤ c.toNat && c.toNat ≤ 0x200A) || c.toNat == 0x2028 ||
    c.toNat == 0x2029 || c.toNat == 0x202F || c.toNat == 0x205F || c.toNat == 0x3000

/-- `str::trim`. -/
def trim (s : String) : String :=
  String.ofList ((s.toList.dropWhile isWhitespace).reverse.dropWhile isWhitespace).reverse

/-- Nothing but white space. -/
def Blank (s : String) : Prop := ∀ c ∈ s.toList, isWhitespace c = true

instance (s : String) : Decidable (Blank s) := inferInstanceAs (Decidable (∀ c ∈ s.toList, _))

/-- The dotted decimal form of an address. -/
def ipv4ToString (a : Ipv4Addr) : String :=
  let octet (i : ℕ) := Nat.toDigits 10 (a.toNat / 256 ^ (3 - i) % 256)
  String.ofList (octet 0 ++ '.' :: octet 1 ++ '.' :: octet 2 ++ '.' :: octet 3)

def segments (a : Ipv6Addr) : List ℕ :=
  (List.range 8).map fun i => a.toNat / 65536 ^ (7 - i) % 65536

/-- The longest run of zero segments, the first of several: its start and length.
The scan carries the position, the current run and the longest one. -/
def longestZeroRun (segments : List ℕ) : ℕ × ℕ :=
  (segments.foldl
    (fun (i, (start, len), longest) segment =>
      if segment = 0 then
        let current := (if len = 0 then i else start, len + 1)
        (i + 1, current, if longest.2 < current.2 then current else longest)
      else (i + 1, (0, 0), longest))
    (0, (0, 0), (0, 0))).2.2

def formatSegments (segments : List ℕ) : List Char :=
  ((segments.map (Nat.toDigits 16)).intersperse [':']).flatten

/-- The text form of an address: IPv4-mapped addresses end in dotted decimal, a
run of at least two zero segments is written `::`. -/
def ipv6ToString (a : Ipv6Addr) : String :=
  let all := segments a
  if all.take 6 = [0, 0, 0, 0, 0, 0xFFFF] then
    String.ofList ("::ffff:".toList ++ (ipv4ToString (a.setWidth 32)).toList)
  else
    let (start, len) := longestZeroRun all
    if 1 < len then
      String.ofList (formatSegments (all.take start) ++ "::".toList ++
        formatSegments (all.drop (start + len)))
    else String.ofList (formatSegments all)

namespace PeerMetadata

/-- A blank hostname counts as unset; one form of address must remain. -/
def tryFrom (raw : PeerMetadataToml) : Except String PeerMetadata :=
  let hostname := raw.hostname.bind fun h =>
    let trimmed := trim h
    if trimmed = "" then none else some trimmed
  if hostname = none ∧ raw.ipv4 = none ∧ raw.ipv6 = none then
    .error "each [[peer]] entry must set at least one of `hostname`, `ipv4`, or `ipv6`"
  else
    .ok {
      hostname := hostname
      ipv6 := raw.ipv6
      ipv4 := raw.ipv4
      expectedKey := raw.expectedKey }

/-- Connection candidates in preference order. -/
def connectHosts (peer : PeerMetadata) : List String :=
  peer.hostname.toList ++ (peer.ipv6.map ipv6ToString).toList ++
    (peer.ipv4.map ipv4ToString).toList

def expectedKeyStr (peer : PeerMetadata) : Option String :=
  peer.expectedKey.map SingleTrustedKey.key

/-- What `connect_hosts` promises of a loaded peer. -/
def Reachable (peer : PeerMetadata) : Prop :=
  peer.connectHosts ≠ [] ∧ ∀ host ∈ peer.connectHosts, ¬ Blank host

instance (peer : PeerMetadata) : Decidable peer.Reachable := inferInstanceAs (Decidable (_ ∧ _))

end PeerMetadata

/-- What trimming leaves starts with a character that is not white space. -/
theorem not_blank_trim {s : String} (h : trim s ≠ "") : ¬ Blank (trim s) := by
  intro hblank
  have hlist : (trim s).toList ≠ [] := by simpa using h
  rw [trim, String.toList_ofList, Ne, List.reverse_eq_nil_iff] at hlist
  have hhead := List.head_dropWhile_not isWhitespace hlist
  have hmem : ((s.toList.dropWhile isWhitespace).reverse.dropWhile isWhitespace).head hlist ∈
      (trim s).toList := by
    rw [trim, String.toList_ofList, List.mem_reverse]
    exact List.head_mem hlist
  rw [hblank _ hmem] at hhead
  cases hhead

theorem not_blank_of_mem {s : String} {c : Char} (hmem : c ∈ s.toList)
    (hc : isWhitespace c = false) : ¬ Blank s := by
  intro hblank
  rw [hblank c hmem] at hc
  cases hc

theorem not_blank_ipv4ToString (a : Ipv4Addr) : ¬ Blank (ipv4ToString a) := by
  have hmem : '.' ∈ (ipv4ToString a).toList := by simp [ipv4ToString]
  exact not_blank_of_mem hmem (by decide)

theorem colon_mem_formatSegments (first second : ℕ) (rest : List ℕ) :
    ':' ∈ formatSegments (first :: second :: rest) := by
  simp [formatSegments]

theorem not_blank_ipv6ToString (a : Ipv6Addr) : ¬ Blank (ipv6ToString a) := by
  have hmem : ':' ∈ (ipv6ToString a).toList := by
    unfold ipv6ToString
    simp only
    split_ifs
    · simp
    · simp
    · have hall : ∃ first second rest, segments a = first :: second :: rest := ⟨_, _, _, rfl⟩
      obtain ⟨first, second, rest, hall⟩ := hall
      rw [hall, String.toList_ofList]
      exact colon_mem_formatSegments first second rest
  exact not_blank_of_mem hmem (by decide)

/-- Every peer that converts can be connected to. -/
theorem reachable_of_tryFrom {raw : PeerMetadataToml} {peer : PeerMetadata}
    (h : PeerMetadata.tryFrom raw = .ok peer) : peer.Reachable := by
  unfold PeerMetadata.tryFrom at h
  simp only at h
  split_ifs at h with hunset
  obtain rfl := Except.ok.inj h
  constructor
  · intro hnil
    simp only [PeerMetadata.connectHosts, List.append_eq_nil_iff, Option.toList_eq_nil_iff,
      Option.map_eq_none_iff] at hnil
    exact hunset ⟨hnil.1.1, hnil.2, hnil.1.2⟩
  · intro host hmem
    simp only [PeerMetadata.connectHosts, List.mem_append, Option.mem_toList,
      Option.map_eq_some_iff] at hmem
    rcases hmem with (hhostname | ⟨a, -, rfl⟩) | ⟨a, -, rfl⟩
    · obtain ⟨h', -, htrim⟩ := Option.bind_eq_some_iff.mp hhostname
      split_ifs at htrim with hempty
      rw [← Option.some.inj htrim]
      exact not_blank_trim hempty
    · exact not_blank_ipv6ToString a
    · exact not_blank_ipv4ToString a

/-! Key material. -/

/-- What an OpenSSH public key line holds. -/
inductive KeyData
  | ed25519 (key : Vector UInt8 32)
  | other

/-- The primitives, the file system and the third-party parsers of key files. -/
structure Platform extends Crypto where
  readToString : String → Option String
  /-- `pem::parse`: the tag and the contents. -/
  pemParse : String → Option (String × Bytes)
  /-- The `private_key` field of `pkcs8::PrivateKeyInfo::from_der`. -/
  privateKeyInfo : Bytes → Option Bytes
  /-- `der::asn1::OctetString::from_der`. -/
  octetString : Bytes → Option Bytes
  /-- `ssh_key::PublicKey::from_openssh`. -/
  fromOpenssh : String → Option KeyData
  verifyingKey_length : ∀ signingKey, (verifyingKey signingKey).length = 32

namespace Platform

variable (p : Platform)

def readPrivateKeyEd25519PemFile (keyfile : String) : Option Bytes := do
  let contents ← p.readToString keyfile
  let (tag, derBytes) ← p.pemParse contents
  if tag ≠ "PRIVATE KEY" then none
  else do
    let privateKeyBytes ← p.privateKeyInfo derBytes
    let keyBytes ← p.octetString privateKeyBytes
    if keyBytes.length ≠ 32 then none else some keyBytes

/-- The public key is derived from the private key in the same file. -/
def readPublicKeyEd25519PemFile (keyfile : String) : Option Bytes :=
  (p.readPrivateKeyEd25519PemFile keyfile).map p.verifyingKey

def publicKeyToEd25519Vk (publicKey : String) : Option Bytes :=
  match p.fromOpenssh publicKey with
  | some (.ed25519 key) => if p.isVerifyingKey key.toList then some key.toList else none
  | _ => none

theorem readPublicKey_length {keyfile : String} {key : Bytes}
    (h : p.readPublicKeyEd25519PemFile keyfile = some key) : key.length = 32 := by
  obtain ⟨signingKey, -, rfl⟩ := Option.map_eq_some_iff.mp h
  exact p.verifyingKey_length signingKey

end Platform

/-- `IdentityData::generate_from_config` at the epoch second `now`. -/
def generateFromConfig (p : Platform) (config : Config) (now : UInt64) : Option IdentityData := do
  let encodedPublicKey ← p.readPublicKeyEd25519PemFile config.identity.keyfile
  let ourPrivateKey ← p.readPrivateKeyEd25519PemFile config.identity.keyfile
  some {
    humanName := config.identity.name
    generatedAtUtc0EpochS := now
    validityS := 0xFFFF
    encodedPublicKeyFmt := "ed25519"
    encodedPublicKey := encodedPublicKey
    signature := IdentityData.signIdentityData p.toCrypto ourPrivateKey config.identity.name now
      0xFFFF "ed25519" encodedPublicKey }

theorem generateFromConfig_eq_some {p : Platform} {config : Config} {now : UInt64}
    {source : IdentityData} (h : generateFromConfig p config now = some source) :
    p.readPublicKeyEd25519PemFile config.identity.keyfile = some source.encodedPublicKey ∧
      source.generatedAtUtc0EpochS = now ∧ source.validityS = 0xFFFF := by
  simp only [generateFromConfig, Option.bind_eq_bind, Option.bind_eq_some_iff] at h
  obtain ⟨key, hkey, signingKey, -, hsource⟩ := h
  rw [← Option.some.inj hsource]
  exact ⟨hkey, rfl, rfl⟩

end Weverywhere.Configuration
