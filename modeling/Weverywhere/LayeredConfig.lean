import Weverywhere.Configuration

/-!
Loading a configuration with its override files: `Config::read_from_file`,
`process_config_override_file` and the two merge helpers (`src/src/config.rs`).
An override is parsed into the optioned form of the configuration, merged field
by field and converted back; the conversion fails as a whole.
-/
namespace Weverywhere.LayeredConfig

open Weverywhere.Configuration

/-! The optioned forms the `Optionable` derive generates. -/

structure SingleTrustedKeyOpt where
  key : Option String

structure SingleStartupProgramOpt where
  wasiFile : Option String

structure SingleIncludeOpt where
  path : Option String

structure IdentityConfigOpt where
  name : Option String
  keyfile : Option String

structure LimitOpt where
  maxCpuInstructions : Option UInt64
  maxMemoryBytes : Option UInt64

structure LimitsOpt where
  trusted : Option LimitOpt
  untrusted : Option LimitOpt

/-- A peer is a leaf: its optioned form is itself. -/
structure ConfigOpt where
  identity : Option IdentityConfigOpt
  trusted : Option (List SingleTrustedKeyOpt)
  startupProgram : Option (List SingleStartupProgramOpt)
  includes : Option (List SingleIncludeOpt)
  peer : Option (List PeerMetadata)
  limits : Option LimitsOpt

def SingleTrustedKey.intoOptioned (t : SingleTrustedKey) : SingleTrustedKeyOpt := ⟨some t.key⟩

def SingleStartupProgram.intoOptioned (s : SingleStartupProgram) : SingleStartupProgramOpt :=
  ⟨some s.wasiFile⟩

def SingleInclude.intoOptioned (i : SingleInclude) : SingleIncludeOpt := ⟨some i.path⟩

def Limit.intoOptioned (l : Limit) : LimitOpt := ⟨some l.maxCpuInstructions, some l.maxMemoryBytes⟩

def Config.intoOptioned (config : Config) : ConfigOpt where
  identity := some ⟨some config.identity.name, some config.identity.keyfile⟩
  trusted := some (config.trusted.map SingleTrustedKey.intoOptioned)
  startupProgram := some (config.startupProgram.map SingleStartupProgram.intoOptioned)
  includes := some (config.includes.map SingleInclude.intoOptioned)
  peer := some config.peer
  limits := some ⟨some (Limit.intoOptioned config.limits.trusted),
    some (Limit.intoOptioned config.limits.untrusted)⟩

def SingleTrustedKeyOpt.tryFromOptioned (o : SingleTrustedKeyOpt) : Option SingleTrustedKey :=
  o.key.map SingleTrustedKey.mk

def SingleStartupProgramOpt.tryFromOptioned (o : SingleStartupProgramOpt) :
    Option SingleStartupProgram := o.wasiFile.map SingleStartupProgram.mk

def SingleIncludeOpt.tryFromOptioned (o : SingleIncludeOpt) : Option SingleInclude :=
  o.path.map SingleInclude.mk

def IdentityConfigOpt.tryFromOptioned (o : IdentityConfigOpt) : Option IdentityConfig := do
  some ⟨← o.name, ← o.keyfile⟩

def LimitOpt.tryFromOptioned (o : LimitOpt) : Option Limit := do
  some ⟨← o.maxCpuInstructions, ← o.maxMemoryBytes⟩

def LimitsOpt.tryFromOptioned (o : LimitsOpt) : Option Limits := do
  let trusted ← o.trusted
  let untrusted ← o.untrusted
  some ⟨← trusted.tryFromOptioned, ← untrusted.tryFromOptioned⟩

/-- Every field must be set, in every element of every list. -/
def ConfigOpt.tryFromOptioned (o : ConfigOpt) : Option Config := do
  let identity ← (← o.identity).tryFromOptioned
  let trusted ← (← o.trusted).mapM SingleTrustedKeyOpt.tryFromOptioned
  let startupProgram ← (← o.startupProgram).mapM SingleStartupProgramOpt.tryFromOptioned
  let includes ← (← o.includes).mapM SingleIncludeOpt.tryFromOptioned
  let peer ← o.peer
  let limits ← (← o.limits).tryFromOptioned
  some ⟨identity, trusted, startupProgram, includes, peer, limits⟩

/-! Merging. `serde_merge::omerge` keeps a field that the override leaves unset. -/

def IdentityConfigOpt.omerge (a b : IdentityConfigOpt) : IdentityConfigOpt :=
  ⟨b.name.or a.name, b.keyfile.or a.keyfile⟩

def LimitOpt.omerge (a b : LimitOpt) : LimitOpt :=
  ⟨b.maxCpuInstructions.or a.maxCpuInstructions, b.maxMemoryBytes.or a.maxMemoryBytes⟩

def fancyOmerge {α : Type} (omerge : α → α → α) : Option α → Option α → Option α
  | some v1, none => some v1
  | some v1, some v2 => some (omerge v1 v2)
  | none, some v2 => some v2
  | none, none => none

def fancyOmergeVec {α : Type} : Option (List α) → Option (List α) → Option (List α)
  | some v1, none => some v1
  | some v1, some v2 => some (v1 ++ v2)
  | none, some v2 => some v2
  | none, none => none

/-- The file system, `glob` and `toml`. A parsed file comes with its peer entries
in wire form; an override without peers has `none` there. -/
structure Files where
  readToString : String → Option String
  /-- The matches of a pattern, each readable or not; `none` for a bad pattern. -/
  glob : String → Option (List (Option String))
  parseConfig : String → Option (Config × List PeerMetadataToml)
  parseConfigOpt : String → Option (ConfigOpt × Option (List PeerMetadataToml))

variable (files : Files)

def peersFromToml (peers : List PeerMetadataToml) : Option (List PeerMetadata) :=
  peers.mapM fun raw => (PeerMetadata.tryFrom raw).toOption

/-- `toml::from_str::<Config>`. -/
def configFromStr (contents : String) : Option Config := do
  let (config, peers) ← files.parseConfig contents
  let peer ← peersFromToml peers
  some { config with peer := peer }

/-- `toml::from_str::<ConfigOpt>`. -/
def configOptFromStr (contents : String) : Option ConfigOpt := do
  let (config, peers) ← files.parseConfigOpt contents
  match peers with
  | none => some { config with peer := none }
  | some peers => do
    let peer ← peersFromToml peers
    some { config with peer := some peer }

/-- The merge of a configuration with an override whose `includes` are dropped. -/
def joined (configO overrideData : ConfigOpt) : ConfigOpt :=
  let limits (o : ConfigOpt) : LimitsOpt := o.limits.getD ⟨none, none⟩
  { identity := fancyOmerge IdentityConfigOpt.omerge configO.identity overrideData.identity
    trusted := fancyOmergeVec configO.trusted overrideData.trusted
    startupProgram := fancyOmergeVec configO.startupProgram overrideData.startupProgram
    includes := fancyOmergeVec configO.includes none
    peer := fancyOmergeVec configO.peer overrideData.peer
    limits := some {
      trusted := some ((fancyOmerge LimitOpt.omerge (limits configO).trusted
        (limits overrideData).trusted).getD ⟨none, none⟩)
      untrusted := some ((fancyOmerge LimitOpt.omerge (limits configO).untrusted
        (limits overrideData).untrusted).getD ⟨none, none⟩) } }

def processConfigOverrideFile (config : Config) (overrideFilePath : String) : Option Config := do
  let contents ← files.readToString overrideFilePath
  let overrideData ← configOptFromStr files contents
  (joined (Config.intoOptioned config) overrideData).tryFromOptioned

/-- One match of an include pattern: an override that fails is skipped. -/
def applyEntry (config : Config) : Option String → Config
  | none => config
  | some path => (processConfigOverrideFile files config path).getD config

def readFromFile (file : String) : Option Config := do
  let contents ← files.readToString file
  let config ← configFromStr files contents
  some (config.includes.foldl
    (fun config singleInclude =>
      match files.glob singleInclude.path with
      | some paths => paths.foldl (applyEntry files) config
      | none => config)
    config)

/-! The reference: what each override sets, and what the layers add up to. -/

/-- The contents of a well-formed override. -/
structure Override where
  name : Option String
  keyfile : Option String
  trusted : List SingleTrustedKey
  startupProgram : List SingleStartupProgram
  peer : List PeerMetadata
  trustedLimit : LimitOpt
  untrustedLimit : LimitOpt

/-- An override file that reads, parses and converts. -/
def readOverride (path : String) : Option Override := do
  let contents ← files.readToString path
  let o ← configOptFromStr files contents
  let trusted ← (o.trusted.getD []).mapM SingleTrustedKeyOpt.tryFromOptioned
  let startupProgram ← (o.startupProgram.getD []).mapM SingleStartupProgramOpt.tryFromOptioned
  some {
    name := o.identity.bind IdentityConfigOpt.name
    keyfile := o.identity.bind IdentityConfigOpt.keyfile
    trusted := trusted
    startupProgram := startupProgram
    peer := o.peer.getD []
    trustedLimit := (o.limits.bind LimitsOpt.trusted).getD ⟨none, none⟩
    untrustedLimit := (o.limits.bind LimitsOpt.untrusted).getD ⟨none, none⟩ }

def readBase (file : String) : Option Config := files.readToString file >>= configFromStr files

/-- The files matched by the base's include patterns, in traversal order. -/
def overridePaths (base : Config) : List String :=
  base.includes.flatMap fun singleInclude =>
    ((files.glob singleInclude.path).getD []).filterMap id

/-- The well-formed overrides of a base configuration, in traversal order. -/
def overrides (base : Config) : List Override :=
  (overridePaths files base).filterMap (readOverride files)

/-- The value set by the last layer that sets it, else the base's. -/
def lastSet {α β : Type} (set : α → Option β) (layers : List α) (base : β) : β :=
  (layers.filterMap set).getLastD base

@[simp] theorem lastSet_nil {α β : Type} (set : α → Option β) (base : β) :
    lastSet set [] base = base := rfl

@[simp] theorem lastSet_cons {α β : Type} (set : α → Option β) (layer : α) (layers : List α)
    (base : β) :
    lastSet set (layer :: layers) base = lastSet set layers ((set layer).getD base) := by
  unfold lastSet
  cases h : set layer with
  | none => simp only [List.filterMap_cons_none h, Option.getD_none]
  | some v => simp only [List.filterMap_cons_some h, List.getLastD_cons, Option.getD_some]

/-- One well-formed layer on top of a configuration. -/
def applyOverride (config : Config) (o : Override) : Config where
  identity := ⟨o.name.getD config.identity.name, o.keyfile.getD config.identity.keyfile⟩
  trusted := config.trusted ++ o.trusted
  startupProgram := config.startupProgram ++ o.startupProgram
  includes := config.includes
  peer := config.peer ++ o.peer
  limits := ⟨⟨o.trustedLimit.maxCpuInstructions.getD config.limits.trusted.maxCpuInstructions,
      o.trustedLimit.maxMemoryBytes.getD config.limits.trusted.maxMemoryBytes⟩,
    ⟨o.untrustedLimit.maxCpuInstructions.getD config.limits.untrusted.maxCpuInstructions,
      o.untrustedLimit.maxMemoryBytes.getD config.limits.untrusted.maxMemoryBytes⟩⟩

/-! One override: the merged forms convert exactly when the override is well formed. -/

theorem mapM_map_of_inverse {α β : Type} (into : α → β) (back : β → Option α)
    (h : ∀ x, back (into x) = some x) (xs : List α) : (xs.map into).mapM back = some xs := by
  induction xs with
  | nil => rfl
  | cons x rest ih => simp [List.mapM_cons, ih, h]

theorem fancyOmergeVec_some {α : Type} (v1 : List α) (v2 : Option (List α)) :
    fancyOmergeVec (some v1) v2 = some (v1 ++ v2.getD []) := by
  cases v2 with
  | none => simp [fancyOmergeVec]
  | some v2 => rfl

theorem fancyOmerge_some {α : Type} (omerge : α → α → α) (v1 : α) (v2 : Option α) :
    fancyOmerge omerge (some v1) v2 = some (v2.elim v1 (omerge v1)) := by
  cases v2 <;> rfl

theorem tryFromOptioned_identity (identity : IdentityConfig) (o : Option IdentityConfigOpt) :
    (o.elim ⟨some identity.name, some identity.keyfile⟩
      (IdentityConfigOpt.omerge ⟨some identity.name, some identity.keyfile⟩)).tryFromOptioned =
      some ⟨(o.bind IdentityConfigOpt.name).getD identity.name,
        (o.bind IdentityConfigOpt.keyfile).getD identity.keyfile⟩ := by
  cases o with
  | none => rfl
  | some o =>
    obtain ⟨name, keyfile⟩ := o
    cases name <;> cases keyfile <;> rfl

theorem tryFromOptioned_limit (limit : Limit) (o : Option LimitOpt) :
    (o.elim (Limit.intoOptioned limit)
      (LimitOpt.omerge (Limit.intoOptioned limit))).tryFromOptioned =
      some ⟨(o.getD ⟨none, none⟩).maxCpuInstructions.getD limit.maxCpuInstructions,
        (o.getD ⟨none, none⟩).maxMemoryBytes.getD limit.maxMemoryBytes⟩ := by
  cases o with
  | none => rfl
  | some o =>
    obtain ⟨cpu, memory⟩ := o
    cases cpu <;> cases memory <;> rfl

/-- Converting a merged list converts the override's part of it. -/
theorem mapM_append_of_inverse {α β : Type} (into : α → β) (back : β → Option α)
    (h : ∀ x, back (into x) = some x) (xs : List α) (ys : List β) :
    (xs.map into ++ ys).mapM back = (ys.mapM back).map (xs ++ ·) := by
  rw [List.mapM_append, mapM_map_of_inverse into back h]
  cases ys.mapM back <;> rfl

theorem tryFromOptioned_joined (config : Config) (o : ConfigOpt) :
    (joined (Config.intoOptioned config) o).tryFromOptioned = (do
      let trusted ← (o.trusted.getD []).mapM SingleTrustedKeyOpt.tryFromOptioned
      let startupProgram ←
        (o.startupProgram.getD []).mapM SingleStartupProgramOpt.tryFromOptioned
      some (applyOverride config {
        name := o.identity.bind IdentityConfigOpt.name
        keyfile := o.identity.bind IdentityConfigOpt.keyfile
        trusted := trusted
        startupProgram := startupProgram
        peer := o.peer.getD []
        trustedLimit := (o.limits.bind LimitsOpt.trusted).getD ⟨none, none⟩
        untrustedLimit := (o.limits.bind LimitsOpt.untrusted).getD ⟨none, none⟩ })) := by
  have hlimits : ∀ side : LimitsOpt → Option LimitOpt, side ⟨none, none⟩ = none →
      side (o.limits.getD ⟨none, none⟩) = o.limits.bind side := by
    intro side hside
    cases o.limits with
    | none => exact hside
    | some limits => rfl
  have htrusted := mapM_append_of_inverse SingleTrustedKey.intoOptioned
    SingleTrustedKeyOpt.tryFromOptioned (fun _ => rfl) config.trusted (o.trusted.getD [])
  have hstartup := mapM_append_of_inverse SingleStartupProgram.intoOptioned
    SingleStartupProgramOpt.tryFromOptioned (fun _ => rfl) config.startupProgram
    (o.startupProgram.getD [])
  have hincludes := mapM_map_of_inverse SingleInclude.intoOptioned
    SingleIncludeOpt.tryFromOptioned (fun _ => rfl) config.includes
  simp only [ConfigOpt.tryFromOptioned, joined, Config.intoOptioned, fancyOmerge_some,
    fancyOmergeVec_some, Option.bind_eq_bind, Option.bind_some, Option.getD_some,
    Option.getD_none, List.append_nil, tryFromOptioned_identity, htrusted, hstartup, hincludes,
    LimitsOpt.tryFromOptioned, tryFromOptioned_limit,
    hlimits LimitsOpt.trusted rfl, hlimits LimitsOpt.untrusted rfl]
  cases (o.trusted.getD []).mapM SingleTrustedKeyOpt.tryFromOptioned with
  | none => rfl
  | some trusted =>
    cases (o.startupProgram.getD []).mapM SingleStartupProgramOpt.tryFromOptioned with
    | none => rfl
    | some startupProgram => rfl

/-- An override file is merged whole or not at all. -/
theorem processConfigOverrideFile_eq (config : Config) (path : String) :
    processConfigOverrideFile files config path =
      (readOverride files path).map (applyOverride config) := by
  unfold processConfigOverrideFile readOverride
  cases files.readToString path with
  | none => rfl
  | some contents =>
    simp only [Option.bind_eq_bind, Option.bind_some]
    cases configOptFromStr files contents with
    | none => rfl
    | some o =>
      simp only [Option.bind_some, tryFromOptioned_joined, Option.bind_eq_bind]
      cases (o.trusted.getD []).mapM SingleTrustedKeyOpt.tryFromOptioned with
      | none => rfl
      | some trusted =>
        cases (o.startupProgram.getD []).mapM SingleStartupProgramOpt.tryFromOptioned with
        | none => rfl
        | some startupProgram => rfl

/-! The whole traversal. -/

theorem foldl_applyEntry (config : Config) (paths : List (Option String)) :
    paths.foldl (applyEntry files) config =
      ((paths.filterMap id).filterMap (readOverride files)).foldl applyOverride config := by
  induction paths generalizing config with
  | nil => rfl
  | cons entry rest ih =>
    rw [List.foldl_cons, ih]
    cases entry with
    | none => rfl
    | some path =>
      have hpaths : (some path :: rest).filterMap id = path :: rest.filterMap id := rfl
      rw [applyEntry, processConfigOverrideFile_eq, hpaths]
      cases hread : readOverride files path with
      | none => rw [List.filterMap_cons_none hread, Option.map_none, Option.getD_none]
      | some o =>
        rw [List.filterMap_cons_some hread, List.foldl_cons, Option.map_some, Option.getD_some]

/-- Reading a file folds its well-formed overrides over the base. -/
theorem readFromFile_eq (file : String) :
    readFromFile files file =
      (readBase files file).map fun base =>
        (overrides files base).foldl applyOverride base := by
  have hfold : ∀ (includes : List SingleInclude) (config : Config),
      includes.foldl
        (fun config singleInclude =>
          match files.glob singleInclude.path with
          | some paths => paths.foldl (applyEntry files) config
          | none => config)
        config =
      ((includes.flatMap fun singleInclude =>
        ((files.glob singleInclude.path).getD []).filterMap id).filterMap
          (readOverride files)).foldl applyOverride config := by
    intro includes
    induction includes with
    | nil => exact fun _ => rfl
    | cons singleInclude rest ih =>
      intro config
      rw [List.foldl_cons, ih, List.flatMap_cons, List.filterMap_append, List.foldl_append]
      cases files.glob singleInclude.path with
      | none => rfl
      | some paths => simp only [foldl_applyEntry, Option.getD_some]
  unfold readFromFile readBase
  cases files.readToString file with
  | none => rfl
  | some contents =>
    simp only [Option.bind_eq_bind, Option.bind_some]
    cases configFromStr files contents with
    | none => rfl
    | some base =>
      simp only [Option.bind_some, Option.map_some, hfold]
      rfl

/-- A field each layer may set ends up as the last layer that sets it has it. -/
theorem foldl_lastSet {β : Type} (field : Config → β) (set : Override → Option β)
    (hstep : ∀ config o, field (applyOverride config o) = (set o).getD (field config))
    (layers : List Override) (base : Config) :
    field (layers.foldl applyOverride base) = lastSet set layers (field base) := by
  induction layers generalizing base with
  | nil => rfl
  | cons o rest ih => rw [List.foldl_cons, ih, lastSet_cons, hstep]

/-- A list each layer extends ends up with all of them, the base's first. -/
theorem foldl_concat {β : Type} (field : Config → List β) (added : Override → List β)
    (hstep : ∀ config o, field (applyOverride config o) = field config ++ added o)
    (layers : List Override) (base : Config) :
    field (layers.foldl applyOverride base) = field base ++ layers.flatMap added := by
  induction layers generalizing base with
  | nil => simp
  | cons o rest ih => rw [List.foldl_cons, ih, hstep, List.flatMap_cons, List.append_assoc]

theorem foldl_includes (layers : List Override) (base : Config) :
    (layers.foldl applyOverride base).includes = base.includes := by
  induction layers generalizing base with
  | nil => rfl
  | cons o rest ih => exact ih (applyOverride base o)

/-- What the layers on top of a base configuration add up to: the last value set,
the lists one after the other, the base's own includes, and only peers that can
be connected to. -/
structure LayeredBy (base : Config) (layers : List Override) (config : Config) : Prop where
  name : config.identity.name = lastSet Override.name layers base.identity.name
  keyfile : config.identity.keyfile = lastSet Override.keyfile layers base.identity.keyfile
  trusted_cpu : config.limits.trusted.maxCpuInstructions =
    lastSet (fun o => o.trustedLimit.maxCpuInstructions) layers
      base.limits.trusted.maxCpuInstructions
  trusted_memory : config.limits.trusted.maxMemoryBytes =
    lastSet (fun o => o.trustedLimit.maxMemoryBytes) layers base.limits.trusted.maxMemoryBytes
  untrusted_cpu : config.limits.untrusted.maxCpuInstructions =
    lastSet (fun o => o.untrustedLimit.maxCpuInstructions) layers
      base.limits.untrusted.maxCpuInstructions
  untrusted_memory : config.limits.untrusted.maxMemoryBytes =
    lastSet (fun o => o.untrustedLimit.maxMemoryBytes) layers
      base.limits.untrusted.maxMemoryBytes
  trusted : config.trusted = base.trusted ++ layers.flatMap Override.trusted
  startupProgram :
    config.startupProgram = base.startupProgram ++ layers.flatMap Override.startupProgram
  peer : config.peer = base.peer ++ layers.flatMap Override.peer
  includes : config.includes = base.includes
  reachable : ∀ peer ∈ config.peer, peer.Reachable

theorem layeredBy_foldl (base : Config) (layers : List Override)
    (hbase : ∀ peer ∈ base.peer, peer.Reachable)
    (hlayers : ∀ o ∈ layers, ∀ peer ∈ o.peer, peer.Reachable) :
    LayeredBy base layers (layers.foldl applyOverride base) where
  name := foldl_lastSet (fun c => c.identity.name) _ (fun _ _ => rfl) layers base
  keyfile := foldl_lastSet (fun c => c.identity.keyfile) _ (fun _ _ => rfl) layers base
  trusted_cpu :=
    foldl_lastSet (fun c => c.limits.trusted.maxCpuInstructions) _ (fun _ _ => rfl) layers base
  trusted_memory :=
    foldl_lastSet (fun c => c.limits.trusted.maxMemoryBytes) _ (fun _ _ => rfl) layers base
  untrusted_cpu :=
    foldl_lastSet (fun c => c.limits.untrusted.maxCpuInstructions) _ (fun _ _ => rfl) layers base
  untrusted_memory :=
    foldl_lastSet (fun c => c.limits.untrusted.maxMemoryBytes) _ (fun _ _ => rfl) layers base
  trusted := foldl_concat Config.trusted _ (fun _ _ => rfl) layers base
  startupProgram := foldl_concat Config.startupProgram _ (fun _ _ => rfl) layers base
  peer := foldl_concat Config.peer _ (fun _ _ => rfl) layers base
  includes := foldl_includes layers base
  reachable := by
    intro peer hpeer
    rw [foldl_concat Config.peer Override.peer (fun _ _ => rfl) layers base] at hpeer
    rcases List.mem_append.mp hpeer with hpeer | hpeer
    · exact hbase peer hpeer
    · obtain ⟨o, ho, hpeer⟩ := List.mem_flatMap.mp hpeer
      exact hlayers o ho peer hpeer

theorem mem_of_mapM {α β : Type} {f : α → Option β} {xs : List α} {ys : List β}
    (h : xs.mapM f = some ys) {y : β} (hy : y ∈ ys) : ∃ x, f x = some y := by
  induction xs generalizing ys with
  | nil =>
    obtain rfl := Option.some.inj h
    simp at hy
  | cons x rest ih =>
    simp only [List.mapM_cons, Option.bind_eq_bind, Option.bind_eq_some_iff, Option.pure_def,
      Option.some.injEq] at h
    obtain ⟨z, hz, zs, hzs, rfl⟩ := h
    rcases List.mem_cons.mp hy with rfl | hy
    · exact ⟨x, hz⟩
    · exact ih hzs hy

theorem reachable_of_peersFromToml {raws : List PeerMetadataToml} {peers : List PeerMetadata}
    (h : peersFromToml raws = some peers) : ∀ peer ∈ peers, peer.Reachable := by
  intro peer hpeer
  obtain ⟨raw, hraw⟩ := mem_of_mapM h hpeer
  cases hconvert : PeerMetadata.tryFrom raw with
  | error e => simp [hconvert, Except.toOption] at hraw
  | ok converted =>
    simp only [hconvert, Except.toOption, Option.some.injEq] at hraw
    rw [← hraw]
    exact reachable_of_tryFrom hconvert

theorem reachable_of_readBase {file : String} {base : Config}
    (h : readBase files file = some base) : ∀ peer ∈ base.peer, peer.Reachable := by
  simp only [readBase, configFromStr, Option.bind_eq_bind, Option.bind_eq_some_iff,
    Option.some.injEq] at h
  obtain ⟨contents, -, parsed, -, peers, hpeers, rfl⟩ := h
  exact reachable_of_peersFromToml hpeers

theorem reachable_of_configOptFromStr {contents : String} {o : ConfigOpt}
    (h : configOptFromStr files contents = some o) :
    ∀ peer ∈ o.peer.getD [], peer.Reachable := by
  simp only [configOptFromStr, Option.bind_eq_bind, Option.bind_eq_some_iff] at h
  obtain ⟨⟨config, raws⟩, -, h⟩ := h
  cases raws with
  | none =>
    obtain rfl := Option.some.inj h
    simp
  | some raws =>
    obtain ⟨peers, hpeers, h⟩ := Option.bind_eq_some_iff.mp h
    obtain rfl := Option.some.inj h
    exact reachable_of_peersFromToml hpeers

theorem reachable_of_overrides {base : Config} {o : Override}
    (h : o ∈ overrides files base) : ∀ peer ∈ o.peer, peer.Reachable := by
  obtain ⟨path, -, hread⟩ := List.mem_filterMap.mp h
  simp only [readOverride, Option.bind_eq_bind, Option.bind_eq_some_iff, Option.some.injEq]
    at hread
  obtain ⟨contents, -, parsed, hparsed, trusted, -, startupProgram, -, rfl⟩ := hread
  exact reachable_of_configOptFromStr files hparsed

/-- Loading a configuration fails exactly when its base does, and otherwise ends
in the reference fold of its well-formed overrides. -/
theorem readFromFile_layers (file : String) :
    match readBase files file with
    | none => readFromFile files file = none
    | some base =>
        ∃ config, readFromFile files file = some config ∧
          LayeredBy base (overrides files base) config := by
  cases hbase : readBase files file with
  | none => simp only [readFromFile_eq, hbase, Option.map_none]
  | some base =>
    refine ⟨_, by rw [readFromFile_eq, hbase, Option.map_some], layeredBy_foldl base _ ?_ ?_⟩
    · exact reachable_of_readBase files hbase
    · exact fun o ho => reachable_of_overrides files ho

end Weverywhere.LayeredConfig
