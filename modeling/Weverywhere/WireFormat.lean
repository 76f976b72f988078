import Weverywhere.Bare
import Weverywhere.Messages

/-!
The bytes of a `NetworkMessage` as `serde_bare` writes and reads them
(`src/src/messages/mod.rs`, `src/src/executor/mod.rs`), and the two forms of an
execution request from before its later fields existed. A reader of the current
form has no way to find a field missing: it reads on where the bytes have ended.
-/
namespace Weverywhere.WireFormat

open ByteStrings Identity Messages Bare Codec

def identityData : Codec IdentityData :=
  record (pair string (pair u64 (pair u16 (pair string (pair bytes bytes)))))
    (fun (humanName, generatedAt, validity, fmt, key, signature) =>
      ⟨humanName, generatedAt, validity, fmt, key, signature⟩)
    (fun d => (d.humanName, d.generatedAtUtc0EpochS, d.validityS, d.encodedPublicKeyFmt,
      d.encodedPublicKey, d.signature))
    (fun _ => rfl)

/-- `source`, `human_name`, `wasm_program_bytes` and `signature`. -/
def signedFields : Codec (IdentityData × String × Bytes × Bytes) :=
  pair identityData (pair string (pair bytes bytes))

/-- `request_uuid`, `depth_budget` and `visited`. -/
def contextFields : Codec (Vector UInt8 16 × UInt8 × List Bytes) :=
  pair (fixed 16) (pair u8 (list bytes))

/-- `arg_list` and `arg_map`. -/
def argumentFields : Codec (List String × List (String × String)) :=
  pair (list string) (list (pair string string))

def signedPart (p : ProgramData) : IdentityData × String × Bytes × Bytes :=
  (p.source, p.humanName, p.wasmProgramBytes, p.signature)

def contextPart (p : ProgramData) : Vector UInt8 16 × UInt8 × List Bytes :=
  (p.requestUuid, p.depthBudget, p.visited)

/-- All fields in declaration order. -/
def programData : Codec ProgramData :=
  record (pair signedFields (pair contextFields argumentFields))
    (fun ((source, humanName, wasm, signature), (uuid, depth, visited), argList, argMap) =>
      ⟨source, humanName, wasm, signature, uuid, depth, visited, argList, argMap⟩)
    (fun p => (signedPart p, contextPart p, p.argList, p.argMap))
    (fun _ => rfl)

def stdoutFields : Codec (UInt64 × Bytes) := pair u64 bytes

def exitFields : Codec (UInt64 × UInt32) := pair u64 u32

def returnFields : Codec (UInt64 × Vector UInt8 16 × Bytes) := pair u64 (pair (fixed 16) bytes)

def fabricFields : Codec (IdentityData × Bytes × Bytes × Bytes) :=
  pair identityData (pair bytes (pair bytes bytes))

/-- `serde_bare::to_vec`: a variant is tagged by its position. -/
def toVec : NetworkMessage → Bytes
  | .executeRequest p => uvarint 0 ++ programData.write p
  | .basicInsecureProgramStdout fromPid stdoutData =>
      uvarint 1 ++ stdoutFields.write (fromPid, stdoutData)
  | .basicInsecureProgramExit fromPid exitCode =>
      uvarint 2 ++ exitFields.write (fromPid, exitCode)
  | .basicReturnMap fromPid requestUuid cborData =>
      uvarint 3 ++ returnFields.write (fromPid, requestUuid, cborData)
  | .basicReturnList fromPid requestUuid cborData =>
      uvarint 4 ++ returnFields.write (fromPid, requestUuid, cborData)
  | .signedFabricMessage source id cborData signature =>
      uvarint 5 ++ fabricFields.write (source, id, cborData, signature)

/-- `serde_bare::from_slice`, as lenient as it may be about bytes that follow the
message. -/
def fromSlice (input : Bytes) : Option NetworkMessage := do
  let (tag, rest) ← readUint input
  match tag with
  | 0 => (programData.read rest).map fun (p, _) => .executeRequest p
  | 1 => (stdoutFields.read rest).map fun ((fromPid, stdoutData), _) =>
      .basicInsecureProgramStdout fromPid stdoutData
  | 2 => (exitFields.read rest).map fun ((fromPid, exitCode), _) =>
      .basicInsecureProgramExit fromPid exitCode
  | 3 => (returnFields.read rest).map fun ((fromPid, requestUuid, cborData), _) =>
      .basicReturnMap fromPid requestUuid cborData
  | 4 => (returnFields.read rest).map fun ((fromPid, requestUuid, cborData), _) =>
      .basicReturnList fromPid requestUuid cborData
  | 5 => (fabricFields.read rest).map fun ((source, id, cborData, signature), _) =>
      .signedFabricMessage source id cborData signature
  | _ => none

/-- Every length of the message has at most 64 bits. -/
def Fits : NetworkMessage → Prop
  | .executeRequest p => programData.Fits p
  | .basicInsecureProgramStdout fromPid stdoutData => stdoutFields.Fits (fromPid, stdoutData)
  | .basicInsecureProgramExit fromPid exitCode => exitFields.Fits (fromPid, exitCode)
  | .basicReturnMap fromPid requestUuid cborData =>
      returnFields.Fits (fromPid, requestUuid, cborData)
  | .basicReturnList fromPid requestUuid cborData =>
      returnFields.Fits (fromPid, requestUuid, cborData)
  | .signedFabricMessage source id cborData signature =>
      fabricFields.Fits (source, id, cborData, signature)

/-- A message between two nodes of one version arrives as it was sent. -/
theorem fromSlice_toVec (message : NetworkMessage) (h : Fits message) :
    fromSlice (toVec message) = some message := by
  have htag : ∀ tag < 6, ∀ rest, readUint (uvarint tag ++ rest) = some (tag, rest) := by
    intro tag htag rest
    rw [readUint_uvarint, if_pos (by omega)]
  have hread : ∀ {α : Type} (codec : Codec α) (x : α), codec.Fits x →
      codec.read (codec.write x) = some (x, []) := by
    intro α codec x hfits
    have hx := codec.read_write x hfits []
    rwa [List.append_nil] at hx
  cases message with
  | executeRequest p =>
    simp only [toVec, fromSlice, htag 0 (by omega), Option.bind_eq_bind, Option.bind_some,
      hread programData p h, Option.map_some]
  | basicInsecureProgramStdout fromPid stdoutData =>
    simp only [toVec, fromSlice, htag 1 (by omega), Option.bind_eq_bind, Option.bind_some,
      hread stdoutFields _ h, Option.map_some]
  | basicInsecureProgramExit fromPid exitCode =>
    simp only [toVec, fromSlice, htag 2 (by omega), Option.bind_eq_bind, Option.bind_some,
      hread exitFields _ h, Option.map_some]
  | basicReturnMap fromPid requestUuid cborData =>
    simp only [toVec, fromSlice, htag 3 (by omega), Option.bind_eq_bind, Option.bind_some,
      hread returnFields _ h, Option.map_some]
  | basicReturnList fromPid requestUuid cborData =>
    simp only [toVec, fromSlice, htag 4 (by omega), Option.bind_eq_bind, Option.bind_some,
      hread returnFields _ h, Option.map_some]
  | signedFabricMessage source id cborData signature =>
    simp only [toVec, fromSlice, htag 5 (by omega), Option.bind_eq_bind, Option.bind_some,
      hread fabricFields _ h, Option.map_some]

/-! What is read as a message is no shorter than the message. -/

theorem shortest_identityData : Shortest identityData :=
  .record (.pair shortest_string (.pair (shortest_little _ _ _ _ _)
    (.pair (shortest_little _ _ _ _ _) (.pair shortest_string (.pair shortest_bytes
      shortest_bytes))))) _ fun _ => rfl

theorem shortest_programData : Shortest programData := by
  have hsigned : Shortest signedFields :=
    .pair shortest_identityData (.pair shortest_string (.pair shortest_bytes shortest_bytes))
  have hcontext : Shortest contextFields :=
    .pair (shortest_fixed 16) (.pair (shortest_little _ _ _ _ _) (.list shortest_bytes))
  have harguments : Shortest argumentFields :=
    .pair (.list shortest_string) (.list (.pair shortest_string shortest_string))
  exact .record (.pair hsigned (.pair hcontext harguments)) _ fun _ => rfl

theorem shortest_stdoutFields : Shortest stdoutFields :=
  .pair (shortest_little _ _ _ _ _) shortest_bytes

theorem shortest_exitFields : Shortest exitFields :=
  .pair (shortest_little _ _ _ _ _) (shortest_little _ _ _ _ _)

theorem shortest_returnFields : Shortest returnFields :=
  .pair (shortest_little _ _ _ _ _) (.pair (shortest_fixed 16) shortest_bytes)

theorem shortest_fabricFields : Shortest fabricFields :=
  .pair shortest_identityData (.pair shortest_bytes (.pair shortest_bytes shortest_bytes))

theorem tagged_length_le {α : Type} {codec : Codec α} (h : Shortest codec)
    {input rest rest' : Bytes} {tag : ℕ} {x : α} (htag : readUint input = some (tag, rest))
    (hread : codec.read rest = some (x, rest')) :
    (uvarint tag ++ codec.write x).length ≤ input.length := by
  have hfront := uvarint_length_le htag
  have hback := h rest x rest' hread
  rw [List.length_append]
  omega

theorem toVec_length_le {input : Bytes} {message : NetworkMessage}
    (h : fromSlice input = some message) : (toVec message).length ≤ input.length := by
  simp only [fromSlice, Option.bind_eq_bind, Option.bind_eq_some_iff] at h
  obtain ⟨⟨tag, rest⟩, htag, h⟩ := h
  dsimp only at h
  split at h
  · obtain ⟨⟨p, rest'⟩, hread, rfl⟩ := Option.map_eq_some_iff.mp h
    exact tagged_length_le shortest_programData htag hread
  · obtain ⟨⟨⟨pid, data⟩, rest'⟩, hread, rfl⟩ := Option.map_eq_some_iff.mp h
    exact tagged_length_le shortest_stdoutFields htag hread
  · obtain ⟨⟨⟨pid, code⟩, rest'⟩, hread, rfl⟩ := Option.map_eq_some_iff.mp h
    exact tagged_length_le shortest_exitFields htag hread
  · obtain ⟨⟨⟨pid, uuid, data⟩, rest'⟩, hread, rfl⟩ := Option.map_eq_some_iff.mp h
    exact tagged_length_le shortest_returnFields htag hread
  · obtain ⟨⟨⟨pid, uuid, data⟩, rest'⟩, hread, rfl⟩ := Option.map_eq_some_iff.mp h
    exact tagged_length_le shortest_returnFields htag hread
  · obtain ⟨⟨⟨source, id, data, signature⟩, rest'⟩, hread, rfl⟩ := Option.map_eq_some_iff.mp h
    exact tagged_length_le shortest_fabricFields htag hread
  · cases h

/-! Requests from before the `#[serde(default)]` fields. -/

/-- The last field an older sender knows. -/
inductive OldFormat
  | upToSignature
  | upToVisited
  deriving DecidableEq

/-- The datagram of such a sender. -/
def OldFormat.toVec (p : ProgramData) : OldFormat → Bytes
  | .upToSignature => uvarint 0 ++ signedFields.write (signedPart p)
  | .upToVisited =>
      uvarint 0 ++ (signedFields.write (signedPart p) ++ contextFields.write (contextPart p))

/-- What the datagram holds of `p`, with the default in each missing field. -/
def OldFormat.withDefaults (p : ProgramData) : OldFormat → ProgramData
  | .upToSignature =>
      { p with
        requestUuid := Vector.replicate 16 0
        depthBudget := 0
        visited := []
        argList := []
        argMap := [] }
  | .upToVisited => { p with argList := [], argMap := [] }

/-- The current reader understands the older request. -/
def StillDecodes (format : OldFormat) (p : ProgramData) : Prop :=
  fromSlice (format.toVec p) = some (.executeRequest (format.withDefaults p))

theorem contextFields_read_nil : contextFields.read [] = none :=
  pair_read_nil _ _ (fixed_read_nil 16 (by omega))

theorem argumentFields_read_nil : argumentFields.read [] = none :=
  pair_read_nil _ _ (list_read_nil _)

/-- The reader of a request refuses both older forms: the next field's bytes are
not there, and no mark tells that they need not be. -/
theorem programData_read_old (p : ProgramData) :
    programData.read (signedFields.write (signedPart p)) = none ∧
      programData.read (signedFields.write (signedPart p) ++
        contextFields.write (contextPart p)) = none := by
  constructor
  · have hnext := pair_read_nil contextFields argumentFields contextFields_read_nil
    have hread := pair_read_none signedFields _ (signedPart p) [] hnext
    rw [List.append_nil] at hread
    exact record_read_none hread
  · have hnext := pair_read_none contextFields argumentFields (contextPart p) []
      argumentFields_read_nil
    rw [List.append_nil] at hnext
    exact record_read_none (pair_read_none signedFields _ (signedPart p) _ hnext)

theorem fromSlice_old (format : OldFormat) (p : ProgramData) :
    fromSlice (format.toVec p) = none := by
  have htag : ∀ rest, readUint (uvarint 0 ++ rest) = some (0, rest) := by
    intro rest
    rw [readUint_uvarint, if_pos (by omega)]
  obtain ⟨hsignature, hvisited⟩ := programData_read_old p
  cases format with
  | upToSignature =>
    simp only [OldFormat.toVec, fromSlice, htag, Option.bind_eq_bind, Option.bind_some,
      hsignature, Option.map_none]
  | upToVisited =>
    simp only [OldFormat.toVec, fromSlice, htag, Option.bind_eq_bind, Option.bind_some,
      hvisited, Option.map_none]

/-- No older request decodes, whatever it holds. -/
theorem old_requests_refused (format : OldFormat) (p : ProgramData) :
    fromSlice (format.toVec p) = none ∧ ¬ StillDecodes format p := by
  refine ⟨fromSlice_old format p, fun h => ?_⟩
  rw [StillDecodes, fromSlice_old] at h
  cases h

/-- A request of `run` without arguments. -/
def plainRun : ProgramData where
  source := idealIdentity "alice" aliceKey 1760000000
  humanName := "hello"
  wasmProgramBytes := [0, 0x61, 0x73, 0x6d]
  signature := []
  requestUuid := Vector.replicate 16 0
  depthBudget := 0
  visited := []
  argList := []
  argMap := []

theorem fits_plainRun : Fits (.executeRequest plainRun) := by
  have hsource : identityData.Fits plainRun.source := by
    refine ⟨?_, trivial, trivial, ?_, ?_, ?_⟩
    all_goals
      change List.length _ < 2 ^ 64
      decide
  have hsigned : signedFields.Fits (signedPart plainRun) := by
    refine ⟨hsource, ?_, ?_, ?_⟩
    all_goals
      change List.length _ < 2 ^ 64
      decide
  refine ⟨hsigned, ⟨trivial, trivial, ?_, ?_⟩, ⟨?_, ?_⟩, ⟨?_, ?_⟩⟩ <;>
    simp [plainRun, contextPart]

/-- The request as an older sender writes it is lost, as a current one it arrives. -/
theorem plain_run_lost :
    fromSlice (OldFormat.toVec plainRun .upToSignature) = none ∧
      ¬ StillDecodes .upToSignature plainRun ∧
      fromSlice (toVec (.executeRequest plainRun)) = some (.executeRequest plainRun) := by
  have hlost : fromSlice (OldFormat.toVec plainRun .upToSignature) = none :=
    fromSlice_old .upToSignature plainRun
  refine ⟨hlost, fun h => ?_, fromSlice_toVec (.executeRequest plainRun) fits_plainRun⟩
  rw [StillDecodes, hlost] at h
  cases h

end Weverywhere.WireFormat
