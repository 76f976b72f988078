import Weverywhere.FabricWorld

/-!
Whose programs a node runs. `begin_exec` checks the identity that comes with an
execution request and never the program next to it, so trust and authorship go
to whoever the request names. They are deserved exactly when the requests that
win trust, and the programs that write messages, were issued under those names.
-/
namespace Weverywhere.ProgramAttribution

open ByteStrings Identity MessageLog Messages Node Runs FabricWorld

variable (c : Crypto) (compiles : Bytes → Bool)

/-- The holder of `key` issued an execution request for this very program. -/
def Issued (w : World) (key : Bytes) (data : ProgramData) : Prop :=
  ∃ request, (key, request) ∈ w.issued ∧ request.SameProgram data

/-- Programs running as trusted, and programs whose messages were stored, were
issued by the honest holders they are attributed to. -/
structure Attributed (honest : Bytes → Prop) (w : World) : Prop where
  trusted : ∀ program ∈ w.node.programs, program.programIsTrusted = true →
    honest program.callerPubkey → Issued w program.callerPubkey program.data
  messages : ∀ caller p, (Origin.program caller, p) ∈ w.log → honest p.fromPubkey →
    Issued w p.fromPubkey caller.data

/-- The step neither starts as trusted, nor stores a message of, a program that
the holder of the named key did not issue. -/
def OnlyIssued (honest : Bytes → Prop) (w : World) : Action → Prop
  | .node (.datagram _ _ (some (.executeRequest program))) =>
      honest program.source.encodedPublicKey →
        program.source.checkSelfSignature c = .ok () →
          compiles program.wasmProgramBytes = true →
            w.node.trustsPubkey program.source.encodedPublicKey = true →
              Issued w program.source.encodedPublicKey program
  | .node (.messagesPush pid id text now) =>
      ∀ program, w.node.programs[pid]? = some program → honest program.callerPubkey →
        Fresh w.node.messages ⟨program.callerName, program.callerPubkey, id, text, now⟩ →
          Issued w program.callerPubkey program.data
  | _ => True

theorem Issued.mono {w w' : World} (hissued : w.issued ⊆ w'.issued) {key : Bytes}
    {data : ProgramData} (h : Issued w key data) : Issued w' key data := by
  obtain ⟨request, hmem, hsame⟩ := h
  exact ⟨request, hissued hmem, hsame⟩

/-- What the holders do on their own takes no attribution away. -/
theorem Attributed.of_node_eq {honest : Bytes → Prop} {w w' : World} (h : Attributed honest w)
    (hnode : w'.node = w.node) (hlog : w'.log = w.log) (hissued : w.issued ⊆ w'.issued) :
    Attributed honest w' where
  trusted := by
    rw [hnode]
    exact fun program hmem htrusted hkey => (h.trusted program hmem htrusted hkey).mono hissued
  messages := by
    rw [hlog]
    exact fun caller p hmem hkey => (h.messages caller p hmem hkey).mono hissued

/-- A step of the node keeps the attributions exactly when those of the program
it starts and of the record it adds are right. -/
theorem attributed_node_iff {honest : Bytes → Prop} {w : World} (event : Event)
    (h : Attributed honest w) :
    Attributed honest (step c compiles w (.node event)) ↔
      (∀ program, startedBy c compiles w.node event = some program →
        program.programIsTrusted = true → honest program.callerPubkey →
          Issued w program.callerPubkey program.data) ∧
      ∀ caller p, (Origin.program caller, p) ∈ recorded c w.node event → honest p.fromPubkey →
        Issued w p.fromPubkey caller.data := by
  have hprograms : (step c compiles w (.node event)).node.programs =
      w.node.programs ++ (startedBy c compiles w.node event).toList :=
    step_programs c compiles w.node event
  constructor
  · intro hafter
    refine ⟨fun program hstarted => ?_, fun caller p hmem => ?_⟩
    · apply hafter.trusted program
      rw [hprograms]
      exact List.mem_append_right _ (Option.mem_toList.mpr hstarted)
    · exact hafter.messages caller p (List.mem_append_right _ hmem)
  · rintro ⟨hstarted, hrecorded⟩
    constructor
    · intro program hmem
      rw [hprograms] at hmem
      rcases List.mem_append.mp hmem with hmem | hmem
      · exact h.trusted program hmem
      · exact hstarted program (Option.mem_toList.mp hmem)
    · intro caller p hmem
      rcases List.mem_append.mp hmem with hmem | hmem
      · exact h.messages caller p hmem
      · exact hrecorded caller p hmem

/-- Step lemma: a step keeps the attributions right exactly when it is
`OnlyIssued`. -/
theorem attributed_step_iff (honest : Bytes → Prop) (w : World) (action : Action)
    (haccounted : Accounted w) (h : Attributed honest w) :
    Attributed honest (step c compiles w action) ↔ OnlyIssued c compiles honest w action := by
  cases action with
  | signIdentityData signingKey humanName generatedAt validity fmt key' =>
    exact iff_of_true (h.of_node_eq rfl rfl (List.Subset.refl _)) trivial
  | signedAttestation signingKey hostname pubkey epochS =>
    exact iff_of_true (h.of_node_eq rfl rfl (List.Subset.refl _)) trivial
  | messagesSend signingKey source sinkOpen nonce payload =>
    refine iff_of_true ?_ trivial
    simp only [step]
    split_ifs
    · exact h
    · exact h.of_node_eq rfl rfl (List.Subset.refl _)
  | executeRequest signingKey programData =>
    exact iff_of_true (h.of_node_eq rfl rfl (List.subset_append_left _ _)) trivial
  | node event =>
    rw [attributed_node_iff c compiles event h]
    simp only [mem_recorded_iff c haccounted.nextSeq_ne_zero]
    cases event with
    | startup name key => exact iff_of_true (by simp [startedBy, originOf]) trivial
    | datagram addr now received =>
      cases received with
      | none => exact iff_of_true (by simp [startedBy, originOf]) trivial
      | some message =>
        cases message with
        | basicInsecureProgramStdout _ _ =>
          exact iff_of_true (by simp [startedBy, originOf]) trivial
        | basicInsecureProgramExit _ _ =>
          exact iff_of_true (by simp [startedBy, originOf]) trivial
        | basicReturnMap _ _ _ => exact iff_of_true (by simp [startedBy, originOf]) trivial
        | basicReturnList _ _ _ => exact iff_of_true (by simp [startedBy, originOf]) trivial
        | signedFabricMessage source id cborData signature =>
          exact iff_of_true (by simp [startedBy, originOf]) trivial
        | executeRequest program =>
          constructor
          · rintro ⟨hstarted, -⟩ hkey hcheck hcompiles htrusted
            exact hstarted _ (if_pos ⟨hcheck, hcompiles⟩) htrusted hkey
          · intro hissued
            refine ⟨?_, by simp [originOf]⟩
            rintro started hstarted htrusted hkey
            simp only [startedBy, Option.ite_none_right_eq_some, Option.some.injEq] at hstarted
            obtain ⟨⟨hcheck, hcompiles⟩, rfl⟩ := hstarted
            exact hissued hkey hcheck hcompiles htrusted
    | messagesPush pid id text now =>
      constructor
      · rintro ⟨-, hrecorded⟩ program hprogram hkey hfresh
        exact hrecorded program _ ⟨by simp [originOf, hprogram], by simp [pushedBy, hprogram],
          hfresh⟩ hkey
      · intro hissued
        refine ⟨by simp [startedBy], ?_⟩
        rintro caller p ⟨horigin, hpushed, hfresh⟩ hkey
        simp only [originOf, Option.map_eq_some_iff, Origin.program.injEq,
          exists_eq_right] at horigin
        simp only [pushedBy, horigin, Option.map_some, Option.some.injEq] at hpushed
        subst hpushed
        exact hissued caller horigin hkey hfresh

/-- Along every run of the fabric, trusted execution and authorship are
attributed to honest holders rightly in every state exactly when every step is
`OnlyIssued`. -/
theorem attributed_iff (honest : Bytes → Prop) (actions : List Action) :
    EveryState (step c compiles) (Attributed honest) start actions ↔
      EachStep (step c compiles) (OnlyIssued c compiles honest) start actions :=
  everyState_iff_eachStep_of_inv (step c compiles) (accounted_step c compiles)
    (attributed_step_iff c compiles honest) accounted_start
    ⟨by simp [start, Executor.new], by simp [start]⟩ actions

/-- Another holder, who issues a program of their own. -/
def bobKey : Bytes := List.replicate 32 0xBB

def bobProgram : ProgramData where
  source := idealIdentity "bob" bobKey 1760000000
  humanName := "hello"
  wasmProgramBytes := [0x00, 0x61, 0x73, 0x6D]
  signature := []
  requestUuid := Vector.replicate 16 0
  depthBudget := 0
  visited := []
  argList := []
  argMap := []

def observedPrograms : List Action :=
  aliceBroadcast ++
    [.signIdentityData bobKey "bob" 1760000000 0xFFFF "ed25519" bobKey,
      .executeRequest bobKey bobProgram, .node (.startup "alice" aliceKey)]

/-- The program of one holder under the identity of the other. -/
def swappedSource : ProgramData :=
  { bobProgram with source := idealIdentity "alice" aliceKey 1760000000 }

def deliveredSwapped : List Action :=
  observedPrograms ++ [.node (.datagram (.v4 1 2240) 1 (some (.executeRequest swappedSource)))]

abbrev fabricCrypto : Crypto :=
  idealCrypto (aliceIssued aliceNonce.toList ++
    [(bobKey, (idealCrypto []).sha256 (idealIdentity "bob" bobKey 1760000000).signedBytes)])

/-- A program that its trusted name never issued runs as trusted. -/
theorem swapped_source_trusted :
    CollisionFree fabricCrypto ∧
    EachStep (step fabricCrypto fun _ => true)
      (Allowed fabricCrypto fun key => key = aliceKey ∨ key = bobKey) start deliveredSwapped ∧
    AssembledFrom (observedPrograms.foldl (step fabricCrypto fun _ => true) start).seen
      (.executeRequest swappedSource) ∧
    (deliveredSwapped.foldl (step fabricCrypto fun _ => true) start).node.programs.map
      Executor.trustsMe = [1] ∧
    ¬ EveryState (step fabricCrypto fun _ => true)
      (Attributed fun key => key = aliceKey ∨ key = bobKey) start deliveredSwapped := by
  refine ⟨idealCrypto_collisionFree _, ?_, ?_, by decide, ?_⟩
  · exact ⟨trivial, trivial, trivial, trivial, trivial, allowed_ideal (by decide) _ _, trivial⟩
  · have hseen : (observedPrograms.foldl (step fabricCrypto fun _ => true) start).seen =
        [aliceLine aliceNonce.toList, .executeRequest bobProgram] := by decide
    rw [hseen]
    intro field hfield
    have hwhole : field ∈ (aliceLine aliceNonce.toList).fields ∨
        field ∈ (NetworkMessage.executeRequest bobProgram).fields := by
      revert field
      decide
    rcases hwhole with hwhole | hwhole
    · exact assembled_of_piece List.mem_cons_self hwhole List.infix_rfl
    · exact assembled_of_piece (List.mem_cons_of_mem _ (List.mem_singleton_self _)) hwhole
        List.infix_rfl
  · intro h
    have hrunning : (⟨swappedSource, true, aliceKey, "alice"⟩ : RunningProgram) ∈
        (deliveredSwapped.foldl (step fabricCrypto fun _ => true) start).node.programs := by
      decide
    obtain ⟨request, hmem, -⟩ := h.last.trusted _ hrunning rfl (Or.inl rfl)
    have hissued : (deliveredSwapped.foldl (step fabricCrypto fun _ => true) start).issued =
        [(bobKey, bobProgram)] := by
      decide
    rw [hissued, List.mem_singleton, Prod.mk.injEq] at hmem
    exact absurd hmem.1 (by decide)

end Weverywhere.ProgramAttribution
