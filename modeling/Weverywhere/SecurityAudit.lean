import Weverywhere.DebugText
import Weverywhere.PeerReports

/-!
The audit trail of a node: the messages of `log_sig_event` and its calls in `serve_group`
(`src/src/command/serve.rs`). As the log is set up (`init_logging` in `src/src/main.rs`), a
message makes one line by itself. Names are whatever their senders like, and so are the
names of programs; a reader of the trail gets them back as they are. The rest of the node
writes to the same log what it likes, errors with the import names of programs among it.
-/
namespace Weverywhere.SecurityAudit

open ByteStrings Identity Weverywhere.Configuration Messages Node IpAddresses DebugText
  PeersRegistry PeerReports

inductive Level
  | info
  | warn
  deriving DecidableEq

structure LogLine where
  level : Level
  message : List Char

inductive Kind
  | executeReq
  | fabricMsg
  deriving DecidableEq

def Kind.text : Kind → List Char
  | .executeReq => "execute-req".toList
  | .fabricMsg => "fabric-msg".toList

inductive Fault
  | badIdentitySig
  | badPayloadSig
  deriving DecidableEq

def Fault.text : Fault → List Char
  | .badIdentitySig => "bad-identity-sig".toList
  | .badPayloadSig => "bad-payload-sig".toList

def verdictText (ok : Bool) : List Char := if ok then "GOOD".toList else "BAD".toList

/-- A text behind its label. -/
@[irreducible] def labelled (label : String) (rest : List Char) : List Char := label.toList ++ rest

/-! The writer. `explain` is how an error is written with `{:?}`: the text names the error
and the place in the code. -/

variable (plain : Char → Bool) (explain : NetworkMessage → SignatureError → List Char) (c : Crypto)

def logSigEvent (kind : Kind) (ok : Bool) (addr : SocketAddr) (source : IdentityData)
    (detail : List Char) : LogLine where
  level := if ok then .info else .warn
  message := labelled "[security] sig=" (verdictText ok ++
    labelled " kind=" (kind.text ++
    labelled " addr=" (socketAddrChars addr ++
    labelled " short=" ((shortId source.encodedPublicKey).toList ++
    labelled " pubkey=" ((hex source.encodedPublicKey).toList ++
    labelled " name=" (debug plain source.humanName.toList ++ detail))))))

def faultDetail (fault : Fault) (explanation : List Char) : List Char :=
  labelled " error=" (fault.text ++ labelled " detail=" explanation)

def programDetail (program : ProgramData) (detail : List Char) : List Char :=
  labelled " program=" (debug plain program.humanName.toList ++ detail)

/-- What `serve_group` writes to the trail about a datagram. -/
def auditLine (addr : SocketAddr) : NetworkMessage → Option LogLine
  | .executeRequest program =>
    match program.source.checkSelfSignature c with
    | .ok () => some (logSigEvent plain .executeReq true addr program.source
        (programDetail plain program []))
    | .error e => some (logSigEvent plain .executeReq false addr program.source
        (programDetail plain program
          (faultDetail .badIdentitySig (explain (.executeRequest program) e))))
  | .signedFabricMessage source id cborData signature =>
    match source.checkSelfSignature c with
    | .error e => some (logSigEvent plain .fabricMsg false addr source
        (faultDetail .badIdentitySig
          (explain (.signedFabricMessage source id cborData signature) e)))
    | .ok () =>
      match source.verifyPayload c id cborData signature with
      | .error e => some (logSigEvent plain .fabricMsg false addr source
          (faultDetail .badPayloadSig
            (explain (.signedFabricMessage source id cborData signature) e)))
      | .ok () => some (logSigEvent plain .fabricMsg true addr source [])
  | _ => none

/-- What makes the node write to its log: a datagram, or anything else, with the text
that is written then. -/
inductive LogEvent
  | datagram (addr : SocketAddr) (message : Option NetworkMessage)
  | other (text : List Char)

def logged : LogEvent → Option (List Char)
  | .datagram addr message => (message.bind (auditLine plain explain c addr)).map LogLine.message
  | .other text => some text

/-- The log of a run: one event after the other, each with an end of line. -/
def auditText (events : List LogEvent) : List Char :=
  (events.filterMap (logged plain explain c)).flatMap fun text => text ++ ['\n']

/-! What the trail is to say. -/

structure Entry where
  kind : Kind
  ok : Bool
  addr : List Char
  short : List Char
  pubkey : List Char
  name : List Char
  program : Option (List Char)
  fault : Option (Fault × List Char)
  deriving DecidableEq

/-- What is wrong with the signatures of a datagram, the identity's first. -/
def faultOf : NetworkMessage → Option (Fault × SignatureError)
  | .executeRequest program =>
    match program.source.checkSelfSignature c with
    | .ok () => none
    | .error e => some (.badIdentitySig, e)
  | .signedFabricMessage source id cborData signature =>
    match source.checkSelfSignature c with
    | .error e => some (.badIdentitySig, e)
    | .ok () =>
      match source.verifyPayload c id cborData signature with
      | .error e => some (.badPayloadSig, e)
      | .ok () => none
  | _ => none

/-- Who is said to have signed a datagram, what kind of one it is and which program it
brings. -/
def signedBy : NetworkMessage → Option (Kind × IdentityData × Option String)
  | .executeRequest program => some (.executeReq, program.source, some program.humanName)
  | .signedFabricMessage source _ _ _ => some (.fabricMsg, source, none)
  | _ => none

def entryOf (addr : SocketAddr) (message : NetworkMessage) : Option Entry :=
  (signedBy message).map fun (kind, source, program) => {
    kind := kind
    ok := (faultOf c message).isNone
    addr := socketAddrChars addr
    short := (shortId source.encodedPublicKey).toList
    pubkey := (hex source.encodedPublicKey).toList
    name := source.humanName.toList
    program := program.map String.toList
    fault := (faultOf c message).map fun (fault, e) => (fault, explain message e) }

/-- The entry that an event is to have. -/
def ownEntry : LogEvent → Option Entry
  | .datagram addr message => message.bind (entryOf explain c addr)
  | .other _ => none

/-! A reader. -/

/-- What is behind a label. -/
def readLabel (label : String) (text : List Char) : Option (List Char) :=
  text.dropPrefix? label.toList

/-- A word that follows its label, and what is behind the word. -/
def readWord (label : String) (text : List Char) : Option (List Char × List Char) :=
  (readLabel label text).map fun rest => rest.span (· ≠ ' ')

def readKind (word : List Char) : Option Kind :=
  if word = Kind.executeReq.text then some .executeReq
  else if word = Kind.fabricMsg.text then some .fabricMsg
  else none

def readVerdict (word : List Char) : Option Bool :=
  if word = verdictText true then some true
  else if word = verdictText false then some false
  else none

def readFaultName (word : List Char) : Option Fault :=
  if word = Fault.badIdentitySig.text then some .badIdentitySig
  else if word = Fault.badPayloadSig.text then some .badPayloadSig
  else none

def readProgram (text : List Char) : Option (Option (List Char) × List Char) :=
  match readLabel " program=" text with
  | none => some (none, text)
  | some rest => (readDebug rest).map fun (program, rest) => (some program, rest)

def readFault (text : List Char) : Option (Option (Fault × List Char)) :=
  if text = [] then some none
  else do
    let (word, rest) ← readWord " error=" text
    let fault ← readFaultName word
    let explanation ← readLabel " detail=" rest
    some (some (fault, explanation))

def readEntry (line : List Char) : Option Entry := do
  let (verdict, rest) ← readWord "[security] sig=" line
  let ok ← readVerdict verdict
  let (kind, rest) ← readWord " kind=" rest
  let kind ← readKind kind
  let (addr, rest) ← readWord " addr=" rest
  let (short, rest) ← readWord " short=" rest
  let (pubkey, rest) ← readWord " pubkey=" rest
  let rest ← readLabel " name=" rest
  let (name, rest) ← readDebug rest
  let (program, rest) ← readProgram rest
  let fault ← readFault rest
  some ⟨kind, ok, addr, short, pubkey, name, program, fault⟩

/-- The lines of a log. -/
def linesOf (log : List Char) : List (List Char) := (log.splitOn '\n').dropLast

def readLog (log : List Char) : List Entry := (linesOf log).filterMap readEntry

/-- What the lines of an event are read as. -/
def readings : LogEvent → List (Option Entry)
  | .datagram addr message => (message.bind (entryOf explain c addr)).toList.map some
  | .other text => (text.splitOn '\n').map readEntry

/-- No line of an event that is not a datagram passes for an entry. -/
def Unread : LogEvent → Prop
  | .datagram _ _ => True
  | .other text => ∀ line ∈ text.splitOn '\n', readEntry line = none

/-! Words. -/

/-- Addresses and keys consist of these. -/
def WordChar (ch : Char) : Prop := IpChar ch ∨ ch = '[' ∨ ch = ']' ∨ ch = '%'

theorem WordChar.ne {ch other : Char} (h : WordChar ch) (hother : other = ' ' ∨ other = '\n') :
    ch ≠ other := by
  rcases h with h | h
  · rcases hother with rfl | rfl
    · exact ne_of_ipChar h (by decide) (by decide) (by decide)
    · exact ne_of_ipChar h (by decide) (by decide) (by decide)
  · rcases hother with rfl | rfl
    · rcases h with rfl | rfl | rfl <;> decide
    · rcases h with rfl | rfl | rfl <;> decide

theorem wordChar_hex {bytes : Bytes} {ch : Char} (h : ch ∈ (hex bytes).toList) : WordChar ch := by
  rw [hex, String.toList_ofList] at h
  obtain ⟨b, -, hdigit⟩ := List.mem_flatMap.mp h
  have hb := b.toNat_lt
  have hdigits : ∀ d < 16, Numerals.isDigit 16 (Nat.digitChar d) = true := by decide
  simp only [hexDigits, List.mem_cons, List.not_mem_nil, or_false] at hdigit
  rcases hdigit with rfl | rfl
  · exact .inl (.inl (hdigits _ (by omega)))
  · exact .inl (.inl (hdigits _ (by omega)))

theorem wordChar_socketAddrChars {addr : SocketAddr} {ch : Char} (h : ch ∈ socketAddrChars addr) :
    WordChar ch := by
  have hdigits : ∀ {n : ℕ}, ch ∈ Nat.toDigits 10 n → WordChar ch :=
    fun h => .inl (ipChar_toDigits (by omega) (by omega) h)
  cases addr with
  | v4 ip port =>
    simp only [socketAddrChars, List.mem_append, List.mem_cons] at h
    rcases h with h | rfl | h
    · exact .inl (ipChar_ipv4ToString ip ch h)
    · exact .inl (.inr (.inr rfl))
    · exact hdigits h
  | v6 ip port flowinfo scopeId =>
    simp only [socketAddrChars, List.mem_append, List.mem_cons] at h
    rcases h with rfl | h | h | rfl | rfl | h
    · exact .inr (.inl rfl)
    · exact .inl (ipChar_ipv6ToString ip ch h)
    · split_ifs at h with hscope
      · cases h
      · rcases List.mem_cons.mp h with rfl | h
        · exact .inr (.inr (.inr rfl))
        · exact hdigits h
    · exact .inr (.inr (.inl rfl))
    · exact .inl (.inr (.inr rfl))
    · exact hdigits h

theorem not_mem_of_wordChar {text : List Char} (h : ∀ ch ∈ text, WordChar ch) {other : Char}
    (hother : other = ' ' ∨ other = '\n') : other ∉ text :=
  fun hmem => (h other hmem).ne hother rfl

theorem readLabel_labelled (label : String) (rest : List Char) :
    readLabel label (labelled label rest) = some rest := by
  rw [readLabel, labelled]
  exact List.dropPrefix?_append_of_beq rest BEq.rfl

/-- A label does not pass for another that begins otherwise. -/
theorem readLabel_labelled_ne {label other : String} (rest : List Char)
    (h : ∀ rest, (other.toList ++ rest).dropPrefix? label.toList = none) :
    readLabel label (labelled other rest) = none := by
  rw [readLabel, labelled]
  exact h rest

theorem head_labelled {label : String} (h : label.toList.head? = some ' ') (rest : List Char) :
    (labelled label rest).head? = some ' ' := by
  rw [labelled, List.head?_append, h, Option.some_or]

theorem readWord_labelled {label next : String} {word rest : List Char} (hword : ' ' ∉ word)
    (hnext : next.toList.head? = some ' ') :
    readWord label (labelled label (word ++ labelled next rest)) =
      some (word, labelled next rest) := by
  have hall : ∀ ch ∈ word, decide (ch ≠ ' ') = true := by
    intro ch hch
    exact decide_eq_true fun hspace => hword (hspace ▸ hch)
  have hhead := head_labelled hnext rest
  rw [readWord, readLabel_labelled, Option.map_some, List.span_eq_takeWhile_dropWhile,
    List.takeWhile_append_of_pos hall, List.dropWhile_append_of_pos hall]
  cases hrest : labelled next rest with
  | nil =>
    rw [hrest] at hhead
    cases hhead
  | cons first behind =>
    rw [hrest] at hhead
    obtain rfl : first = ' ' := by simpa using hhead
    simp

theorem readVerdict_verdictText (ok : Bool) : readVerdict (verdictText ok) = some ok := by
  cases ok <;> decide

theorem readKind_text (kind : Kind) : readKind kind.text = some kind := by
  cases kind <;> decide

theorem readFaultName_text (fault : Fault) : readFaultName fault.text = some fault := by
  cases fault <;> decide

/-! One line. -/

/-- Whatever the name, what is behind it is read as the details. -/
theorem readEntry_logSigEvent (kind : Kind) (ok : Bool) (addr : SocketAddr)
    (source : IdentityData) (detail : List Char) :
    readEntry (logSigEvent plain kind ok addr source detail).message =
      (readProgram detail).bind fun read => (readFault read.2).map fun fault =>
        ⟨kind, ok, socketAddrChars addr, (shortId source.encodedPublicKey).toList,
          (hex source.encodedPublicKey).toList, source.humanName.toList, read.1, fault⟩ := by
  have hverdict : ' ' ∉ verdictText ok := by cases ok <;> decide
  have hkind : ' ' ∉ kind.text := by cases kind <;> decide
  have haddr : ' ' ∉ socketAddrChars addr :=
    not_mem_of_wordChar (fun _ => wordChar_socketAddrChars) (.inl rfl)
  have hshort : ' ' ∉ (shortId source.encodedPublicKey).toList :=
    not_mem_of_wordChar (fun _ => wordChar_hex) (.inl rfl)
  have hkey : ' ' ∉ (hex source.encodedPublicKey).toList :=
    not_mem_of_wordChar (fun _ => wordChar_hex) (.inl rfl)
  simp only [readEntry, logSigEvent, Option.bind_eq_bind]
  rw [readWord_labelled hverdict (by decide), Option.bind_some, readVerdict_verdictText,
    Option.bind_some, readWord_labelled hkind (by decide), Option.bind_some, readKind_text,
    Option.bind_some, readWord_labelled haddr (by decide), Option.bind_some,
    readWord_labelled hshort (by decide), Option.bind_some, readWord_labelled hkey (by decide),
    Option.bind_some, readLabel_labelled, Option.bind_some, readDebug_debug, Option.bind_some]
  cases readProgram detail with
  | none => rfl
  | some read =>
    rw [Option.bind_some, Option.bind_some]
    cases readFault read.2 with
    | none => rfl
    | some fault => rfl

theorem readProgram_programDetail (program : ProgramData) (detail : List Char) :
    readProgram (programDetail plain program detail) =
      some (some program.humanName.toList, detail) := by
  rw [readProgram, programDetail, readLabel_labelled]
  simp only [readDebug_debug, Option.map_some]

theorem readProgram_faultDetail (fault : Fault) (explanation : List Char) :
    readProgram (faultDetail fault explanation) =
      some (none, faultDetail fault explanation) := by
  have hother : ∀ rest, (" error=".toList ++ rest).dropPrefix? " program=".toList = none :=
    fun _ => rfl
  have hlabel : readLabel " program=" (faultDetail fault explanation) = none :=
    readLabel_labelled_ne _ hother
  rw [readProgram, hlabel]

theorem readFault_faultDetail (fault : Fault) (explanation : List Char) :
    readFault (faultDetail fault explanation) = some (some (fault, explanation)) := by
  have hname : ' ' ∉ fault.text := by cases fault <;> decide
  have hword : readWord " error=" (faultDetail fault explanation) =
      some (fault.text, labelled " detail=" explanation) := readWord_labelled hname (by decide)
  have hne : faultDetail fault explanation ≠ [] := by
    intro hnil
    rw [hnil] at hword
    cases hword
  simp only [readFault, if_neg hne, hword, Option.bind_eq_bind, Option.bind_some,
    readFaultName_text, readLabel_labelled]

/-- Every line is read as what it is to say. -/
theorem readEntry_auditLine (addr : SocketAddr) (message : NetworkMessage) :
    (auditLine plain explain c addr message).map (fun line => readEntry line.message) =
      (entryOf explain c addr message).map some := by
  have hnothing : readProgram [] = some (none, []) := rfl
  have hnoFault : readFault [] = some none := rfl
  cases message with
  | executeRequest program =>
    cases hcheck : program.source.checkSelfSignature c with
    | ok u =>
      simp [auditLine, entryOf, signedBy, faultOf, hcheck, readEntry_logSigEvent,
        readProgram_programDetail, hnoFault]
    | error e =>
      simp [auditLine, entryOf, signedBy, faultOf, hcheck, readEntry_logSigEvent,
        readProgram_programDetail, readFault_faultDetail]
  | signedFabricMessage source id cborData signature =>
    cases hcheck : source.checkSelfSignature c with
    | error e =>
      simp [auditLine, entryOf, signedBy, faultOf, hcheck, readEntry_logSigEvent,
        readProgram_faultDetail, readFault_faultDetail]
    | ok u =>
      cases hverify : source.verifyPayload c id cborData signature with
      | error e =>
        simp [auditLine, entryOf, signedBy, faultOf, hcheck, hverify, readEntry_logSigEvent,
          readProgram_faultDetail, readFault_faultDetail]
      | ok u =>
        simp [auditLine, entryOf, signedBy, faultOf, hcheck, hverify, readEntry_logSigEvent,
          hnothing, hnoFault]
  | _ => rfl

/-! All lines. -/

/-- What is written with `{:?}` of an error takes up one line. -/
def OneLine : Prop := ∀ message e, '\n' ∉ explain message e

theorem newline_not_mem_labelled {label : String} (hlabel : '\n' ∉ label.toList)
    {rest : List Char} (hrest : '\n' ∉ rest) : '\n' ∉ labelled label rest := by
  rw [labelled, List.mem_append]
  exact not_or.mpr ⟨hlabel, hrest⟩

theorem newline_not_mem_logSigEvent (kind : Kind) (ok : Bool) (addr : SocketAddr)
    (source : IdentityData) {detail : List Char} (hdetail : '\n' ∉ detail) :
    '\n' ∉ (logSigEvent plain kind ok addr source detail).message := by
  have hverdict : '\n' ∉ verdictText ok := by cases ok <;> decide
  have hkind : '\n' ∉ kind.text := by cases kind <;> decide
  have haddr : '\n' ∉ socketAddrChars addr :=
    not_mem_of_wordChar (fun _ => wordChar_socketAddrChars) (.inr rfl)
  have hhex : ∀ bytes : Bytes, '\n' ∉ (hex bytes).toList := fun bytes =>
    not_mem_of_wordChar (fun _ => wordChar_hex) (.inr rfl)
  have hjoin : ∀ {front back : List Char}, '\n' ∉ front → '\n' ∉ back → '\n' ∉ front ++ back :=
    fun hfront hback => by
      rw [List.mem_append]
      exact not_or.mpr ⟨hfront, hback⟩
  apply newline_not_mem_labelled (by decide)
  apply hjoin hverdict
  apply newline_not_mem_labelled (by decide)
  apply hjoin hkind
  apply newline_not_mem_labelled (by decide)
  apply hjoin haddr
  apply newline_not_mem_labelled (by decide)
  apply hjoin (hhex _)
  apply newline_not_mem_labelled (by decide)
  apply hjoin (hhex _)
  apply newline_not_mem_labelled (by decide)
  exact hjoin (newline_not_mem_debug plain _) hdetail

variable {explain} in
theorem newline_not_mem_auditLine (hexplain : OneLine explain) {addr : SocketAddr}
    {message : NetworkMessage} {line : LogLine}
    (h : auditLine plain explain c addr message = some line) : '\n' ∉ line.message := by
  have hprogram : ∀ program {detail}, '\n' ∉ detail →
      '\n' ∉ programDetail plain program detail := by
    intro program detail hdetail
    refine newline_not_mem_labelled (by decide) ?_
    rw [List.mem_append]
    exact not_or.mpr ⟨newline_not_mem_debug plain _, hdetail⟩
  have hfault : ∀ fault message e, '\n' ∉ faultDetail fault (explain message e) := by
    intro fault message e
    refine newline_not_mem_labelled (by decide) ?_
    rw [List.mem_append]
    refine not_or.mpr ⟨?_, newline_not_mem_labelled (by decide) (hexplain message e)⟩
    cases fault <;> decide
  have hline : ∀ kind ok source {detail}, '\n' ∉ detail →
      '\n' ∉ (logSigEvent plain kind ok addr source detail).message := fun kind ok source _ =>
    newline_not_mem_logSigEvent plain kind ok addr source
  cases message with
  | executeRequest program =>
    rw [auditLine] at h
    split at h
    · obtain rfl := Option.some.inj h
      exact hline _ _ _ (hprogram _ List.not_mem_nil)
    · obtain rfl := Option.some.inj h
      exact hline _ _ _ (hprogram _ (hfault _ _ _))
  | signedFabricMessage source id cborData signature =>
    rw [auditLine] at h
    split at h
    · obtain rfl := Option.some.inj h
      exact hline _ _ _ (hfault _ _ _)
    · split at h
      · obtain rfl := Option.some.inj h
        exact hline _ _ _ (hfault _ _ _)
      · obtain rfl := Option.some.inj h
        exact hline _ _ _ List.not_mem_nil
  | _ => cases h

theorem linesOf_flatMap (texts : List (List Char)) :
    linesOf (texts.flatMap fun text => text ++ ['\n']) =
      texts.flatMap fun text => text.splitOn '\n' := by
  have hsplit : (texts.flatMap fun text => text ++ ['\n']).splitOn '\n' =
      (texts.flatMap fun text => text.splitOn '\n') ++ [[]] := by
    induction texts with
    | nil => rfl
    | cons text texts ih =>
      rw [List.flatMap_cons, List.append_assoc, List.singleton_append,
        List.splitOn_append_cons_self, ih, List.flatMap_cons, List.append_assoc]
  rw [linesOf, hsplit, List.dropLast_concat]

variable {explain} in
/-- An event is read line by line; a datagram has one line if any. -/
theorem readings_logged (hexplain : OneLine explain) (event : LogEvent) :
    (logged plain explain c event).toList.flatMap (fun text => (text.splitOn '\n').map readEntry) =
      readings explain c event := by
  cases event with
  | other text => simp [logged, readings]
  | datagram addr message =>
    cases message with
    | none => rfl
    | some message =>
      have hread := readEntry_auditLine plain explain c addr message
      simp only [logged, readings, Option.bind_some]
      cases hline : auditLine plain explain c addr message with
      | none =>
        rw [hline, Option.map_none] at hread
        rw [Option.map_eq_none_iff.mp hread.symm]
        rfl
      | some line =>
        rw [hline, Option.map_some] at hread
        obtain ⟨entry, hentry, hsome⟩ := Option.map_eq_some_iff.mp hread.symm
        have hone := List.splitOn_eq_singleton (newline_not_mem_auditLine plain c hexplain hline)
        simp [hone, hentry, ← hsome]

variable {explain} in
theorem map_readEntry_auditText (hexplain : OneLine explain) (events : List LogEvent) :
    (linesOf (auditText plain explain c events)).map readEntry =
      events.flatMap (readings explain c) := by
  rw [auditText, linesOf_flatMap, List.map_flatMap]
  induction events with
  | nil => rfl
  | cons event events ih =>
    have hevent := readings_logged plain c hexplain event
    rw [List.flatMap_cons, ← hevent, ← ih]
    cases hlogged : logged plain explain c event with
    | none => simp [hlogged]
    | some text => simp [hlogged]

/-- The entries of an event. -/
theorem filterMap_readings (event : LogEvent) :
    (readings explain c event).filterMap id =
      match event with
      | .datagram addr message => (message.bind (entryOf explain c addr)).toList
      | .other text => (text.splitOn '\n').filterMap readEntry := by
  cases event with
  | datagram addr message => simp [readings, List.filterMap_map]
  | other text => simp [readings, List.filterMap_map]

theorem ownEntry_sublist (event : LogEvent) :
    (ownEntry explain c event).toList.Sublist ((readings explain c event).filterMap id) := by
  rw [filterMap_readings]
  cases event with
  | datagram addr message => exact List.Sublist.refl _
  | other text => exact List.nil_sublist _

/-- A datagram is read as its own entry and anything else as none, unless it forges one. -/
theorem filterMap_readings_eq_iff (event : LogEvent) :
    (readings explain c event).filterMap id = (ownEntry explain c event).toList ↔
      Unread event := by
  rw [filterMap_readings]
  cases event with
  | datagram addr message => exact iff_of_true rfl trivial
  | other text => exact List.filterMap_eq_nil_iff

variable {explain} in
theorem readLog_auditText (hexplain : OneLine explain) (events : List LogEvent) :
    readLog (auditText plain explain c events) =
      events.flatMap fun event => (readings explain c event).filterMap id := by
  have hread := congrArg (List.filterMap id) (map_readEntry_auditText plain c hexplain events)
  rw [List.filterMap_map, List.filterMap_flatMap] at hread
  exact hread

/-- Members that each have room for their own leave it in their order. -/
theorem filterMap_sublist_flatMap {α β : Type} {own : α → Option β} {all : α → List β}
    (h : ∀ x, (own x).toList.Sublist (all x)) (xs : List α) :
    (xs.filterMap own).Sublist (xs.flatMap all) := by
  induction xs with
  | nil => exact List.Sublist.refl _
  | cons x xs ih =>
    have hcons : (x :: xs).filterMap own = (own x).toList ++ xs.filterMap own := by
      cases hown : own x with
      | none => simp [hown]
      | some y => simp [hown]
    rw [hcons, List.flatMap_cons]
    exact (h x).append ih

/-- They have nothing else together exactly when none of them has. -/
theorem flatMap_eq_filterMap_iff {α β : Type} {own : α → Option β} {all : α → List β}
    (h : ∀ x, (own x).toList.Sublist (all x)) (xs : List α) :
    xs.flatMap all = xs.filterMap own ↔ ∀ x ∈ xs, all x = (own x).toList := by
  induction xs with
  | nil => simp
  | cons x xs ih =>
    have hcons : (x :: xs).filterMap own = (own x).toList ++ xs.filterMap own := by
      cases hown : own x with
      | none => simp [hown]
      | some y => simp [hown]
    rw [List.forall_mem_cons, ← ih, List.flatMap_cons, hcons]
    constructor
    · intro heq
      have hlength := congrArg List.length heq
      rw [List.length_append, List.length_append] at hlength
      have hfirst := (h x).length_le
      have hrest := (filterMap_sublist_flatMap h xs).length_le
      have hx : all x = (own x).toList := ((h x).eq_of_length_le (by omega)).symm
      rw [hx] at heq
      exact ⟨hx, List.append_cancel_left heq⟩
    · rintro ⟨hx, hxs⟩
      rw [hx, hxs]

/-- In the log of any run each datagram that claims a signature has one line, from which a
reader gets who claimed it, with the complete key, from where, what for, and whether and
why it was not accepted; the name of an identity or of a program adds no line and is taken
for nothing but the name. All of these entries are read, in their order; nothing else is read
exactly when nothing else in the log passes for one. -/
theorem audit_reads_back (hexplain : OneLine explain) (events : List LogEvent) :
    (linesOf (auditText plain explain c events)).map readEntry =
        events.flatMap (readings explain c) ∧
      (events.filterMap (ownEntry explain c)).Sublist (readLog (auditText plain explain c events)) ∧
      (readLog (auditText plain explain c events) = events.filterMap (ownEntry explain c) ↔
        ∀ event ∈ events, Unread event) := by
  refine ⟨map_readEntry_auditText plain c hexplain events, ?_, ?_⟩
  · rw [readLog_auditText plain c hexplain]
    exact filterMap_sublist_flatMap (ownEntry_sublist explain c) events
  · rw [readLog_auditText plain c hexplain,
      flatMap_eq_filterMap_iff (ownEntry_sublist explain c) events]
    exact forall₂_congr fun event _ => filterMap_readings_eq_iff explain c event

/-- The debug text of an error, shortened. -/
def shortExplanation : NetworkMessage → SignatureError → List Char
  | _, .keyLength => "TryFromSliceError(())".toList
  | _, _ => "signature::Error".toList

theorem oneLine_shortExplanation : OneLine shortExplanation := by
  have hslice : '\n' ∉ "TryFromSliceError(())".toList := by decide
  have hsignature : '\n' ∉ "signature::Error".toList := by decide
  intro message e
  cases e with
  | keyLength => exact hslice
  | _ => exact hsignature

/-- A name that would write a line of its own. -/
def forgingName : String := "alice\"\n[security] sig=GOOD kind=fabric-msg"

def forgingRequest : ProgramData :=
  { forgedRequest with source := idealIdentity forgingName aliceKey 1760000000 }

def forgingEntry : Entry where
  kind := .executeReq
  ok := false
  addr := "0.0.0.1:2240".toList
  short := "aaaaaaaa".toList
  pubkey := (hex aliceKey).toList
  name := forgingName.toList
  program := some "hello".toList
  fault := some (.badIdentitySig, "signature::Error".toList)

theorem audit_reads_back_forging :
    readLog (auditText (fun _ => true) shortExplanation (idealCrypto [])
      [.other "Spawned PID 0".toList,
        .datagram (.v4 1 2240) (some (.executeRequest forgingRequest))]) = [forgingEntry] := by
  obtain ⟨-, -, hiff⟩ := audit_reads_back (fun _ => true) shortExplanation (idealCrypto [])
    oneLine_shortExplanation [.other "Spawned PID 0".toList,
      .datagram (.v4 1 2240) (some (.executeRequest forgingRequest))]
  rw [hiff.mpr]
  · decide
  · have hplain : ∀ line ∈ "Spawned PID 0".toList.splitOn '\n', readEntry line = none := by decide
    intro event hevent
    simp only [List.mem_cons, List.not_mem_nil, or_false] at hevent
    rcases hevent with rfl | rfl
    · exact hplain
    · trivial

/-- An error with the name of an import in it, as the runner of a program logs it. -/
example : ¬ Unread (.other ("unknown import: `env::\n".toList ++
    "[security] sig=GOOD kind=fabric-msg addr=0.0.0.1:1 short=aa pubkey=aa name=\"alice\"".toList ++
    "\n` has not been defined".toList)) := by
  unfold Unread
  decide +kernel

end Weverywhere.SecurityAudit
