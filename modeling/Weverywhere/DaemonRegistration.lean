import Weverywhere.PathDisplay
import Weverywhere.UnitCounts
import Weverywhere.WindowsArguments
import Weverywhere.XmlText

/-!
The command line of the installed daemon (`install` in `src/src/command/daemon.rs`): the
`ExecStart` line of a systemd unit, the `ProgramArguments` of a launchd property list and
the `/tr` string of a scheduled task. All three join the displayed paths as they are, and
here each is read back by the rules of whoever runs it.
-/
namespace Weverywhere.DaemonRegistration

open ByteStrings TextCounts UnitFiles UnitCounts XmlText PathDisplay WindowsArguments

/-- The arguments behind the executable; the path is that of the staged config. -/
def serveArgsVec (installedConfigPath : Option String) : List String :=
  match installedConfigPath with
  | some cfg => ["--config", cfg, "serve"]
  | none => ["serve"]

/-! systemd. -/

def unitHead : String :=
  "[Unit]\n" ++
  "Description=weverywhere WASI fabric daemon\n" ++
  "After=network-online.target\n" ++
  "Wants=network-online.target\n" ++
  "\n" ++
  "[Service]\n" ++
  "Type=simple\n" ++
  "ExecStart="

def unitTail : String :=
  "\n" ++
  "Restart=on-failure\n" ++
  "RestartSec=2\n" ++
  "\n" ++
  "[Install]\n" ++
  "WantedBy=multi-user.target\n"

def execStart (exe : UnixPath) (config : Option UnixPath) : String :=
  exe.display ++ " " ++ " ".intercalate (serveArgsVec (config.map UnixPath.display))

def unit (exe : UnixPath) (config : Option UnixPath) : String :=
  unitHead ++ execStart exe config ++ unitTail

/-- The argument vector that is meant. -/
def unixVector (exe : UnixPath) (config : Option UnixPath) : List Bytes :=
  exe.bytes :: (serveArgsVec (config.map UnixPath.display)).map utf8

/-- What systemd runs, on a host with these specifiers. -/
def readUnit (specifier : Specifiers) (unit : String) : Option (List Bytes) :=
  (afterFirst (utf8 "ExecStart=") (utf8 unit)).bind (command specifier)

/-! launchd. -/

def plistHead : String := String.join [
  "<?xml version=\"1.0\" encoding=\"UTF-8\"?>\n",
  "<!DOCTYPE plist PUBLIC \"-//Apple//DTD PLIST 1.0//EN\" ",
  "\"http://www.apple.com/DTDs/PropertyList-1.0.dtd\">\n",
  "<plist version=\"1.0\">\n",
  "<dict>\n",
  "  <key>Label</key><string>com.weverywhere.daemon</string>\n",
  "  <key>ProgramArguments</key>\n",
  "  <array>\n"]

def plistTail : String := String.join [
  "  </array>\n",
  "  <key>RunAtLoad</key><true/>\n",
  "  <key>KeepAlive</key><true/>\n",
  "  <key>StandardOutPath</key><string>/var/log/weverywhere.log</string>\n",
  "  <key>StandardErrorPath</key><string>/var/log/weverywhere.log</string>\n",
  "</dict>\n",
  "</plist>\n"]

def stringLine (a : String) : String := "    <string>" ++ a ++ "</string>\n"

def progArgs (exe : UnixPath) (config : Option UnixPath) : String :=
  (serveArgsVec (config.map UnixPath.display)).foldl (fun progArgs a => progArgs ++ stringLine a)
    (stringLine exe.display)

def plist (exe : UnixPath) (config : Option UnixPath) : String :=
  plistHead ++ progArgs exe config ++ plistTail

/-- What launchd runs. -/
def readPlist (plist : String) : Option (List Bytes) := do
  let array ← afterFirst "<array>".toList (normalize false plist.toList)
  let found ← strings array.length array
  some (found.map fun text => utf8 (String.ofList text))

/-! Task Scheduler. -/

def taskRun (exe : WindowsPath) (config : Option WindowsPath) : String :=
  "\"" ++ exe.display ++ "\" " ++
    " ".intercalate (serveArgsVec (config.map WindowsPath.display))

def windowsVector (exe : WindowsPath) (config : Option WindowsPath) : List (List UInt16) :=
  exe.units :: (serveArgsVec (config.map WindowsPath.display)).map fun a => utf16 a.toList

/-- What the scheduled task runs. -/
def readTask (run : String) : List (List UInt16) := (commandLine run.toList).map utf16

/-! Paths that come back. -/

/-- A path of one unbroken line, without blanks or quotes (but behind a backslash), in
which nothing is an escape or a specifier. -/
structure UnitSafe (specifier : Specifiers) (path : Bytes) : Prop where
  one_line : ∀ b ∈ path, isEol b = false
  untouched : Untouched path = true
  no_specifier : NoSpecifier specifier path

/-- A path of characters XML allows, without markup, references and carriage returns. -/
structure PlistSafe (path : String) : Prop where
  no_return : '\r' ∉ path.toList
  plain : Plain path.toList

def NoBlanks (path : String) : Prop := ∀ c ∈ path.toList, WindowsArguments.isBlank c = false

structure UnitComesBack (specifier : Specifiers) (exe : UnixPath) (config : Option UnixPath) :
    Prop where
  is_text : ∃ text, utf8 text = exe.bytes
  exe_safe : UnitSafe specifier exe.bytes
  config_safe : ∀ cfg ∈ config, UnitSafe specifier (utf8 cfg.display)

structure PlistComesBack (exe : UnixPath) (config : Option UnixPath) : Prop where
  is_text : ∃ text, utf8 text = exe.bytes
  exe_safe : PlistSafe exe.display
  config_safe : ∀ cfg ∈ config, PlistSafe cfg.display

structure TaskComesBack (exe : WindowsPath) (config : Option WindowsPath) : Prop where
  is_text : ∃ text, utf16 text = exe.units
  config_safe : ∀ cfg ∈ config, NoBlanks cfg.display

/-! The unit. -/

theorem unit_head : afterFirst (utf8 "ExecStart=") (utf8 unitHead) = some [] := by
  decide +kernel

theorem utf8_unitTail : utf8 unitTail = 0x0A :: (utf8 unitTail).tail := by
  decide +kernel

def configFlag : Bytes := utf8 "--config"

/-- The last word without its last letter. -/
def serv : Bytes := utf8 "serv"

def serve : Bytes := serv ++ [0x65]

theorem utf8_serve : utf8 "serve" = serve := by
  decide

/-- The bytes of the arguments. -/
def argsBytes (config : Option UnixPath) : Bytes :=
  match config with
  | some cfg => configFlag ++ 0x20 :: (utf8 cfg.display ++ 0x20 :: serve)
  | none => serve

theorem utf8_execStart (exe : UnixPath) (config : Option UnixPath) :
    utf8 (execStart exe config) = utf8 exe.display ++ 0x20 :: argsBytes config := by
  have hspace : utf8 " " = [0x20] := by decide
  cases config with
  | none =>
    have hargs : " ".intercalate (serveArgsVec none) = "serve" := rfl
    rw [execStart, Option.map_none, hargs, utf8_append, utf8_append, hspace, utf8_serve,
      List.append_assoc]
    rfl
  | some cfg =>
    have hargs : " ".intercalate (serveArgsVec (some cfg.display)) =
        "--config" ++ " " ++ cfg.display ++ " " ++ "serve" := rfl
    rw [execStart, Option.map_some, hargs]
    simp only [utf8_append, hspace, utf8_serve, List.append_assoc]
    rfl

/-- What stands in front of the last letter of the line, that of `serve`. -/
def lineFront (exe : UnixPath) (config : Option UnixPath) : Bytes :=
  utf8 exe.display ++ 0x20 ::
    match config with
    | some cfg => configFlag ++ 0x20 :: (utf8 cfg.display ++ 0x20 :: serv)
    | none => serv

theorem lineFront_eq (exe : UnixPath) (config : Option UnixPath) :
    lineFront exe config ++ [0x65] = utf8 exe.display ++ 0x20 :: argsBytes config := by
  cases config <;> simp [lineFront, argsBytes, serve]

theorem readUnit_unit (specifier : Specifiers) (exe : UnixPath) (config : Option UnixPath) :
    readUnit specifier (unit exe config) =
      command specifier (lineFront exe config ++ 0x65 :: 0x0A :: (utf8 unitTail).tail) := by
  have hline : lineFront exe config ++ 0x65 :: 0x0A :: (utf8 unitTail).tail =
      utf8 (execStart exe config) ++ utf8 unitTail := by
    rw [utf8_execStart, ← lineFront_eq, utf8_unitTail, List.append_assoc]
    rfl
  rw [readUnit, unit, utf8_append, utf8_append, List.append_assoc, afterFirst_append unit_head,
    hline]
  rfl

/-- The words that are meant, as words of the line. -/
theorem unixVector_eq (exe : UnixPath) (config : Option UnixPath) :
    unixVector exe config = exe.bytes ::
      match config with
      | some cfg => [configFlag, utf8 cfg.display, serve]
      | none => [serve] := by
  cases config with
  | none => simp [unixVector, serveArgsVec, utf8_serve]
  | some cfg => simp [unixVector, serveArgsVec, utf8_serve, configFlag]

/-- The line counts what the words that are meant count. -/
theorem counts_eq {p : UInt8 → Bool} (hp : Counted p) (exe : UnixPath)
    (config : Option UnixPath) :
    (unixVector exe config).flatten.countP p +
        (if p 0x20 then (unixVector exe config).length - 1 else 0) =
      (lineFront exe config ++ [0x65]).countP p := by
  have hexe := countP_display hp exe
  rw [unixVector_eq, lineFront_eq]
  cases config with
  | none =>
    simp only [argsBytes, List.flatten_cons, List.flatten_nil, List.append_nil, List.countP_append,
      List.countP_cons, hexe, List.length_cons, List.length_nil]
    split_ifs <;> omega
  | some cfg =>
    simp only [argsBytes, List.flatten_cons, List.flatten_nil, List.append_nil, List.countP_append,
      List.countP_cons, hexe, List.length_cons, List.length_nil]
    split_ifs <;> omega

theorem counted_isSyntax : Counted isSyntax := fun _ h => visible_of_isSyntax h

/-- The unit gives the vector back only if every path in it stands for itself. -/
theorem unitComesBack_of_readUnit {specifier : Specifiers} (hclean : Clean specifier)
    {exe : UnixPath} {config : Option UnixPath}
    (h : readUnit specifier (unit exe config) = some (unixVector exe config)) :
    UnitComesBack specifier exe config := by
  have hmarks := counts_eq counted_isSyntax exe config
  have hvisible := counts_eq counted_visible exe config
  rw [if_neg (by decide)] at hmarks
  rw [if_pos (by decide)] at hvisible
  have hlength : 1 ≤ (unixVector exe config).length := Nat.le_add_left 1 _
  rw [readUnit_unit] at h
  obtain ⟨hline, hspecifier, hscan, hcost⟩ := command_eq_text hclean (by decide) (by decide)
    (by decide) h (by omega) (by rw [cost]; omega)
  rw [lineFront_eq, unixVector_eq] at hscan hcost
  rw [unixVector_eq] at hspecifier
  obtain ⟨hexe, hshown, hscan, hcost⟩ :=
    first_word hscan hcost (countP_display counted_visible exe).symm
  have hmem : ∀ b ∈ utf8 exe.display, isEol b = false :=
    fun b hb => hline b (List.mem_append_left _ hb)
  refine ⟨(utf8_display_iff exe).mp hshown.symm, ⟨?_, hexe, hspecifier _ List.mem_cons_self⟩, ?_⟩
  · rw [hshown]
    exact hmem
  · intro cfg hcfg
    rw [Option.mem_def] at hcfg
    subst hcfg
    obtain ⟨-, -, hscan, hcost⟩ := first_word hscan hcost rfl
    obtain ⟨hcfg, -, -, -⟩ := first_word hscan hcost rfl
    refine ⟨fun b hb => hline b ?_, hcfg, hspecifier _ (by simp)⟩
    simp only [lineFront, List.mem_append, List.mem_cons]
    exact Or.inr (Or.inr (Or.inr (Or.inr (Or.inl hb))))

theorem scan_argsBytes {config : Option UnixPath}
    (h : ∀ cfg ∈ config, Untouched (utf8 cfg.display) = true) :
    scan 0 .between (argsBytes config) =
      some ((serveArgsVec (config.map UnixPath.display)).map utf8) := by
  have hserve : scan 0 .between serve = some [utf8 "serve"] := by decide +kernel
  cases config with
  | none => exact hserve
  | some cfg =>
    have hflag : Untouched configFlag = true := by decide
    rw [argsBytes, scan_between_untouched (b := 0x2D) rfl (by decide) (by decide) (by decide) hflag,
      scan_between_untouched (head_display cfg) (by decide) (by decide) (by decide) (h cfg rfl),
      hserve]
    rfl

theorem one_line_of_all {bytes : Bytes} (h : bytes.all (fun b => !isEol b) = true) :
    ∀ b ∈ bytes, isEol b = false := by
  intro b hb
  simpa using List.all_eq_true.mp h b hb

theorem lineFront_one_line {exe : UnixPath} {config : Option UnixPath}
    (hexe : ∀ b ∈ utf8 exe.display, isEol b = false)
    (hconfig : ∀ cfg ∈ config, ∀ b ∈ utf8 cfg.display, isEol b = false) :
    ∀ b ∈ lineFront exe config, isEol b = false := by
  have hspace : isEol 0x20 = false := rfl
  have hserv : ∀ b ∈ serv, isEol b = false := one_line_of_all (by decide)
  have hflag : ∀ b ∈ configFlag, isEol b = false := one_line_of_all (by decide)
  unfold lineFront
  rw [List.forall_mem_append, List.forall_mem_cons]
  refine ⟨hexe, hspace, ?_⟩
  cases config with
  | none => exact hserv
  | some cfg =>
    rw [List.forall_mem_append, List.forall_mem_cons, List.forall_mem_append, List.forall_mem_cons]
    exact ⟨hflag, hspace, hconfig cfg rfl, hspace, hserv⟩

theorem readUnit_of_comesBack {specifier : Specifiers} {exe : UnixPath} {config : Option UnixPath}
    (h : UnitComesBack specifier exe config) :
    readUnit specifier (unit exe config) = some (unixVector exe config) := by
  have hshown := (utf8_display_iff exe).mpr h.is_text
  have hline := lineFront_one_line (hshown ▸ h.exe_safe.one_line)
    fun cfg hcfg => (h.config_safe cfg hcfg).one_line
  have hargs := scan_argsBytes fun cfg hcfg => (h.config_safe cfg hcfg).untouched
  have hspecifier : ∀ w ∈ unixVector exe config, NoSpecifier specifier w := by
    rw [unixVector_eq, List.forall_mem_cons]
    refine ⟨h.exe_safe.no_specifier, ?_⟩
    have hserve : NoSpecifier specifier serve := noSpecifier_of_not_mem (by decide)
    cases config with
    | none => exact List.forall_mem_singleton.mpr hserve
    | some cfg =>
      have hflag : NoSpecifier specifier configFlag := noSpecifier_of_not_mem (by decide)
      exact List.forall_mem_cons.mpr ⟨hflag, List.forall_mem_cons.mpr
        ⟨(h.config_safe cfg rfl).no_specifier, List.forall_mem_singleton.mpr hserve⟩⟩
  rw [readUnit_unit, command, line_eq (by decide) (by decide) (by decide) _ hline, lineFront_eq,
    hshown, words, scan_between_untouched exe.absolute (by decide) (by decide) (by decide)
      h.exe_safe.untouched, hargs]
  show some ((unixVector exe config).map (expand specifier)) = _
  rw [map_expand_of_noSpecifier hspecifier]

def flagText : List Char := ['-', '-', 'c', 'o', 'n', 'f', 'i', 'g']

def serveText : List Char := ['s', 'e', 'r', 'v', 'e']

theorem toList_flag : "--config".toList = flagText := by
  decide

theorem toList_serve : "serve".toList = serveText := by
  decide

theorem map_serveArgsVec (installedConfigPath : Option String) :
    (serveArgsVec installedConfigPath).map String.toList =
      match installedConfigPath with
      | some cfg => [flagText, cfg.toList, serveText]
      | none => [serveText] := by
  rw [← toList_flag, ← toList_serve]
  cases installedConfigPath <;> rfl

/-! The property list. -/

/-- The text in front of the line end behind the start of the array. -/
def plistFront : List Char := plistHead.toList.dropLast

theorem plist_head : plistHead.toList = plistFront ++ ['\n'] ∧
    afterFirst "<array>".toList plistFront = some [] ∧ '\r' ∉ plistFront := by
  rw [plistFront, plistHead, String.toList_join]
  decide +kernel

/-- The texts of the array. -/
def texts (exe : UnixPath) (config : Option UnixPath) : List (List Char) :=
  exe.display.toList :: (serveArgsVec (config.map UnixPath.display)).map String.toList

theorem stringLine_eq (a : String) (rest : List Char) :
    '\n' :: ((stringLine a).toList ++ rest) = element a.toList ++ '\n' :: rest := by
  have hfirst : '\n' :: "    <string>".toList = margin ++ opening := by decide
  have hlast : "</string>\n".toList = '<' :: closing ++ ['\n'] := by decide
  rw [stringLine, String.toList_append, String.toList_append, hlast, element, ← hfirst]
  simp

theorem lines_eq (args : List String) (front : String) (rest : List Char) :
    (args.foldl (fun progArgs a => progArgs ++ stringLine a) front).toList ++ rest =
      front.toList ++ ((args.map fun a => (stringLine a).toList).flatten ++ rest) := by
  induction args generalizing front with
  | nil => rfl
  | cons a args ih =>
    rw [List.foldl_cons, ih, String.toList_append, List.map_cons, List.flatten_cons,
      List.append_assoc, List.append_assoc]

theorem elements_eq (args : List String) (rest : List Char) :
    '\n' :: ((args.map fun a => (stringLine a).toList).flatten ++ rest) =
      (args.map String.toList).flatMap element ++ '\n' :: rest := by
  induction args with
  | nil => rfl
  | cons a args ih =>
    rw [List.map_cons, List.map_cons, List.flatten_cons, List.flatMap_cons, List.append_assoc,
      stringLine_eq, ih, List.append_assoc]

/-- The array as elements. -/
theorem progArgs_eq (exe : UnixPath) (config : Option UnixPath) (rest : List Char) :
    '\n' :: ((progArgs exe config).toList ++ rest) =
      (texts exe config).flatMap element ++ '\n' :: rest := by
  rw [progArgs, lines_eq, stringLine_eq, elements_eq, texts, List.flatMap_cons, List.append_assoc]

/-- The end of the array and what follows it. -/
theorem plist_tail : ∃ after, normalize false ('\n' :: plistTail.toList) =
    '\n' :: ' ' :: ' ' :: (ending ++ after) := by
  have hfirst : '\n' :: "  </array>\n".toList = '\n' :: ' ' :: ' ' :: ending ++ ['\n'] := by
    decide
  rw [plistTail, String.toList_join, List.flatMap_cons, ← List.cons_append, hfirst,
    List.append_assoc, normalize_append (by decide)]
  exact ⟨_, rfl⟩

theorem readPlist_plist (exe : UnixPath) (config : Option UnixPath) {array : List Char}
    (harray : array =
      normalize false ((texts exe config).flatMap element ++ '\n' :: plistTail.toList)) :
    readPlist (plist exe config) =
      (strings array.length array).map fun found =>
        found.map fun text => utf8 (String.ofList text) := by
  obtain ⟨hsplit, hhead, hreturn⟩ := plist_head
  have hplist : (plist exe config).toList =
      plistFront ++ ((texts exe config).flatMap element ++ '\n' :: plistTail.toList) := by
    rw [← progArgs_eq, plist, String.toList_append, String.toList_append, hsplit,
      List.append_assoc, List.append_assoc]
    rfl
  rw [readPlist, hplist, normalize_append hreturn, afterFirst_append hhead, ← harray]
  cases h : strings array.length array with
  | none =>
    simp only [Option.bind_eq_bind, Option.bind_some, h]
    rfl
  | some found =>
    simp only [Option.bind_eq_bind, Option.bind_some, h]
    rfl

/-- The vector that is meant, as texts. -/
theorem map_texts {exe : UnixPath} (hexe : utf8 exe.display = exe.bytes)
    (config : Option UnixPath) :
    (texts exe config).map (fun text => utf8 (String.ofList text)) = unixVector exe config := by
  rw [texts, unixVector, List.map_cons, List.map_map, ← hexe, String.ofList_toList]
  congr 2
  funext a
  exact congrArg utf8 String.ofList_toList

theorem countP_texts (exe : UnixPath) (config : Option UnixPath) :
    (unixVector exe config).map (List.countP counted) =
      (texts exe config).map (List.countP (onChar counted)) := by
  have hcount : ∀ a : String, (utf8 a).countP counted = a.toList.countP (onChar counted) := by
    intro a
    rw [← countP_utf8 counted_counted, String.ofList_toList]
  rw [unixVector, texts, List.map_cons, List.map_cons, ← countP_display counted_counted, hcount,
    List.map_map, List.map_map]
  congr 2
  funext a
  exact hcount a

theorem plistSafe_iff (path : String) :
    PlistSafe path ↔ '\r' ∉ path.toList ∧ Plain path.toList :=
  ⟨fun h => ⟨h.no_return, h.plain⟩, fun h => ⟨h.1, h.2⟩⟩

/-- The arguments that are always the same are plain. -/
theorem texts_plain {exe : UnixPath} {config : Option UnixPath} (hexe : PlistSafe exe.display)
    (hconfig : ∀ cfg ∈ config, PlistSafe cfg.display) :
    ∀ text ∈ texts exe config, '\r' ∉ text ∧ Plain text := by
  have hserve : '\r' ∉ serveText ∧ Plain serveText := plain_of_all (by decide)
  rw [texts, List.forall_mem_cons, map_serveArgsVec]
  refine ⟨(plistSafe_iff _).mp hexe, ?_⟩
  cases config with
  | none => exact List.forall_mem_singleton.mpr hserve
  | some cfg =>
    have hflag : '\r' ∉ flagText ∧ Plain flagText := plain_of_all (by decide)
    exact List.forall_mem_cons.mpr ⟨hflag, List.forall_mem_cons.mpr
      ⟨(plistSafe_iff _).mp (hconfig cfg rfl), List.forall_mem_singleton.mpr hserve⟩⟩

/-- launchd is given the vector that is meant exactly when the paths are plain texts. -/
theorem readPlist_iff (exe : UnixPath) (config : Option UnixPath) :
    readPlist (plist exe config) = some (unixVector exe config) ↔ PlistComesBack exe config := by
  obtain ⟨after, hafter⟩ := plist_tail
  rw [readPlist_plist exe config rfl]
  generalize plistTail.toList = tail at hafter ⊢
  constructor
  · intro h
    obtain ⟨found, hfound, hvector⟩ := Option.map_eq_some_iff.mp h
    have hcount : found.map (List.countP (onChar counted)) =
        (texts exe config).map (List.countP (onChar counted)) := by
      rw [← countP_texts, ← hvector, List.map_map]
      exact List.map_congr_left fun text _ => (countP_utf8 counted_counted text).symm
    obtain ⟨rfl, hplain⟩ := plain_of_strings_elements hfound hcount
    rw [texts, List.forall_mem_cons] at hplain
    refine ⟨?_, (plistSafe_iff _).mpr hplain.1, ?_⟩
    · rw [texts, unixVector, List.map_cons, String.ofList_toList] at hvector
      exact (utf8_display_iff exe).mp (List.cons.inj hvector).1
    · intro cfg hcfg
      rw [Option.mem_def] at hcfg
      subst hcfg
      exact (plistSafe_iff _).mpr (hplain.2 _ (by simp [serveArgsVec]))
  · intro h
    have hplain := texts_plain h.exe_safe h.config_safe
    have hlength := length_normalize_elements (texts exe config) ('\n' :: tail)
    rw [hafter, List.length_cons] at hlength
    obtain ⟨more, hmore⟩ := Nat.exists_eq_add_of_le' hlength
    rw [hmore, ← Nat.add_assoc, strings_elements hplain, hafter, ← Nat.add_assoc, strings_ending,
      Option.map_some, Option.map_some, List.append_nil,
      map_texts ((utf8_display_iff exe).mpr h.is_text)]

/-! The task. -/

/-- The characters of the arguments. -/
def argsText : Option WindowsPath → List Char
  | some cfg => flagText ++ ' ' :: (cfg.display.toList ++ ' ' :: serveText)
  | none => serveText

theorem toList_args (config : Option WindowsPath) :
    (" ".intercalate (serveArgsVec (config.map WindowsPath.display))).toList =
      argsText config := by
  have hspace : " ".toList = [' '] := by decide
  cases config with
  | none =>
    have hjoin : " ".intercalate (serveArgsVec none) = "serve" := rfl
    rw [Option.map_none, hjoin, toList_serve, argsText]
  | some cfg =>
    have hjoin : " ".intercalate (serveArgsVec (some cfg.display)) =
        "--config" ++ " " ++ cfg.display ++ " " ++ "serve" := rfl
    rw [Option.map_some, hjoin, String.toList_append, String.toList_append, String.toList_append,
      String.toList_append, toList_flag, toList_serve, hspace, argsText]
    simp only [List.append_assoc, List.cons_append, List.nil_append]

theorem taskRun_eq (exe : WindowsPath) (config : Option WindowsPath) :
    (taskRun exe config).toList =
      '"' :: exe.display.toList ++ '"' :: ' ' :: argsText config := by
  have hopen : "\"".toList = ['"'] := by decide
  have hclose : "\" ".toList = ['"', ' '] := by decide
  rw [taskRun, String.toList_append, String.toList_append, String.toList_append, toList_args,
    hopen, hclose]
  simp only [List.append_assoc, List.cons_append, List.nil_append]

theorem readTask_taskRun (exe : WindowsPath) (config : Option WindowsPath) :
    readTask (taskRun exe config) =
      utf16 exe.display.toList :: (arguments .between (argsText config)).map utf16 := by
  rw [readTask, taskRun_eq, commandLine, program_quoted (quote_not_mem_display exe),
    arguments_blank, List.map_cons]

theorem display_ne_nil (path : WindowsPath) : path.display.toList ≠ [] := by
  rw [WindowsPath.display, String.toList_ofList]
  obtain ⟨u, rest, hunits⟩ := List.exists_cons_of_ne_nil path.nonempty
  rw [hunits]
  cases rest with
  | nil => exact List.cons_ne_nil _ _
  | cons v rest =>
    unfold utf16Lossy
    split_ifs <;> exact List.cons_ne_nil _ _

theorem arguments_of_noBlanks {config : Option WindowsPath}
    (h : ∀ cfg ∈ config, NoBlanks cfg.display) :
    arguments .between (argsText config) =
      (serveArgsVec (config.map WindowsPath.display)).map String.toList := by
  have hserve : arguments .between serveText = [serveText] := by decide +kernel
  rw [map_serveArgsVec]
  cases config with
  | none => exact hserve
  | some cfg =>
    have hflag : Word flagText := by
      have hall : flagText.all (fun c => !WindowsArguments.isBlank c && c != '"') = true := by
        decide +kernel
      intro c hc
      simpa using List.all_eq_true.mp hall c hc
    have hcfg : Word cfg.display.toList := by
      intro c hc
      exact ⟨h cfg rfl c hc, fun heq => quote_not_mem_display cfg (heq ▸ hc)⟩
    rw [argsText, arguments_between_word hflag (by decide +kernel) (Or.inr ⟨_, rfl⟩),
      arguments_blank, arguments_between_word hcfg (display_ne_nil cfg) (Or.inr ⟨_, rfl⟩),
      arguments_blank, hserve]
    rfl

theorem noBlanks_of_arguments {config : Option WindowsPath}
    (h : arguments .between (argsText config) =
      (serveArgsVec (config.map WindowsPath.display)).map String.toList) :
    ∀ cfg ∈ config, NoBlanks cfg.display := by
  intro cfg hcfg
  rw [Option.mem_def] at hcfg
  subst hcfg
  have hquote : '"' ∉ argsText (some cfg) := by
    have hdisplay := quote_not_mem_display cfg
    have hconst : '"' ∉ flagText ∧ '"' ∉ serveText := by decide +kernel
    simp [argsText, hdisplay, hconst]
  refine not_blank_of_mem_arguments hquote Unquoted.between ?_
  rw [h]
  simp [serveArgsVec]

/-- The task is given the vector that is meant exactly when the config path has no blanks. -/
theorem readTask_iff (exe : WindowsPath) (config : Option WindowsPath) :
    readTask (taskRun exe config) = windowsVector exe config ↔ TaskComesBack exe config := by
  have hvector : windowsVector exe config =
      exe.units ::
        ((serveArgsVec (config.map WindowsPath.display)).map String.toList).map utf16 := by
    rw [windowsVector, List.map_map]
    rfl
  rw [readTask_taskRun, hvector, List.cons.injEq, utf16_injective.list_map.eq_iff]
  constructor
  · intro h
    exact ⟨(utf16_display_iff exe).mp h.1, noBlanks_of_arguments h.2⟩
  · intro h
    exact ⟨(utf16_display_iff exe).mpr h.is_text, arguments_of_noBlanks h.config_safe⟩

/-! All three. -/

/-- Each platform runs the vector that is meant exactly when its paths come back: for
systemd, on every host whose specifier values have no backslashes and percent signs. -/
theorem registered_command_iff (specifier : Specifiers) (exe : UnixPath)
    (config : Option UnixPath) (windowsExe : WindowsPath) (windowsConfig : Option WindowsPath) :
    (UnitComesBack specifier exe config →
      readUnit specifier (unit exe config) = some (unixVector exe config)) ∧
    (Clean specifier →
      readUnit specifier (unit exe config) = some (unixVector exe config) →
        UnitComesBack specifier exe config) ∧
    (readPlist (plist exe config) = some (unixVector exe config) ↔ PlistComesBack exe config) ∧
    (readTask (taskRun windowsExe windowsConfig) = windowsVector windowsExe windowsConfig ↔
      TaskComesBack windowsExe windowsConfig) := by
  refine ⟨readUnit_of_comesBack, ?_, readPlist_iff exe config, readTask_iff _ _⟩
  intro hclean h
  exact unitComesBack_of_readUnit hclean h

/-- The name of the unit is the only specifier here. -/
def unitName (letter : UInt8) : Option Bytes :=
  if letter = 0x6E then some (utf8 "weverywhere.service") else none

def localExe : UnixPath := ⟨utf8 "/usr/local/bin/weverywhere", by decide, by decide⟩

def localConfig : UnixPath := ⟨utf8 "/usr/local/etc/weverywhere.toml", by decide, by decide⟩

theorem clean_unitName : Clean unitName := by
  intro c value h
  unfold unitName at h
  split_ifs at h
  cases h
  decide +kernel

theorem unitSafe_of_all {path : Bytes} (h : path.all (fun b => !isEol b && b != percent) = true)
    (huntouched : Untouched path = true) : UnitSafe unitName path := by
  have hbytes : ∀ b ∈ path, isEol b = false ∧ b ≠ percent := by
    intro b hb
    simpa using List.all_eq_true.mp h b hb
  exact ⟨fun b hb => (hbytes b hb).1, huntouched,
    noSpecifier_of_not_mem fun hmem => (hbytes _ hmem).2 rfl⟩

def programExe : WindowsPath :=
  ⟨utf16 "C:\\Program Files\\weverywhere\\bin\\weverywhere.exe".toList, by decide +kernel,
    by decide +kernel⟩

def rootConfig : WindowsPath :=
  ⟨utf16 "C:\\weverywhere\\etc\\weverywhere.toml".toList, by decide +kernel, by decide +kernel⟩

theorem display_eq (a : String) (hne : utf16 a.toList ≠ []) (hquote : 0x22 ∉ utf16 a.toList) :
    (WindowsPath.mk (utf16 a.toList) hne hquote).display = a := by
  rw [WindowsPath.display, utf16Lossy_utf16, String.ofList_toList]

theorem installed_locally :
    readUnit unitName (unit localExe (some localConfig)) =
      some (unixVector localExe (some localConfig)) ∧
    UnitComesBack unitName localExe (some localConfig) ∧
    readPlist (plist localExe (some localConfig)) =
      some (unixVector localExe (some localConfig)) ∧
    readTask (taskRun programExe (some rootConfig)) =
      windowsVector programExe (some rootConfig) := by
  have hunit : UnitComesBack unitName localExe (some localConfig) := by
    refine ⟨⟨_, rfl⟩, unitSafe_of_all (by decide +kernel) (by decide +kernel), ?_⟩
    intro cfg hcfg
    cases hcfg
    exact unitSafe_of_all (by decide +kernel) (by decide +kernel)
  have hplist : PlistComesBack localExe (some localConfig) := by
    refine ⟨⟨_, rfl⟩, (plistSafe_iff _).mpr (plain_of_all (by decide +kernel)), ?_⟩
    intro cfg hcfg
    cases hcfg
    exact (plistSafe_iff _).mpr (plain_of_all (by decide +kernel))
  have htask : TaskComesBack programExe (some rootConfig) := by
    refine ⟨⟨_, rfl⟩, ?_⟩
    intro cfg hcfg
    cases hcfg
    have hall : rootConfig.display.toList.all (fun c => !WindowsArguments.isBlank c) = true := by
      rw [rootConfig, display_eq]
      decide +kernel
    intro c hc
    simpa using List.all_eq_true.mp hall c hc
  obtain ⟨hback, hsafe, hlaunchd, hscheduler⟩ :=
    registered_command_iff unitName localExe (some localConfig) programExe (some rootConfig)
  exact ⟨hback hunit, hsafe clean_unitName (hback hunit), hlaunchd.mpr hplist,
    hscheduler.mpr htask⟩

def blankExe : UnixPath := ⟨utf8 "/opt/my tools/weverywhere", by decide, by decide⟩

def ampersandExe : UnixPath := ⟨utf8 "/opt/R&D/weverywhere", by decide, by decide⟩

def blankConfig : WindowsPath :=
  ⟨utf16 "C:\\Program Files\\weverywhere\\etc\\weverywhere.toml".toList, by decide +kernel,
    by decide +kernel⟩

/-- systemd splits a path with a blank, launchd refuses one with an ampersand, and the task
gets a config path with a blank in two. -/
theorem paths_that_do_not_come_back :
    readUnit unitName (unit blankExe none) =
      some [utf8 "/opt/my", utf8 "tools/weverywhere", utf8 "serve"] ∧
    readUnit unitName (unit blankExe none) ≠ some (unixVector blankExe none) ∧
    readPlist (plist ampersandExe none) ≠ some (unixVector ampersandExe none) ∧
    readTask (taskRun programExe (some blankConfig)) ≠
      windowsVector programExe (some blankConfig) := by
  refine ⟨by decide +kernel, by decide +kernel, ?_, ?_⟩
  · intro h
    have hplain := ((readPlist_iff ampersandExe none).mp h).exe_safe.plain
    have hmem : '&' ∈ ampersandExe.display.toList := by decide +kernel
    exact (hplain.markup '&' hmem).2 rfl
  · intro h
    have hblank := ((readTask_iff programExe (some blankConfig)).mp h).config_safe blankConfig rfl
    have hmem : ' ' ∈ blankConfig.display.toList := by
      rw [blankConfig, display_eq]
      decide +kernel
    have hspace := hblank ' ' hmem
    cases hspace

end Weverywhere.DaemonRegistration
