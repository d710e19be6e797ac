import Mathlib.Data.List.DropRight
import Mathlib.Data.UInt
import Cleonos.Lib.Text
import Cleonos.Lib.Buffer

/-!
# The boot menu

`menu.inc` of the boot loader: the entries that are built in, and the configuration file that
replaces them.
-/

namespace Cleonos.Boot

def menuMaxEntries : ℕ := 16
def menuTitleMax : ℕ := 64
def menuHintMax : ℕ := 96
def menuCmdlineMax : ℕ := 512
def menuPathMax : ℕ := 128
def menuTimeoutSeconds : ℕ := 5

/-- `CLBOOT_DEFAULT_CMDLINE`. -/
def defaultCmdline : List UInt8 := lit "clks.boot=iso clks.bootloader=clboot"

/-! ## Strings -/

/-- `clboot_copy_ascii_n`, `clboot_ascii_n_to_wide` into a buffer of `n` characters. -/
def copyN (n : ℕ) (src : List UInt8) : List UInt8 := (cstr src).take (n - 1)

/-- `clboot_str_equal_n` with a literal; `behind` is what the memory has behind its end. -/
def strEqualN (behind : List UInt8 → ℕ → UInt8) (left right : List UInt8) : Bool :=
  let byte := fun i =>
    if i < right.length then right.getD i 0
    else if i = right.length then 0 else behind right (i - right.length - 1)
  (List.range left.length).all (fun i => left.getD i 0 == byte i) && byte left.length == 0

/-- `clboot_parse_uint`: the digits, up to a zero byte. -/
def parseUint (text : List UInt8) (fallback : ℕ) : ℕ :=
  let digits := cstr text
  if digits = [] ∨ digits.any (fun c => c < 48 || 57 < c) then fallback
  else digits.foldl (fun value c => (value * 10 + (c.toNat - 48)) % 2 ^ 64) 0

/-- `clboot_trim_line`. -/
def trimLine (data : List UInt8) : List UInt8 :=
  (data.dropWhile fun c => c == 32 || c == 9).rdropWhile fun c => c == 32 || c == 9 || c == 13

/-- `clboot_line_key_value`. -/
def lineKeyValue (line : List UInt8) : Option (List UInt8 × List UInt8) :=
  if 61 ∈ line then
    some (trimLine (line.takeWhile (· ≠ 61)), trimLine ((line.dropWhile (· ≠ 61)).drop 1))
  else none

/-- `clboot_menu_entry`, as far as the configuration fills it. -/
structure MenuEntry where
  title : List UInt8
  hint : List UInt8
  kernelPath : List UInt8
  ramdiskPath : List UInt8
  cmdline : List UInt8
  source : List UInt8
  deriving DecidableEq, Repr

/-- `clboot_menu_config`. -/
structure MenuConfig where
  entries : List MenuEntry
  defaultIndex : ℕ
  timeoutSeconds : ℕ
  globalCmdline : List UInt8
  deriving DecidableEq, Repr

/-- `clboot_menu_entry_init`. -/
def menuEntryInit (title hint kernelPath ramdiskPath cmdline source : List UInt8) : MenuEntry where
  title := copyN menuTitleMax title
  hint := copyN menuHintMax hint
  kernelPath := copyN menuPathMax kernelPath
  ramdiskPath := copyN menuPathMax ramdiskPath
  cmdline := copyN menuCmdlineMax cmdline
  source := copyN menuHintMax source

/-- `clboot_menu_add`: the table with the entry, and where it is. -/
def menuAdd (cfg : MenuConfig) (entry : MenuEntry) : MenuConfig × Option ℕ :=
  if cfg.entries.length ≥ menuMaxEntries then (cfg, none)
  else ({ cfg with entries := cfg.entries ++ [entry] }, some cfg.entries.length)

def kernelDefault : List UInt8 := lit "\\boot\\clks_kernel.elf"
def ramdiskDefault : List UInt8 := lit "\\boot\\cleonos_ramdisk.tar"

def builtin (title hint cmdline : String) : MenuEntry :=
  menuEntryInit (lit title) (lit hint) kernelDefault ramdiskDefault (lit cmdline) (lit "builtin")

def builtins : List MenuEntry :=
  [builtin "Try CLeonOS" "Normal ISO live boot." "",
    builtin "Safe Mode" "No splash, root rescue mode, verbose logs."
      "clks.rescue=1 clks.nosplash clks.loglevel=debug",
    builtin "Verbose Boot" "Normal boot with debug-level kernel logs." "clks.loglevel=debug",
    builtin "Quiet Boot" "Normal boot with quiet kernel logging." "clks.loglevel=quiet",
    builtin "Install to Disk" "Boot and auto-run install2disk install."
      "clks.installer=install clks.nosplash",
    builtin "Repair Disk System" "Boot and auto-run install2disk repair."
      "clks.installer=repair clks.nosplash",
    builtin "Update Kernel" "Boot and auto-run install2disk update-kernel."
      "clks.installer=update-kernel clks.nosplash",
    builtin "Verify Installation" "Boot and auto-run install2disk verify."
      "clks.installer=verify clks.nosplash"]

/-- `clboot_menu_config_init_defaults`. -/
def menuConfigInitDefaults : MenuConfig :=
  builtins.foldl (fun cfg entry => (menuAdd cfg entry).1)
    ⟨[], 0, menuTimeoutSeconds, copyN menuCmdlineMax defaultCmdline⟩

/-- The keys of a line. -/
inductive Key
  | timeout
  | default
  | cmdline
  | menuentry
  | kernel
  | ramdisk
  | hint
  | other
  deriving DecidableEq, Repr

/-- The key that a text is taken for, in the order of the comparisons. -/
def keyOf (behind : List UInt8 → ℕ → UInt8) (key : List UInt8) : Key :=
  if strEqualN behind key (lit "timeout") then .timeout
  else if strEqualN behind key (lit "default") then .default
  else if strEqualN behind key (lit "cmdline") then .cmdline
  else if strEqualN behind key (lit "menuentry") then .menuentry
  else if strEqualN behind key (lit "kernel") then .kernel
  else if strEqualN behind key (lit "ramdisk") then .ramdisk
  else if strEqualN behind key (lit "hint") then .hint
  else .other

/-- A line of the file: its key and its value, unless it is empty, a comment or has none. -/
def lineSetting (behind : List UInt8 → ℕ → UInt8) (raw : List UInt8) : Option (Key × List UInt8) :=
  let line := trimLine raw
  if line = [] then none
  else if line.headD 0 = 35 then none
  else (lineKeyValue line).map fun kv => (keyOf behind kv.1, kv.2)

/-- The entry of a `menuentry` line. -/
def configuredEntry (title : List UInt8) : MenuEntry :=
  { menuEntryInit [] (lit "Configured boot entry.") kernelDefault ramdiskDefault []
      (lit "clboot.conf") with
    title := copyN menuTitleMax title }

/-- A line for the current entry. -/
def entrySetting (key : Key) (value : List UInt8) (entry : MenuEntry) : MenuEntry :=
  match key with
  | .kernel => { entry with kernelPath := copyN menuPathMax value }
  | .ramdisk => { entry with ramdiskPath := copyN menuPathMax value }
  | .cmdline => { entry with cmdline := copyN menuCmdlineMax value }
  | .hint => { entry with hint := copyN menuHintMax value }
  | _ => entry

/-- One line, with the number of entries at the start and the current entry. -/
def parseStep (oldCount : ℕ) (s : MenuConfig × Option ℕ) (line : Key × List UInt8) :
    MenuConfig × Option ℕ :=
  let (cfg, current) := s
  let (key, value) := line
  match key, current with
  | .timeout, _ => ({ cfg with timeoutSeconds := parseUint value cfg.timeoutSeconds }, current)
  | .default, _ => ({ cfg with defaultIndex := parseUint value cfg.defaultIndex }, current)
  | .cmdline, none => ({ cfg with globalCmdline := copyN menuCmdlineMax value }, none)
  | .menuentry, _ =>
    let cfg := if cfg.entries.length = oldCount then { cfg with entries := [] } else cfg
    menuAdd cfg (configuredEntry value)
  | _, some i => ({ cfg with entries := cfg.entries.modify i (entrySetting key value) }, current)
  | _, none => (cfg, none)

/-- The lines of the file that have a key. -/
def settings (behind : List UInt8 → ℕ → UInt8) (config : List UInt8) : List (Key × List UInt8) :=
  (config.splitOn 10).filterMap (lineSetting behind)

/-- `clboot_menu_parse_config`; there is no file when none of the paths is read. -/
def menuParseConfig (behind : List UInt8 → ℕ → UInt8) (cfg : MenuConfig) (file : Option (List UInt8)) :
    MenuConfig :=
  match file with
  | none | some [] => cfg
  | some config =>
    let r := ((settings behind config).foldl (parseStep cfg.entries.length) (cfg, none)).1
    let r := if r.entries.length = 0 then menuConfigInitDefaults else r
    if r.defaultIndex ≥ r.entries.length then { r with defaultIndex := 0 } else r

end Cleonos.Boot

namespace Cleonos.Boot.Select

open Buffer (slice store moveUp moveDown)

/-- `clboot_wide_ends_with_elf`. -/
def wideEndsWithElf (name : List UInt8) : Bool :=
  let lower := fun c : UInt8 => if 65 ≤ c ∧ c ≤ 90 then c + 32 else c
  match name.reverse with
  | d :: c :: b :: a :: _ => a == 46 && lower b == 101 && lower c == 108 && lower d == 102
  | _ => false

/-- An entry for a kernel of the directory. -/
def scannedEntry (name : List UInt8) : MenuEntry where
  title := copyN menuTitleMax name
  hint := copyN menuHintMax (lit "Kernel from /boot/kernels.")
  kernelPath := copyN menuPathMax (lit "\\boot\\kernels" ++ lit "\\" ++ name)
  ramdiskPath := copyN menuPathMax ramdiskDefault
  cmdline := copyN menuCmdlineMax []
  source := copyN menuHintMax (lit "/boot/kernels scan")

/-- `clboot_menu_scan_kernel_dir`, with the files of the directory and which are directories. -/
def menuScanKernelDir (cfg : MenuConfig) (files : List (Bool × List UInt8)) : MenuConfig :=
  files.foldl (fun cfg file =>
    if file.1 || ! wideEndsWithElf file.2 then cfg
    else (menuAdd cfg (scannedEntry file.2)).1) cfg

/-- `clboot_path_is_empty_or_none`. -/
def pathIsEmptyOrNone : List UInt8 → Bool
  | [] => true
  | [n, o, n', e] =>
    (n == 110 || n == 78) && (o == 111 || o == 79) && (n' == 110 || n' == 78)
      && (e == 101 || e == 69)
  | _ => false

/-- An entry of the table while the menu is up. -/
structure Row where
  valid : Bool
  cmdline : ℕ → UInt8

/-- `clboot_menu_validate`: the rows of the table; `fileExists` is `clboot_file_exists`, and
`left` is what the buffers of the command lines held before. -/
def menuValidate (fileExists : List UInt8 → Bool) (left : ℕ → ℕ → UInt8) (cfg : MenuConfig) :
    List Row :=
  cfg.entries.mapIdx fun i entry =>
    { valid := fileExists entry.kernelPath
        && (pathIsEmptyOrNone entry.ramdiskPath || fileExists entry.ramdiskPath)
      cmdline := store (left i) 0 (entry.cmdline ++ [0]) }

/-- `EFI_INPUT_KEY`. -/
structure InputKey where
  scanCode : UInt16
  unicodeChar : UInt16
  deriving DecidableEq, Repr

def InputKey.isEnter (key : InputKey) : Bool := key.unicodeChar == 13 || key.unicodeChar == 10

/-- What a key does in the menu. -/
inductive Action
  | boot
  | edit
  | preview
  | info
  | shell
  | select (next : ℕ)
  deriving DecidableEq, Repr

/-- The branches of `clboot_boot_menu_select` for a key; `none` leaves the countdown on. -/
def keyAction (count selected : ℕ) (key : InputKey) : Option Action :=
  let ch := key.unicodeChar
  if key.isEnter then some .boot
  else if (ch = 101 ∨ ch = 69) ∧ selected < count then some .edit
  else if (ch = 99 ∨ ch = 67) ∧ selected < count then some .preview
  else if (ch = 105 ∨ ch = 73) ∧ selected < count then some .info
  else if (ch = 115 ∨ ch = 83) ∧ selected < count then some .shell
  else if ch ≥ 49 ∧ ch ≤ 56 then
    let next := selected / 8 * 8 + (ch.toNat - 49)
    if next ≥ count then none else some (.select next)
  else if ch = 43 ∨ ch = 61 then
    let next := (selected / 8 + 1) * 8
    some (.select (if next < count then next else selected))
  else if ch = 45 ∨ ch = 95 then
    let page := selected / 8
    some (.select (if page > 0 then (page - 1) * 8 else selected))
  else if key.scanCode = 1 then
    some (.select (if selected = 0 then count - 1 else selected - 1))
  else if key.scanCode = 2 then some (.select ((selected + 1) % count))
  else none

/-- `clboot_strlen` of a string that ends in the buffer of a command line. -/
def strlen (cmdline : ℕ → UInt8) : ℕ := (cstr (slice cmdline 0 menuCmdlineMax)).length

/-- One key in `clboot_edit_cmdline`: the buffer and the cursor, if editing goes on. -/
def editKey (original : List UInt8) (key : InputKey) (cmdline : ℕ → UInt8) (cursor : ℕ) :
    (ℕ → UInt8) × Option ℕ :=
  let len := strlen cmdline
  if key.isEnter then (cmdline, none)
  else if key.scanCode = 23 then (store cmdline 0 (original ++ [0]), none)
  else if key.unicodeChar = 8 then
    if cursor > 0 then
      (moveUp cmdline (cursor - 1) cursor (len - (cursor - 1)), some (cursor - 1))
    else (cmdline, some cursor)
  else if key.unicodeChar ≥ 32 ∧ key.unicodeChar < 127 then
    if len + 1 < menuCmdlineMax then
      let moved := moveDown cmdline (cursor + 1) cursor (len + 1 - cursor)
      (Function.update moved cursor key.unicodeChar.toUInt8, some (cursor + 1))
    else (cmdline, some cursor)
  else if key.scanCode = 3 then (cmdline, some (if cursor > 0 then cursor - 1 else cursor))
  else if key.scanCode = 4 then (cmdline, some (if cursor < len then cursor + 1 else cursor))
  else (cmdline, some cursor)

/-- One key in `clboot_shell_read_line`; `none` when the line is entered. -/
def shellKey (key : InputKey) (line : List UInt8) : Option (List UInt8) :=
  if key.isEnter then none
  else if key.unicodeChar = 8 ∨ key.unicodeChar = 127 then some line.dropLast
  else if key.unicodeChar ≥ 32 ∧ key.unicodeChar < 127 ∧ line.length + 1 < 160 then
    some (line ++ [key.unicodeChar.toUInt8])
  else some line

/-- The lines that leave `clboot_shell_run`. -/
def shellReturns (line : List UInt8) : Bool :=
  let arg := line.dropWhile fun c => c == 32 || c == 9
  arg == lit "exit" || arg == lit "quit"

/-- The loop that polls the keyboard.  A loop that drops what was typed before it comes with
whether it has done so. -/
inductive Screen
  | start
  | menu
  | editor (original : List UInt8) (cursor : ℕ)
  | wait (drained : Bool)
  | shell (drained : Bool) (line : List UInt8)
  | chosen
  deriving DecidableEq, Repr

/-- The variables of `clboot_boot_menu_select` and the table. -/
structure State where
  rows : List Row
  selected : ℕ
  secondsLeft : ℕ
  countdownActive : Bool
  ticks : ℕ
  screen : Screen

/-- Whether the selected entry has its files. -/
def State.selectedValid (s : State) : Bool := (s.rows[s.selected]?.map (·.valid)).getD false

/-- The command line of the selected entry. -/
def State.cmdline (s : State) : ℕ → UInt8 := (s.rows[s.selected]?.map (·.cmdline)).getD fun _ => 0

/-- `clboot_boot_menu_select` up to its first poll. -/
def menuStart (cfg : MenuConfig) (rows : List Row) : State :=
  let s : State := ⟨rows, cfg.defaultIndex, cfg.timeoutSeconds, false, 0, .start⟩
  { s with countdownActive := s.secondsLeft > 0 && s.selectedValid }

/-- The end of a round of the inner loop, and every tenth time the countdown. -/
def endRound (s : State) : State :=
  if s.ticks + 1 < 10 then { s with ticks := s.ticks + 1, screen := .menu }
  else if s.countdownActive then
    if s.secondsLeft ≤ 1 then { s with secondsLeft := 0, ticks := 0, screen := .chosen }
    else { s with secondsLeft := s.secondsLeft - 1, ticks := 0, screen := .menu }
  else { s with ticks := 0, screen := .menu }

def menuKey (s : State) (key : InputKey) : State :=
  match keyAction s.rows.length s.selected key with
  | some .boot =>
    if s.selectedValid then { s with screen := .chosen }
    else { s with countdownActive := false, screen := .wait false }
  | some .edit =>
    { s with
      countdownActive := false
      screen := .editor (cstr (slice s.cmdline 0 menuCmdlineMax)) (strlen s.cmdline) }
  | some .preview | some .info => { s with countdownActive := false, screen := .wait false }
  | some .shell => { s with countdownActive := false, screen := .shell false [] }
  | some (.select next) => endRound { s with countdownActive := false, selected := next }
  | none => endRound s

def editorKey (s : State) (original : List UInt8) (cursor : ℕ) (key : InputKey) : State :=
  let r := editKey original key s.cmdline cursor
  let s := { s with rows := s.rows.modify s.selected fun row => { row with cmdline := r.1 } }
  match r.2 with
  | some cursor => { s with screen := .editor original cursor }
  | none => endRound s

/-- One poll of the keyboard. -/
def poll (s : State) (key : Option InputKey) : State :=
  match s.screen, key with
  | .chosen, _ => s
  | .start, none => { s with screen := .menu }
  | .wait false, none => { s with screen := .wait true }
  | .shell false line, none => { s with screen := .shell true line }
  | .start, some _ | .wait false, some _ | .shell false _, some _ => s
  | .menu, none => endRound s
  | .menu, some key => menuKey s key
  | .editor original cursor, some key => editorKey s original cursor key
  | .wait true, some _ => endRound s
  | .shell true line, some key =>
    match shellKey key line with
    | some line => { s with screen := .shell true line }
    | none => if shellReturns line then endRound s else { s with screen := .shell true [] }
  | .editor _ _, none | .wait true, none | .shell true _, none => s

def polls (s : State) (keys : List (Option InputKey)) : State := keys.foldl poll s

end Cleonos.Boot.Select
