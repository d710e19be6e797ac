import Cleonos.Lib.Keyed
import Cleonos.Lib.Lines
import Mathlib.Data.List.Sort
import Mathlib.Data.List.Lex
import Mathlib.Data.Char

/-!
# The build configuration

`kconfig_sync.py` keeps the configuration of the kernel: it reads the symbols from the Kconfig
file and their values from `.config`, writes `.config` anew, and exports the values to a C header
and to a file of variables for the build.
-/

namespace Cleonos.Kconfig

open Assignments (lookup assign)

abbrev Text := List Char

/-- A dictionary: its keys in the order of their insertion, each with its value. -/
abbrev Dict := List (Text × Text)

def text (s : String) : Text := s.toList

/-! ## Strings -/

/-- What `str.upper` and `str.lower` make of a character that is not ASCII. -/
structure Casing where
  upper : Char → Text
  lower : Char → Text

/-- `str.upper`. -/
def Casing.upperText (u : Casing) (s : Text) : Text :=
  s.flatMap fun c => if c.toNat < 128 then [c.toUpper] else u.upper c

/-- `str.lower`. -/
def Casing.lowerText (u : Casing) (s : Text) : Text :=
  s.flatMap fun c => if c.toNat < 128 then [c.toLower] else u.lower c

/-- The characters at which `str.splitlines` ends a line. -/
def isLineBreak (c : Char) : Bool :=
  (10 ≤ c.toNat && c.toNat ≤ 13) || (0x1c ≤ c.toNat && c.toNat ≤ 0x1e) || c.toNat == 0x85 ||
    c.toNat == 0x2028 || c.toNat == 0x2029

/-- `str.isspace` of a character. -/
def isSpace (c : Char) : Bool :=
  isLineBreak c || c.toNat == 9 || c.toNat == 0x1f || c.toNat == 0x20 || c.toNat == 0xa0 ||
    c.toNat == 0x1680 || (0x2000 ≤ c.toNat && c.toNat ≤ 0x200a) || c.toNat == 0x202f ||
    c.toNat == 0x205f || c.toNat == 0x3000

/-- `str.strip` of the characters with `p`. -/
def stripBy (p : Char → Bool) (s : Text) : Text := (s.dropWhile p).rdropWhile p

/-- `str.strip`. -/
def strip (s : Text) : Text := stripBy isSpace s

/-- The loop of `str.splitlines`, with the line so far; a carriage return and a line feed are one
break. -/
def splitlinesFrom : Text → Text → List Text
  | line, [] => if line = [] then [] else [line]
  | line, '\r' :: '\n' :: rest => line :: splitlinesFrom [] rest
  | line, c :: rest =>
    if isLineBreak c then line :: splitlinesFrom [] rest else splitlinesFrom (line ++ [c]) rest

/-- `str.splitlines`. -/
def splitlines (s : Text) : List Text := splitlinesFrom [] s

/-- One round of the loop of `parse_symbols_from_kconfig`, with the last symbol. -/
def symbolLine (st : Option Text × Dict) (raw : Text) : Option Text × Dict :=
  let line := strip raw
  if text "config " <+: line then
    let name := strip (line.drop (text "config ").length)
    (some name, assign name (text "bool") st.2)
  else
    match st.1 with
    | none => st
    | some last =>
      if text "bool" <+: line ∨ text "tristate" <+: line then
        -- the first word of the line
        (some last, assign last (line.takeWhile fun c => !isSpace c) st.2)
      else st

def parseSymbolsFromKconfig (kconfig : Text) : Dict :=
  ((splitlines kconfig).foldl symbolLine (none, [])).2

/-- One round of the loop of `parse_config`. -/
def configLine (values : Dict) (raw : Text) : Dict :=
  let line := strip raw
  if line = [] then values
  else if text "# CONFIG_" <+: line ∧ text " is not set" <:+ line then
    assign ((line.drop (text "# CONFIG_").length).rdrop (text " is not set").length) (text "n")
      values
  else if text "CONFIG_" <+: line ∧ '=' ∈ line then
    let name := line.takeWhile (· ≠ '=')
    let value := (line.dropWhile (· ≠ '=')).drop 1
    assign (name.drop (text "CONFIG_").length) (stripBy (· = '"') (strip value)) values
  else values

/-- `parse_config`; there may be no file. -/
def parseConfig : Option Text → Dict
  | none => []
  | some content => (splitlines content).foldl configLine []

/-- `dict.get`. -/
def Dict.get (values : Dict) (name default : Text) : Text := (lookup name values).getD default

def sorted (symbols : Dict) : List Text :=
  (symbols.map Prod.fst).insertionSort (· ≤ ·)

section Outputs

variable (u : Casing)

/-- A line of `.config`. -/
def configText (values : Dict) (name : Text) : Text :=
  let value := u.lowerText (values.get name (text "n"))
  if value = text "y" ∨ value = text "m" then text "CONFIG_" ++ name ++ text "=" ++ value
  else text "# CONFIG_" ++ name ++ text " is not set"

def writeConfig (values symbols : Dict) : Text :=
  Lines.unlines '\n' <|
    text "# Auto-generated by scripts/kconfig_sync.py" :: [] ::
      (sorted symbols).map (configText u values)

/-- `dict.setdefault`. -/
def setdefault (values : Dict) (name value : Text) : Dict :=
  if (lookup name values).isSome then values else assign name value values

def aliases : Dict := [(text "EXTERNAL_PSF", text "EXTERNAL_TTY_FONT")]

/-- The characters that a macro keeps of a symbol. -/
def isMacroChar (c : Char) : Bool := ('A' ≤ c && c ≤ 'Z') || ('0' ≤ c && c ≤ '9')

/-- `re.sub` of the runs of other characters, inside such a run or not. -/
def subRuns : Bool → Text → Text
  | _, [] => []
  | inside, c :: rest =>
    if isMacroChar c then c :: subRuns false rest
    else if inside then subRuns true rest
    else '_' :: subRuns true rest

def macroForSymbol (symbol : Text) : Text :=
  let tail := aliases.get symbol symbol
  text "CLKS_CFG_" ++ stripBy (· = '_') (subRuns false (u.upperText tail))

def enabled (value : Text) : Bool :=
  decide (u.lowerText value = text "y" ∨ u.lowerText value = text "m")

def enabledText (on : Bool) : Text := if on then text "1" else text "0"

/-- The text of a variable that is true or false. -/
def boolText (on : Bool) : Text := if on then text "true" else text "false"

/-- The text of the variable of a symbol. -/
def bdtText (kind value : Text) : Text :=
  if kind = text "tristate" then
    if value = text "y" ∨ value = text "m" then u.upperText value else text "N"
  else boolText (enabled u value)

def legacy (sym : Text) : Text := text "CLEONOS_CLKS_ENABLE_" ++ sym

/-- The variables of a symbol. -/
def bdtOf (symbols values : Dict) (sym : Text) : Dict :=
  let value := u.lowerText (values.get sym (text "n"))
  let kind := symbols.get sym []
  (legacy sym, bdtText u kind value) ::
    if kind = text "tristate" then
      [(legacy sym ++ text "_IS_ENABLED", boolText (enabled u value))]
    else []

/-- `bdt_lines` behind the comments, each line as a variable and its text. -/
def bdt (symbols values : Dict) : Dict :=
  (text "CLEONOS_MENUCONFIG_CLKS_LOADED", text "true") ::
    (sorted symbols).flatMap (bdtOf u symbols values)

/-- A line of the header. -/
inductive Directive
  | ifndef (name : Text)
  | define (name body : Text)
  | endif
  deriving DecidableEq, Repr

/-- A macro that is defined unless it is already. -/
def guarded (name body : Text) : List Directive := [.ifndef name, .define name body, .endif]

def headerOf (values : Dict) (sym : Text) : Text × Text :=
  (macroForSymbol u sym, enabledText (enabled u (u.lowerText (values.get sym (text "n")))))

/-- The macros of the aliases. -/
def aliasMacros (symbols : Dict) : List (Text × Text) :=
  let exported := (sorted symbols).map (macroForSymbol u)
  aliases.filterMap fun p =>
    let old := text "CLKS_CFG_" ++ p.1
    if p.1 ∈ symbols.map Prod.fst ∧ old ∉ exported then some (old, text "CLKS_CFG_" ++ p.2)
    else none

/-- The macros that are defined in their turn. -/
def macros (symbols values : Dict) : List (Text × Text) :=
  (text "CLKS_ARCH_X86_64", text "1") ::
    ((sorted symbols).map (headerOf u values) ++ aliasMacros u symbols)

/-- `header_lines` behind the comment. -/
def header (symbols values : Dict) : List Directive :=
  .ifndef (text "BDT_GENERATED_CLKS_CONFIG_H") ::
    .define (text "BDT_GENERATED_CLKS_CONFIG_H") [] ::
      ((macros u symbols values).flatMap (fun p => guarded p.1 p.2) ++ [.endif])

end Outputs

/-- The C preprocessor: the macros that are defined, behind so many conditions that skip. -/
def preprocess : List Directive → ℕ → Dict → Dict
  | [], _, defined => defined
  | .ifndef name :: rest, 0, defined =>
    preprocess rest (if (lookup name defined).isSome then 1 else 0) defined
  | .define name body :: rest, 0, defined => preprocess rest 0 (assign name body defined)
  | .endif :: rest, 0, defined => preprocess rest 0 defined
  | .ifndef _ :: rest, skip + 1, defined => preprocess rest (skip + 2) defined
  | .define _ _ :: rest, skip + 1, defined => preprocess rest (skip + 1) defined
  | .endif :: rest, skip + 1, defined => preprocess rest skip defined

/-- What a macro is replaced with, and then the replacement if it is a macro itself. -/
def expand (defined : Dict) (name : Text) : Option Text :=
  (lookup name defined).map fun body => (lookup body defined).getD body

section Sync

variable (u : Casing) (kconfig : Text)

/-- `.config` is written, and exported: its text, the variables and the header. -/
def sync (values : Dict) : Text × Dict × List Directive :=
  let symbols := parseSymbolsFromKconfig kconfig
  let config := writeConfig u values symbols
  let read := parseConfig (some config)
  (config, bdt u symbols read, header u symbols read)

/-- `olddefconfig` without a front end, and the export. -/
def olddefconfig (config : Option Text) : Text × Dict × List Directive :=
  sync u kconfig <|
    ((parseSymbolsFromKconfig kconfig).map Prod.fst).foldl
      (fun values sym => setdefault values sym (text "n")) (parseConfig config)

end Sync

end Cleonos.Kconfig
