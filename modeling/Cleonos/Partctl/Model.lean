import Cleonos.Libc.Stdlib

/-!
# partctl

`partctl_main.c`: the partition table in the first sector of a disk, edited by commands given as
text.
-/

namespace Cleonos.Partctl

open Buffer (store)
open Libc (isspace strtoul)

def mbrEntryOffset : ℕ := 446
def mbrEntrySize : ℕ := 16
def mbrEntryCount : ℕ := 4
def mbrSigOffset : ℕ := 510
def argMax : ℕ := 160

abbrev Sector : Type := ℕ → UInt8

/-- A disk, by its number of sectors and its first sector. -/
structure Disk where
  sectorCount : ℕ
  sector0 : Sector

/-- What the disk answers during one command. -/
structure Answers where
  presentToRead : Bool
  readSector : Bool
  presentToWrite : Bool
  writeSector : Bool
  deriving DecidableEq, Repr

/-- The reasons for which a command fails. -/
inductive PartctlError
  | diskNotPresent
  | readFailed
  | writeFailed
  | usage
  | unknownSubcommand
  | deleteUsage
  | setBootUsage
  | invalidIndex
  | invalidNumber
  | invalidBoot
  | zeroRange
  | tooWide
  | outOfDisk
  | overlap
  deriving DecidableEq, Repr

/-! ## Bytes of the sector -/

/-- `partctl_read_u32_le`. -/
def readU32Le (s : Sector) (k : ℕ) : ℕ :=
  (s k).toNat ||| (s (k + 1)).toNat <<< 8 ||| (s (k + 2)).toNat <<< 16 ||| (s (k + 3)).toNat <<< 24

/-- `partctl_write_u32_le`. -/
def writeU32Le (s : Sector) (k value : ℕ) : Sector :=
  store s k [UInt8.ofNat (value &&& 0xFF), UInt8.ofNat (value >>> 8 &&& 0xFF),
    UInt8.ofNat (value >>> 16 &&& 0xFF), UInt8.ofNat (value >>> 24 &&& 0xFF)]

/-- `partctl_mbr_ensure_signature`. -/
def mbrEnsureSignature (s : Sector) : Sector := store s mbrSigOffset [0x55, 0xAA]

/-- The offset of an entry, counted from 0. -/
def entryOffset (i : ℕ) : ℕ := mbrEntryOffset + i * mbrEntrySize

/-- `ush_zero` on an entry. -/
def zeroEntry (s : Sector) (i : ℕ) : Sector :=
  store s (entryOffset i) (List.replicate mbrEntrySize 0)

def entryBoot (s : Sector) (i : ℕ) : UInt8 := s (entryOffset i)
def entryStart (s : Sector) (i : ℕ) : ℕ := readU32Le s (entryOffset i + 8)
def entrySectors (s : Sector) (i : ℕ) : ℕ := readU32Le s (entryOffset i + 12)

/-- The loop that clears boot flags: those of the entries for which `cond` holds. -/
def clearBoots (cond : ℕ → Bool) (s : Sector) : Sector :=
  (List.range mbrEntryCount).foldl
    (fun s i => if cond i then store s (entryOffset i) [0x00] else s) s

/-- `partctl_check_overlap`; `true` when nothing overlaps. -/
def checkOverlap (s : Sector) (skip start sectors : ℕ) : Bool :=
  (List.range mbrEntryCount).all fun i =>
    decide (i = skip) || decide (entrySectors s i = 0) ||
      decide ((start + sectors) % 2 ^ 64 ≤ entryStart s i ∨
        start ≥ entryStart s i + entrySectors s i)

/-- `partctl_tokenize`, for at most `n` tokens. -/
def tokenize : ℕ → List UInt8 → List (List UInt8)
  | 0, _ => []
  | n + 1, arg =>
    let arg := arg.dropWhile isspace
    if arg = [] then []
    else (arg.takeWhile (! isspace ·)).take (argMax - 1) ::
      tokenize n (arg.dropWhile (! isspace ·))

/-- `partctl_parse_u64`; `none` for a text that is not a number. -/
def parseU64 (text : List UInt8) : Option ℕ :=
  if text = [] then none
  else match strtoul text with
    | some (value, []) => some value
    | _ => none

def parseIndex (text : List UInt8) : Option ℕ :=
  (parseU64 text).filter fun index => 1 ≤ index ∧ index ≤ mbrEntryCount

def parseFlag (text : List UInt8) : Option ℕ :=
  (parseU64 text).filter fun value => value = 0 ∨ value = 1

/-- The result of a command, and the disk it leaves. -/
abbrev Result : Type := Except PartctlError Unit × Disk

/-- `partctl_read_sector0`. -/
def readSector0 (a : Answers) (d : Disk) : Except PartctlError Sector :=
  if a.presentToRead = false then .error .diskNotPresent
  else if a.readSector = false then .error .readFailed
  else .ok d.sector0

/-- `partctl_write_sector0`. -/
def writeSector0 (a : Answers) (d : Disk) (s : Sector) : Result :=
  if a.presentToWrite = false then (.error .diskNotPresent, d)
  else if a.writeSector = false then (.error .writeFailed, d)
  else (.ok (), { d with sector0 := s })

/-- Read the sector, and write what the command makes of it. -/
def edit (a : Answers) (d : Disk) (f : Sector → Except PartctlError Sector) : Result :=
  match readSector0 a d with
  | .error e => (.error e, d)
  | .ok s =>
    match f s with
    | .error e => (.error e, d)
    | .ok s => writeSector0 a d (mbrEnsureSignature s)

/-- `partctl_cmd_list`. -/
def cmdList (a : Answers) (d : Disk) : Result :=
  match readSector0 a d with
  | .error e => (.error e, d)
  | .ok _ => (.ok (), d)

/-- `partctl_cmd_init_mbr`. -/
def cmdInitMbr (a : Answers) (d : Disk) : Result :=
  if a.presentToRead = false then (.error .diskNotPresent, d)
  else writeSector0 a d (mbrEnsureSignature fun _ => 0)

/-- `partctl_cmd_delete`. -/
def cmdDelete (a : Answers) (d : Disk) (indexText : List UInt8) : Result :=
  match parseIndex indexText with
  | none => (.error .deleteUsage, d)
  | some index => edit a d fun s => .ok (zeroEntry s (index - 1))

/-- `partctl_cmd_set_boot`. -/
def cmdSetBoot (a : Answers) (d : Disk) (indexText valueText : List UInt8) : Result :=
  match parseIndex indexText with
  | none => (.error .setBootUsage, d)
  | some index =>
    match parseFlag valueText with
    | none => (.error .setBootUsage, d)
    | some value => edit a d fun s =>
      let s := clearBoots (fun i => decide (value ≠ 0 ∧ i + 1 ≠ index)) s
      .ok (store s (entryOffset (index - 1)) [if value ≠ 0 then 0x80 else 0x00])

/-- The bytes that `partctl_cmd_create` writes. -/
def writeEntry (s : Sector) (i start sectors type boot : ℕ) : Sector :=
  let s := if boot ≠ 0 then clearBoots (fun _ => true) s else s
  let s := zeroEntry s i
  let s := store s (entryOffset i)
    [if boot ≠ 0 then 0x80 else 0x00, 0xFF, 0xFF, 0xFF, UInt8.ofNat type, 0xFF, 0xFF, 0xFF]
  let s := writeU32Le s (entryOffset i + 8) start
  writeU32Le s (entryOffset i + 12) sectors

/-- `partctl_cmd_create`. -/
def cmdCreate (a : Answers) (d : Disk) (indexText startText sectorsText typeText bootText : List UInt8) :
    Result :=
  match parseIndex indexText with
  | none => (.error .invalidIndex, d)
  | some index =>
    match parseU64 startText, parseU64 sectorsText, parseU64 typeText with
    | some start, some sectors, some type =>
      match if bootText ≠ [] then parseFlag bootText else some 0 with
      | none => (.error .invalidBoot, d)
      | some boot =>
        if start = 0 ∨ sectors = 0 then (.error .zeroRange, d)
        else if type > 0xFF ∨ start > 0xFFFFFFFF ∨ sectors > 0xFFFFFFFF then
          (.error .tooWide, d)
        else if start ≥ d.sectorCount ∨ sectors > d.sectorCount ∨
            (start + sectors) % 2 ^ 64 > d.sectorCount ∨ (start + sectors) % 2 ^ 64 < start then
          (.error .outOfDisk, d)
        else edit a d fun s =>
          if checkOverlap s (index - 1) start sectors = false then .error .overlap
          else .ok (writeEntry s (index - 1) start sectors type boot)
    | _, _, _ => (.error .invalidNumber, d)

def partctlRun (a : Answers) (d : Disk) (arg : List UInt8) : Result :=
  match tokenize 8 (cstr arg) with
  | [] => (.ok (), d)
  | cmd :: args =>
    if cmd = lit "help" then (.ok (), d)
    else if cmd = lit "list" then cmdList a d
    else if cmd = lit "init-mbr" then cmdInitMbr a d
    else if cmd = lit "delete" then
      match args with
      | [index] => cmdDelete a d index
      | _ => (.error .usage, d)
    else if cmd = lit "set-boot" then
      match args with
      | [index, value] => cmdSetBoot a d index value
      | _ => (.error .usage, d)
    else if cmd = lit "create" then
      match args with
      | [index, start, sectors, type] => cmdCreate a d index start sectors type []
      | [index, start, sectors, type, boot] => cmdCreate a d index start sectors type boot
      | _ => (.error .usage, d)
    else (.error .unknownSubcommand, d)

end Cleonos.Partctl
