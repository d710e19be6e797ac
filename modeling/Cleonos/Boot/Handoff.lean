import Cleonos.Boot.Loader
import Cleonos.Lib.Prog

/-!
# The hand-off to the kernel

`efi_main` of the boot loader from the memory map on, and the drawing that it does in between.
-/

namespace Cleonos.Boot

/-- The calls of the console; a text is the string that it stands for. -/
inductive ConsoleCall
  | outputString (text : String)
  | setAttribute (attr : ℕ)
  | clearScreen
  | setCursorPosition (col row : ℕ)
  deriving DecidableEq, Repr

/-- What `GetMemoryMap` gives, with the bytes of the buffer behind it. -/
structure MemoryMap where
  size : UInt64
  key : UInt64
  descSize : UInt64
  buffer : ℕ → UInt8

/-- The services of the firmware; `other` are those that only the code before the hand-off
calls. -/
inductive Service
  | console (call : ConsoleCall)
  | allocatePool (size : ℕ)
  | getMemoryMap (size : ℕ)
  | other (n : ℕ)

/-- The answers; none where the status is not `EFI_SUCCESS`. -/
@[reducible] def Service.Answer : Service → Type
  | .console _ => Unit
  | .allocatePool _ => Option UInt64
  | .getMemoryMap _ => Option MemoryMap
  | .other _ => ℕ

/-- The pointers of the system table and of its console that are not null. -/
structure SystemTable where
  conOut : Bool
  setAttribute : Bool
  clearScreen : Bool
  setCursorPosition : Bool

/-- A service that is called, or a look at the system table. -/
inductive Access
  | service (s : Service)
  | systemTable

@[reducible] def Access.Answer : Access → Type
  | .service s => s.Answer
  | .systemTable => SystemTable

/-- `clboot_memmap_entry`. -/
structure MemmapEntry where
  base : UInt64
  length : UInt64
  type : UInt64
  deriving DecidableEq, Repr

inductive Call
  | access (a : Access)
  | exitBootServices (mapKey : UInt64)
  | enterKernel (memmap : List MemmapEntry)

/-- `ExitBootServices` succeeds or not. -/
@[reducible] def Call.Answer : Call → Type
  | .access a => a.Answer
  | .exitBootServices _ => Bool
  | .enterKernel _ => Unit

/-- A part of the boot loader. -/
abbrev BootProg (α : Type) : Type := Prog Call Call.Answer α

/-- A call that changes the firmware; a look does not. -/
def Call.isCall : Call → Bool
  | .access .systemTable => false
  | _ => true

/-- The firmware may answer each call in any way that depends on the calls before, and so may
what its system table holds. -/
structure Firmware where
  answer : List Call → (s : Service) → s.Answer
  exits : List Call → UInt64 → Bool
  table : List Call → SystemTable

def Firmware.env (fw : Firmware) : Prog.Env Call Call.Answer
  | h, .access (.service s) => fw.answer (h.filter Call.isCall) s
  | h, .access .systemTable => fw.table (h.filter Call.isCall)
  | h, .exitBootServices key => fw.exits (h.filter Call.isCall) key
  | _, .enterKernel _ => ()

def service (s : Service) : BootProg s.Answer := Prog.ask (Call.access (.service s))
def systemTable : BootProg SystemTable := Prog.ask (Call.access .systemTable)
def exitBootServices (key : UInt64) : BootProg Bool := Prog.ask (Call.exitBootServices key)

/-- `clboot_gfx.ready` and `clboot_gfx_console.active`. -/
structure Display where
  ready : Bool
  active : Bool

/-- `clboot_gfx_console_active`. -/
def Display.consoleActive (display : Display) : Bool := display.ready && display.active

/-- What is called of the console; the console of the graphics mode only draws. -/
abbrev Drawing : Type := List ConsoleCall

/-- `clboot_print`. -/
def print (display : Display) (text : String) : Drawing :=
  if display.consoleActive then [] else [.outputString text]

/-- `clboot_set_attr`. -/
def setAttr (display : Display) (attr : ℕ) : Drawing :=
  if display.consoleActive then [] else [.setAttribute attr]

/-- `clboot_clear_screen`. -/
def clearScreen (display : Display) : Drawing :=
  if display.consoleActive then [] else [.clearScreen]

/-- `clboot_set_cursor`. -/
def setCursor (col row : ℕ) : Drawing := [.setCursorPosition col row]

/-- The test in front of a call of the console: its pointers are not null. -/
def SystemTable.has (table : SystemTable) : ConsoleCall → Bool
  | .outputString _ => table.conOut
  | .setAttribute _ => table.conOut && table.setAttribute
  | .clearScreen => table.conOut && table.clearScreen
  | .setCursorPosition _ _ => table.conOut && table.setCursorPosition

/-- The calls are made, each behind its test. -/
def perform : Drawing → BootProg Unit
  | [] => pure ()
  | call :: rest => do
      let table ← systemTable
      if table.has call then do
        let _ ← service (.console call)
        perform rest
      else perform rest

/-- `CLBOOT_TEXT_ATTR_…`. -/
def attrNormal : ℕ := 0x07
def attrTitle : ℕ := 0x0F
def attrAccent : ℕ := 0x0B
def attrError : ℕ := 0x0C
def attrDim : ℕ := 0x07
def attrOk : ℕ := 0x0A

/-- `clboot_print_repeat`. -/
def printRepeat (display : Display) (text : String) (n : ℕ) : Drawing :=
  (List.replicate n (print display text)).flatten

/-- `clboot_print_padded`. -/
def printPadded (display : Display) (text : String) (width : ℕ) : Drawing :=
  print display text ++ printRepeat display " " (width - text.length)

/-- A square of the progress bar. -/
def drawSquare (display : Display) (filled i : ℕ) : Drawing :=
  if i < filled then setAttr display attrOk ++ print display "#"
  else setAttr display attrDim ++ print display "-"

/-- `clboot_draw_progress` in text mode. -/
def textProgress (display : Display) (percent : ℕ) (label : String) : Drawing :=
  setAttr display attrNormal ++ print display "[" ++
    ((List.range 25).map (drawSquare display (min (percent / 4) 25))).flatten ++
    setAttr display attrNormal ++ print display "] " ++
    (if percent < 100 then print display " " else []) ++
    (if percent < 10 then print display " " else []) ++
    print display (toString percent) ++ print display "%" ++ print display "  " ++
    print display label ++ print display "\r\n"

/-- `clboot_draw_progress`; in graphics mode it draws into the framebuffer and ends the console
there. -/
def drawProgress (display : Display) (percent : ℕ) (label : String) : BootProg Display :=
  if display.ready then pure { display with active := false }
  else do
    perform (textProgress display percent label)
    return display

/-- `clboot_draw_box_top` and `clboot_draw_box_bottom`. -/
def drawBoxEdge (display : Display) (width : ℕ) : Drawing :=
  setAttr display attrAccent ++ print display "  +" ++ printRepeat display "=" width ++
    print display "+\r\n" ++ setAttr display attrNormal

/-- `clboot_draw_box_line`. -/
def drawBoxLine (display : Display) (left right : String) (width : ℕ) : Drawing :=
  let payloadWidth := if width > 2 then width - 2 else width
  let fits : Bool := right.length + 2 < payloadWidth
  setAttr display attrAccent ++ print display "  | " ++ setAttr display attrNormal ++
    printPadded display left (if fits then payloadWidth - right.length - 2 else payloadWidth) ++
    (if fits && right.length > 0 then
      setAttr display attrDim ++ print display "  " ++ print display right ++
        setAttr display attrNormal
    else []) ++
    setAttr display attrAccent ++ print display " |\r\n" ++ setAttr display attrNormal

def drawBoxTitle (display : Display) (attr : ℕ) (title : String) : Drawing :=
  setAttr display attrAccent ++ print display "  | " ++ setAttr display attr ++
    printPadded display title 74 ++ setAttr display attrAccent ++ print display " |\r\n"

/-- `clboot_draw_brand_header`. -/
def drawBrandHeader (display : Display) (mode : String) : Drawing :=
  clearScreen display ++ setCursor 0 0 ++ print display "\r\n" ++ drawBoxEdge display 76 ++
    drawBoxTitle display attrTitle "CLeonOS CLBoot" ++
    drawBoxLine display "independent UEFI loader for CLKS" "x86_64 ISO" 76 ++
    drawBoxLine display "protocol v2 / bootlog / graphical handoff" "UEFI text UI" 76 ++
    drawBoxEdge display 76 ++ print display "  " ++ setAttr display attrOk ++
    print display "> " ++ setAttr display attrNormal ++ print display mode ++
    print display "\r\n" ++ print display "\r\n"

/-- `clboot_draw_footer`. -/
def drawFooter (display : Display) (text : String) : Drawing :=
  print display "\r\n" ++ setAttr display attrDim ++ print display "  " ++ print display text ++
    print display "\r\n" ++ setAttr display attrNormal

/-- `clboot_halt` in text mode. -/
def textHalt (display : Display) (message : String) : Drawing :=
  drawBrandHeader display "Boot halted" ++ drawBoxEdge display 76 ++
    drawBoxTitle display attrError "ERROR" ++ drawBoxLine display message "" 76 ++
    drawBoxLine display "Check the CLBoot log above or rebuild with verbose boot enabled." "" 76 ++
    drawBoxEdge display 76 ++
    drawFooter display "The machine is halted. Power off or reset to retry."

/-- `clboot_halt`: the machine stops once the message is drawn. -/
def halt (display : Display) (message : String) : BootProg Unit :=
  if display.ready then pure () else perform (textHalt display message)

/-- `clboot_memmap_type`. -/
def memmapType (efiType : UInt32) : UInt64 :=
  if efiType = 7 then 0
  else if efiType = 9 then 2
  else if efiType = 10 then 3
  else if efiType = 8 then 4
  else if efiType = 1 ∨ efiType = 2 ∨ efiType = 3 ∨ efiType = 4 then 5
  else 1

/-- `CLBOOT_MEMMAP_MAX_ENTRIES`, and the size of the buffer for the memory map. -/
def memmapMaxEntries : ℕ := 512
def mmapSize : ℕ := 128 * 1024

namespace MemoryMap

def bytes (map : MemoryMap) (offset n : ℕ) : List UInt8 :=
  (List.range n).map fun i => map.buffer (offset + i)

/-- `mmap_size / desc_size`. -/
def count (map : MemoryMap) : ℕ := (map.size / map.descSize).toNat

/-- The entry for the descriptor number `i`. -/
def entry (map : MemoryMap) (i : ℕ) : MemmapEntry :=
  let desc := i * map.descSize.toNat
  { base := UInt64.ofNat (leValue (map.bytes (desc + 8) 8))
    length := UInt64.ofNat (leValue (map.bytes (desc + 24) 8)) <<< 12
    type := memmapType (UInt32.ofNat (leValue (map.bytes desc 4))) }

/-- The loop that fills `cl_mmap`. -/
def entries (map : MemoryMap) : List MemmapEntry := (List.range map.count).map map.entry

end MemoryMap

/-- The end of `efi_main`. -/
def enterKernel (display : Display) (memmap : List MemmapEntry) : BootProg Unit := do
  let _ ← drawProgress display 100 "entering kernel"
  Prog.ask (Call.enterKernel memmap)

/-- `efi_main` once `ExitBootServices` was refused. -/
def retryExit (display : Display) : BootProg Unit := do
  match ← service (.getMemoryMap mmapSize) with
  | none => halt display "CLBoot: GetMemoryMap retry failed"
  | some map =>
    -- a division by zero faults
    if map.descSize = 0 then pure ()
    else if map.count > memmapMaxEntries then halt display "CLBoot: memory map retry too large"
    else
      match ← exitBootServices map.key with
      | true => enterKernel display map.entries
      | false => halt display "CLBoot: ExitBootServices failed"

/-- `efi_main` from the first `GetMemoryMap` on. -/
def firstExit (display : Display) : BootProg Unit := do
  match ← service (.getMemoryMap mmapSize) with
  | none => halt display "CLBoot: GetMemoryMap failed"
  | some map =>
    if map.descSize = 0 then pure ()
    else if map.count > memmapMaxEntries then halt display "CLBoot: memory map too large"
    else do
      let display ← drawProgress display 94 "exiting boot services"
      match ← exitBootServices map.key with
      | true => enterKernel display map.entries
      | false => retryExit display

/-- `efi_main` from the memory map on. -/
def handOff (display : Display) : BootProg Unit := do
  let display ← drawProgress display 86 "collecting UEFI memory map"
  match ← service (.allocatePool mmapSize) with
  | none => halt display "CLBoot: memory map allocation failed"
  | some _ => firstExit display

/-- A program of services as a part of the boot loader. -/
def early {α : Type} : Prog Access Access.Answer α → BootProg α
  | .ret a => .ret a
  | .call a k => .call (.access a) fun r => early (k r)

/-- `efi_main`.  What it does up to the page tables calls services only; none where it halts,
otherwise the display as it is then. -/
def efiMain (prelude : Prog Access Access.Answer (Option Display)) : BootProg Unit := do
  match ← early prelude with
  | none => pure ()
  | some display => handOff display

end Cleonos.Boot
