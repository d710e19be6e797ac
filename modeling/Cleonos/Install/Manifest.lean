import Cleonos.Libc.Stdlib
import Cleonos.Sha256.Model

/-!
# The install manifest

`install2disk_main.c` keeps a manifest of the files it installs: one line `path|size|hash` for
each.
-/

namespace Cleonos.Install

open List Option

section

open Libc (strtoull)
open Stdio (u64ToBase)
open Sha256 (FdRead installSha256FileHex)

def pathMax : ℕ := 192
def sha256HexLen : ℕ := 64
def manifestMaxBytes : ℕ := 32768
def updateMaxEntries : ℕ := 192

/-- `sizeof(line)` in `install_manifest_append_entry`. -/
def lineMax : ℕ := pathMax + sha256HexLen + 64

def mountPath : List UInt8 := lit "/temp/disk"
def manifestSource : List UInt8 := lit "/system/databases/install_manifest.db"

def slash : UInt8 := 47
def bar : UInt8 := 124
def newline : UInt8 := 10

/-! ## Paths -/

/-- `install_path_is_under`; the comparison of `path` ends with its last byte. -/
def pathIsUnder (path pfx : List UInt8) : Bool :=
  decide (path.take pfx.length = pfx) &&
    (decide (path.length ≤ pfx.length) || path.getD pfx.length 0 == slash)

/-- `install_path_join` into a buffer of `size` bytes. -/
def pathJoin (size : ℕ) (base name : List UInt8) : Option (List UInt8) :=
  if base.length + (if base.length > 1 then 1 else 0) + name.length + 1 > size then none
  else some (base ++ (if base.length > 1 then [slash] else []) ++ name)

/-- `install_root_join` into a buffer of `size` bytes. -/
def rootJoin (size : ℕ) (root logical : List UInt8) : Option (List UInt8) :=
  if logical.headD 0 ≠ slash then none
  else
    let out := if root = [slash] then logical else root ++ logical
    if out.length < size then some out else none

/-- `install_manifest_path_included`. -/
def manifestPathIncluded (path : List UInt8) : Bool :=
  if path.headD 0 ≠ slash then false
  else if path = manifestSource ∨ path = lit "/system/databases/install_manifest.new" ∨
      path = lit "/system/databases/install_manifest.prev" ∨
      path = lit "/system/databases/update_state.db" ∨ path = lit "/system/databases/users.db" ∨
      path = lit "/kernel.elf" ∨ path = lit "/limine.conf" ∨ path = lit "/limine-bios.sys" ∨
      pathIsUnder path (lit "/limine") then false
  else if pathIsUnder path (lit "/system/databases/pkg") ∨ pathIsUnder path (lit "/home") ∨
      pathIsUnder path (lit "/temp") ∨ pathIsUnder path (lit "/dev") ∨
      pathIsUnder path (lit "/proc") then false
  else
    pathIsUnder path (lit "/EFI") || pathIsUnder path (lit "/boot") ||
      pathIsUnder path (lit "/system") || pathIsUnder path (lit "/shell") ||
      pathIsUnder path (lit "/system/drivers") || pathIsUnder path (lit "/efi")

/-- `install_update_shell_path_included`. -/
def updateShellPathIncluded (path : List UInt8) : Bool :=
  if path.headD 0 ≠ slash then false
  else if path = lit "/shell/apps/install2disk.elf" then false
  else if manifestPathIncluded path = false then false
  else
    pathIsUnder path (lit "/shell") || pathIsUnder path (lit "/system/drivers") ||
      pathIsUnder path (lit "/system")

/-- The functions given as `install_manifest_include_fn`. -/
inductive Include
  | manifest
  | updateShell
  deriving DecidableEq, Repr

def Include.fn : Include → List UInt8 → Bool
  | .manifest => manifestPathIncluded
  | .updateShell => updateShellPathIncluded

/-- `install_manifest_entry`. -/
structure ManifestEntry where
  path : List UInt8
  size : UInt64
  hash : List UInt8
  deriving DecidableEq, Repr

/-- What the file system answers about a file: its size, `-1` where it has none, whether
it opens, and what the reads of it deliver. -/
structure FileAnswers where
  size : UInt64
  opens : Bool
  reads : List FdRead

/-- What an append answers, and the number of bytes that it wrote where it fails. -/
structure AppendAnswer where
  answer : UInt64
  wrote : ℕ
  deriving DecidableEq, Repr

/-- `install_manifest_writer`, with the manifest it has written. -/
structure Writer where
  files : ℕ := 0
  fileBytes : ℕ := 0
  manifestBytes : ℕ := 0
  manifest : List UInt8 := []
  deriving DecidableEq, Repr

def entryLine (path : List UInt8) (size : UInt64) (hash : List UInt8) : List UInt8 :=
  path ++ [bar] ++ u64ToBase size.toNat 10 false 96 ++ [bar] ++ hash ++ [newline]

section Write

variable (data : ℕ → UInt8) (io : ℕ → AppendAnswer)

/-- `install_manifest_append_entry`, with the answers about the file at the real path. -/
def manifestAppendEntry (file : FileAnswers) (logical : List UInt8) (w : Writer) :
    Bool × Writer :=
  if file.size = -1 then (false, w)
  else
    match installSha256FileHex data file.opens file.reads with
    | none => (false, w)
    | some hash =>
      let line := entryLine logical file.size hash
      if line.length ≥ lineMax then (false, w)
      else if w.manifestBytes + line.length > manifestMaxBytes then (false, w)
      else if (io w.files).answer.toNat ≠ line.length then
        (false, { w with manifest := w.manifest ++ line.take (io w.files).wrote })
      else
        (true, ⟨w.files + 1, (w.fileBytes + file.size.toNat) % 2 ^ 64,
          w.manifestBytes + line.length, w.manifest ++ line⟩)

mutual

/-- What the file system has at a path: a file, a directory with the entries that it
lists, one that cannot be listed, or anything else. -/
inductive Node
  | file (answers : FileAnswers)
  | dir (entries : Listing)
  | unlistable
  | other

/-- The entries of a directory; the name is empty where it cannot be had. -/
inductive Listing
  | done
  | entry (name : List UInt8) (node : Node) (rest : Listing)

end

/-- The trees that the scan leaves out. -/
def scanSkips (logical : List UInt8) : Bool :=
  pathIsUnder logical (lit "/proc") || pathIsUnder logical (lit "/dev") ||
    pathIsUnder logical (lit "/temp") || pathIsUnder logical (lit "/home") ||
    pathIsUnder logical (lit "/system/databases/pkg")

/-- A name that stands for no entry of its own. -/
def isDotName (name : List UInt8) : Bool :=
  decide (name = [] ∨ name = lit "." ∨ name = lit "..")

mutual

/-- `install_manifest_scan_tree_filtered`. -/
def scanTreeFiltered (inc : Include) : Node → List UInt8 → List UInt8 → ℕ → Writer →
    Bool × Writer
  | node, real, logical, depth, w =>
    if depth > 32 then (false, w)
    else if scanSkips logical then (true, w)
    else
      match node with
      | .file answers =>
        if inc.fn logical = false then (true, w)
        else manifestAppendEntry data io answers logical w
      | .dir entries => scanChildren inc entries real logical depth w
      | .unlistable => (false, w)
      | .other => (true, w)

/-- The loop over the children of a directory. -/
def scanChildren (inc : Include) : Listing → List UInt8 → List UInt8 → ℕ → Writer →
    Bool × Writer
  | .done, _, _, _, w => (true, w)
  | .entry name node rest, real, logical, depth, w =>
    if isDotName name then scanChildren inc rest real logical depth w
    else
      match pathJoin pathMax real name, pathJoin pathMax logical name with
      | some childReal, some childLogical =>
        let r := scanTreeFiltered inc node childReal childLogical (depth + 1) w
        if r.1 = false then (false, r.2)
        else scanChildren inc rest real logical depth r.2
      | _, _ => (false, w)

end

/-- What the calls on the manifest file answer before the first line: its type, whether it
is removed, and whether it is created. -/
structure FileCalls where
  type : UInt64
  remove : Bool
  write : Bool
  deriving DecidableEq, Repr

/-- The old manifest is removed and an empty one created: whether that worked, and the
file it leaves. -/
def recreate (c : FileCalls) (file : Option (List UInt8)) : Bool × Option (List UInt8) :=
  if c.type = 1 ∧ c.remove = false then (false, file)
  else
    let file := if c.type = 1 then none else file
    if c.write = false then (false, file) else (true, some [])

/-- `install_generate_manifest_to`, with the type of the system directory under the root
and whether it can be made; the manifest file it leaves comes with the result. -/
def generateManifestTo (root manifestPath : List UInt8) (inc : Include) (systemType : UInt64)
    (systemMade : Bool) (c : FileCalls) (tree : Node) (file : Option (List UInt8)) :
    Bool × Option (List UInt8) :=
  if root.headD 0 ≠ slash ∨ manifestPath.headD 0 ≠ slash then (false, file)
  else if rootJoin pathMax root (lit "/system") = none then (false, file)
  else if root ≠ [slash] ∧ systemType ≠ 2 ∧ systemMade = false then (false, file)
  else
    let created := recreate c file
    if created.1 = false then created
    else
      let r := scanTreeFiltered data io inc tree root [slash] 0 {}
      if r.1 = false then (false, some r.2.manifest)
      else (decide (r.2.files ≠ 0), some r.2.manifest)

/-- The loop over the old entries, each with the type of its target and the answers about
it. -/
def refreshOld : List (ManifestEntry × UInt64 × FileAnswers) → Writer → Bool × Writer
  | [], w => (true, w)
  | (entry, type, answers) :: entries, w =>
    if updateShellPathIncluded entry.path ∨ manifestPathIncluded entry.path = false then
      refreshOld entries w
    else if rootJoin pathMax mountPath entry.path = none then (false, w)
    else if type ≠ 1 then refreshOld entries w
    else
      let r := manifestAppendEntry data io answers entry.path w
      if r.1 = false then r else refreshOld entries r.2

/-- The loop over the new entries. -/
def refreshNew : List (ManifestEntry × FileAnswers) → Writer → Bool × Writer
  | [], w => (true, w)
  | (entry, answers) :: entries, w =>
    if rootJoin pathMax mountPath entry.path = none then (false, w)
    else
      let r := manifestAppendEntry data io answers entry.path w
      if r.1 = false then r else refreshNew entries r.2

/-- `install_update_shell_refresh_manifest`; the manifest file it leaves comes with the
result. -/
def refreshManifest (c : FileCalls) (old : List (ManifestEntry × UInt64 × FileAnswers))
    (new : List (ManifestEntry × FileAnswers)) (file : Option (List UInt8)) :
    Bool × Option (List UInt8) :=
  let created := recreate c file
  if created.1 = false then created
  else
    let r := refreshOld data io old {}
    if r.1 = false then (false, some r.2.manifest)
    else
      let r := refreshNew data io new r.2
      if r.1 = false then (false, some r.2.manifest)
      else (decide (r.2.files ≠ 0), some r.2.manifest)

end Write

/-- `install_manifest_sha_hex_valid`. -/
def manifestShaHexValid (hash : List UInt8) : Bool :=
  decide (hash.length = sha256HexLen) &&
    hash.all fun c => (48 ≤ c && c ≤ 57) || (97 ≤ c && c ≤ 102) || (65 ≤ c && c ≤ 70)

/-- `strchr` for the separator of fields: the field in front of it, and what is behind. -/
def splitField (text : List UInt8) : Option (List UInt8 × List UInt8) :=
  if bar ∈ text then
    some (text.takeWhile (· ≠ bar), (text.dropWhile (· ≠ bar)).drop 1)
  else none

/-- `install_manifest_parse_line`. -/
def manifestParseLine (line : List UInt8) : Option ManifestEntry := do
  if line = [] then none
  let (path, rest) ← splitField line
  let (sizeField, hashField) ← splitField rest
  if path.headD 0 ≠ slash ∨ path.length ≥ pathMax ∨ manifestShaHexValid hashField = false then none
  let (value, rest) ← strtoull sizeField 10
  if rest ≠ [] then none
  some ⟨path, UInt64.ofNat value, hashField⟩

/-- What the calls that read the manifest answer: its size, `-1` where it is missing,
whether a buffer is had, whether it opens, and what the reads deliver. -/
structure LoadAnswers where
  size : UInt64
  buffer : Bool
  opens : Bool
  reads : List FdRead

/-- The loop that reads as many bytes as are left; it also fails when the answers end. -/
def loadReads : ℕ → List FdRead → Option (List UInt8)
  | 0, _ => some []
  | _ + 1, [] => none
  | _ + 1, none :: _ => none
  | _ + 1, some [] :: _ => none
  | n + 1, some (b :: bs) :: reads =>
    (loadReads (n - bs.length) reads).map fun rest => b :: bs ++ rest

/-- What ends a line in the buffer. -/
def endsLine (c : UInt8) : Bool := c == newline || c == 0

/-- A carriage return at the end of a line is taken off. -/
def chomp (line : List UInt8) : List UInt8 :=
  if line.getLast? = some 13 then line.dropLast else line

/-- The lines of the buffer, behind the entries so far. -/
def loadLines (maxEntries : ℕ) :
    List (List UInt8) → List ManifestEntry → Option (List ManifestEntry)
  | [], entries => some entries
  | line :: lines, entries =>
    if chomp line = [] then loadLines maxEntries lines entries
    else if entries.length ≥ maxEntries then none
    else
      match manifestParseLine (chomp line) with
      | none => none
      | some entry => loadLines maxEntries lines (entries ++ [entry])

/-- `install_manifest_load`; the entries, or none for `-1`. -/
def manifestLoad (a : LoadAnswers) (maxEntries : ℕ) (missingOk : Bool) :
    Option (List ManifestEntry) :=
  if maxEntries = 0 then none
  else if a.size = -1 then (if missingOk then some [] else none)
  else if a.size.toNat > manifestMaxBytes then none
  else if a.buffer = false then none
  else if a.opens = false then none
  else (loadReads a.size.toNat a.reads).bind fun buffer =>
    loadLines maxEntries (buffer.splitOnP endsLine) []

end

/-! ## Verification reads a manifest as loading does -/

open Libc (strtoull)
open Sha256 (installSha256FileHex)

/-- What the file system answers about a path: its type, and what it answers about a file. -/
structure Target extends FileAnswers where
  type : UInt64

/-- The fields of `install_verify_result` that the manifest bears on. -/
structure VerifyResult where
  rootPath : List UInt8
  manifestEntries : ℕ := 0
  filesChecked : ℕ := 0
  bytesChecked : UInt64 := 0
  missing : ℕ := 0
  mismatches : ℕ := 0
  corrupt : ℕ := 0
  deriving DecidableEq, Repr

/-- The parser of `install_verify_manifest_entry`, up to the line that counts the entry. -/
def verifyParseLine (line : List UInt8) : Option ManifestEntry := do
  let (path, rest) ← splitField line
  let (sizeField, hashField) ← splitField rest
  if path.headD 0 ≠ slash ∨ manifestShaHexValid hashField = false then none
  let (value, rest) ← strtoull sizeField 10
  if rest ≠ [] then none
  some ⟨path, UInt64.ofNat value, hashField⟩

section Verify

variable (data : ℕ → UInt8) (fs : List UInt8 → Target)

/-- `install_verify_manifest_entry`. -/
def verifyManifestEntry (line : List UInt8) (w : VerifyResult) : Bool × VerifyResult :=
  if line = [] then (true, w)
  else
    match verifyParseLine line with
    | none => (false, { w with corrupt := w.corrupt + 1 })
    | some entry =>
      let w := { w with manifestEntries := w.manifestEntries + 1 }
      match rootJoin pathMax w.rootPath entry.path with
      | none => (false, { w with corrupt := w.corrupt + 1 })
      | some real =>
        if (fs real).type ≠ 1 then (false, { w with missing := w.missing + 1 })
        else if (fs real).size ≠ entry.size then
          (false, { w with mismatches := w.mismatches + 1 })
        else
          match installSha256FileHex data (fs real).opens (fs real).reads with
          | none => (false, { w with corrupt := w.corrupt + 1 })
          | some actual =>
            if actual ≠ entry.hash then (false, { w with mismatches := w.mismatches + 1 })
            else
              (true, { w with
                filesChecked := w.filesChecked + 1
                bytesChecked := w.bytesChecked + (fs real).size })

/-- The loop of `install_verify_manifest` over the lines of the buffer. -/
def verifyLines : List (List UInt8) → VerifyResult → Bool × VerifyResult
  | [], w => (true, w)
  | line :: lines, w =>
    if chomp line = [] then verifyLines lines w
    else
      let r := verifyManifestEntry data fs (chomp line) w
      let rest := verifyLines lines r.2
      (r.1 && rest.1, rest.2)

/-- The file at a path has the type, the size and the hash of an entry. -/
structure Describes (entry : ManifestEntry) (real : List UInt8) : Prop where
  type : (fs real).type = 1
  size : (fs real).size = entry.size
  hash : installSha256FileHex data (fs real).opens (fs real).reads = some entry.hash

end Verify

variable {data : ℕ → UInt8} {fs : List UInt8 → Target} {e : ManifestEntry} {w : VerifyResult}
  {line root : List UInt8}

theorem manifestParseLine_eq (line : List UInt8) : manifestParseLine line =
    (verifyParseLine line).filter fun e => decide (e.path.length < pathMax) := by
  by_cases hline : line = []
  · subst hline
    rfl
  simp only [manifestParseLine, verifyParseLine, if_neg hline, bind_eq_bind]
  cases splitField line with
  | none => rfl
  | some fields =>
    simp only [bind_some]
    cases splitField fields.2 with
    | none => rfl
    | some fields' =>
      simp only [bind_some]
      by_cases hgood : fields.1.headD 0 ≠ slash ∨ manifestShaHexValid fields'.2 = false
      · rw [if_pos hgood, if_pos (hgood.imp_right .inr)]
        rfl
      rw [if_neg hgood]
      by_cases hlong : fields.1.length ≥ pathMax
      · rw [if_pos (.inr (.inl hlong))]
        cases strtoull fields'.1 10 with
        | none => rfl
        | some number =>
          simp only [bind_some]
          split
          · rfl
          · simp [Option.filter, hlong]
      · rw [if_neg (by tauto)]
        cases strtoull fields'.1 10 with
        | none => rfl
        | some number =>
          simp only [bind_some]
          split
          · rfl
          · simp [Option.filter, hlong]

theorem manifestParseLine_iff : manifestParseLine line = some e ↔
    verifyParseLine line = some e ∧ e.path.length < pathMax := by
  rw [manifestParseLine_eq, filter_eq_some_iff, decide_eq_true_eq]

theorem rootJoin_length_lt {n : ℕ} {root path real : List UInt8}
    (h : rootJoin n root path = some real) : path.length < n := by
  rw [rootJoin] at h
  split at h
  · cases h
  · by_cases hroot : root = [slash]
    · simp only [if_pos hroot] at h
      by_contra hlong
      rw [if_neg hlong] at h
      cases h
    · simp only [if_neg hroot, length_append] at h
      by_contra hlong
      rw [if_neg (by omega)] at h
      cases h

theorem verifyManifestEntry_iff (hline : line ≠ []) :
    (verifyManifestEntry data fs line w).1 = true ↔ ∃ e real, verifyParseLine line = some e ∧
      rootJoin pathMax w.rootPath e.path = some real ∧ Describes data fs e real := by
  rw [verifyManifestEntry, if_neg hline]
  constructor
  · intro h
    split at h
    · cases h
    · next e hparse =>
      simp only at h
      split at h
      · cases h
      · next real hjoin =>
        refine ⟨e, real, hparse, hjoin, ?_⟩
        split at h
        · cases h
        · next htype =>
          split at h
          · cases h
          · next hsize =>
            split at h
            · cases h
            · next actual hhash =>
              split at h
              · cases h
              · next hactual =>
                rw [not_not] at htype hsize hactual
                exact ⟨htype, hsize, hactual ▸ hhash⟩
  · rintro ⟨e, real, hparse, hjoin, hdesc⟩
    simp [hparse, hjoin, hdesc.type, hdesc.size, hdesc.hash]

theorem verify_load_entry (hline : line ≠ []) :
    (verifyManifestEntry data fs line w).1 = true ↔ ∃ e real, manifestParseLine line = some e ∧
      rootJoin pathMax w.rootPath e.path = some real ∧ Describes data fs e real := by
  rw [verifyManifestEntry_iff hline]
  constructor
  · rintro ⟨e, real, hparse, hjoin, hdesc⟩
    exact ⟨e, real, manifestParseLine_iff.2 ⟨hparse, rootJoin_length_lt hjoin⟩, hjoin, hdesc⟩
  · rintro ⟨e, real, hload, hjoin, hdesc⟩
    exact ⟨e, real, (manifestParseLine_iff.1 hload).1, hjoin, hdesc⟩

/-- The two parsers accept the same lines with a path of fewer than 192 bytes, with the same
fields; and verification matches a line with a file exactly when the loader accepts the line and
the file at its path under the root is as the entry says. -/
theorem verify_load_agree (data : ℕ → UInt8) (fs : List UInt8 → Target) (w : VerifyResult)
    (line : List UInt8) :
    (∀ e, manifestParseLine line = some e ↔
      verifyParseLine line = some e ∧ e.path.length < pathMax) ∧
    (line ≠ [] ∧ (verifyManifestEntry data fs line w).1 = true ↔
      ∃ e real, manifestParseLine line = some e ∧
        rootJoin pathMax w.rootPath e.path = some real ∧ Describes data fs e real) := by
  constructor
  · intro e
    exact manifestParseLine_iff
  · by_cases hline : line = []
    · subst hline
      simp [manifestParseLine]
    · rw [verify_load_entry hline]
      simp [hline]

/-- A line with a path of 192 bytes. -/
def longLine : List UInt8 :=
  slash :: List.replicate 191 97 ++ bar :: 48 :: bar :: List.replicate 64 48

/-- The line is one for verification only. -/
theorem not_verify_load_agree :
    ¬ ∀ line e, manifestParseLine line = some e ↔ verifyParseLine line = some e := by
  intro h
  have hlong : verifyParseLine longLine =
      some ⟨slash :: List.replicate 191 97, 0, List.replicate 64 48⟩ := by decide +kernel
  have hload := (h longLine _).2 hlong
  rw [manifestParseLine_iff] at hload
  have hlen := hload.2
  rw [length_cons, length_replicate] at hlen
  exact absurd hlen (by decide)

theorem rootPath_verifyManifestEntry (line : List UInt8) (w : VerifyResult) :
    (verifyManifestEntry data fs line w).2.rootPath = w.rootPath := by
  rw [verifyManifestEntry]
  split
  · rfl
  · split
    · rfl
    · simp only
      split
      · rfl
      · split
        · rfl
        · split
          · rfl
          · split
            · rfl
            · split <;> rfl

end Cleonos.Install
