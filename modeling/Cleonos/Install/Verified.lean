import Cleonos.Install.Loading

/-!
# Verifying the manifest

A manifest verifies just where it loads and its entries describe the files at their places.
-/

namespace Cleonos.Install

open List

variable {data : ℕ → UInt8} {fs : List UInt8 → Target} {w : VerifyResult} {a : LoadAnswers}
  {io : ℕ → AppendAnswer} {files : List Tracked} {bytes : List UInt8}

/-- `install_verify_manifest`, on the answers to its calls. -/
def verifyManifest (data : ℕ → UInt8) (fs : List UInt8 → Target) (a : LoadAnswers)
    (w : VerifyResult) : Bool × VerifyResult :=
  let corrupt := (false, { w with corrupt := w.corrupt + 1 })
  if rootJoin pathMax w.rootPath manifestSource = none then corrupt
  else if a.size = -1 then (false, { w with missing := w.missing + 1 })
  else if a.size.toNat > manifestMaxBytes then corrupt
  else if a.buffer = false then corrupt
  else if a.opens = false then corrupt
  else
    match loadReads a.size.toNat a.reads with
    | none => corrupt
    | some buffer => verifyLines data fs (buffer.splitOnP endsLine) w

/-- The file of an entry is at its place under the root that is verified. -/
def Installed (data : ℕ → UInt8) (fs : List UInt8 → Target) (w : VerifyResult)
    (e : ManifestEntry) : Prop :=
  ∃ real, rootJoin pathMax w.rootPath e.path = some real ∧ Describes data fs e real

theorem installed_next (e : ManifestEntry) (line : List UInt8) :
    Installed data fs (verifyManifestEntry data fs line w).2 e ↔ Installed data fs w e := by
  rw [Installed, rootPath_verifyManifestEntry, Installed]

/-- Lines are verified without an error just where they load, if the loader has room for them, as
entries that each describe the file at its place. -/
theorem verifyLines_iff {maxEntries : ℕ} {lines : List (List UInt8)} {before : List ManifestEntry}
    (hroom : before.length + (lines.filter fun l => decide (chomp l ≠ [])).length ≤ maxEntries) :
    (verifyLines data fs lines w).1 = true ↔
      ∃ more, loadLines maxEntries lines before = some (before ++ more) ∧
        ∀ e ∈ more, Installed data fs w e := by
  induction lines generalizing before w with
  | nil => simp [verifyLines, loadLines]
  | cons line lines ih =>
    rw [verifyLines, loadLines]
    by_cases hempty : chomp line = []
    · rw [if_pos hempty, if_pos hempty]
      rw [filter_cons_of_neg (by simpa using hempty)] at hroom
      exact ih hroom
    rw [filter_cons_of_pos (by simpa using hempty), length_cons] at hroom
    rw [if_neg hempty, if_neg hempty, if_neg (by omega)]
    have hroom' (e : ManifestEntry) : (before ++ [e]).length +
        (lines.filter fun l => decide (chomp l ≠ [])).length ≤ maxEntries := by
      rw [length_append, length_singleton]
      omega
    simp only [Bool.and_eq_true]
    rw [verify_load_entry hempty]
    constructor
    · rintro ⟨⟨e, real, hload, hjoin, hdesc⟩, hrest⟩
      obtain ⟨more, hmore, hall⟩ := (ih (hroom' e)).1 hrest
      simp only [installed_next] at hall
      refine ⟨e :: more, ?_, forall_mem_cons.2 ⟨⟨real, hjoin, hdesc⟩, hall⟩⟩
      rw [hload]
      simpa using hmore
    · rintro ⟨more, hmore, hall⟩
      cases hload : manifestParseLine (chomp line) with
      | none =>
        rw [hload] at hmore
        cases hmore
      | some e =>
        rw [hload] at hmore
        obtain ⟨rest, hrest, -⟩ := loadLines_eq_some hmore
        obtain rfl : more = e :: rest := by simpa using hrest
        obtain ⟨⟨real, hjoin, hdesc⟩, hall⟩ := forall_mem_cons.1 hall
        refine ⟨⟨e, real, rfl, hjoin, hdesc⟩, (ih (hroom' e)).2 ⟨rest, ?_, ?_⟩⟩
        · simpa using hmore
        · simpa only [installed_next] using hall

/-- A manifest verifies just where it can be loaded, by a loader with room for its lines, and each
of its entries describes the file at its place. -/
theorem verifyManifest_iff (data : ℕ → UInt8) (fs : List UInt8 → Target) (a : LoadAnswers)
    (w : VerifyResult) {maxEntries : ℕ} (hmax : maxEntries ≠ 0)
    (hroom : ∀ buffer, loadReads a.size.toNat a.reads = some buffer →
      ((buffer.splitOnP endsLine).filter fun line => decide (chomp line ≠ [])).length ≤
        maxEntries) :
    (verifyManifest data fs a w).1 = true ↔ rootJoin pathMax w.rootPath manifestSource ≠ none ∧
      ∃ entries, manifestLoad a maxEntries false = some entries ∧
        ∀ e ∈ entries, Installed data fs w e := by
  rw [verifyManifest, manifestLoad, if_neg hmax]
  by_cases hjoin : rootJoin pathMax w.rootPath manifestSource = none
  · rw [if_pos hjoin]
    simp [hjoin]
  rw [if_neg hjoin, and_iff_right hjoin]
  simp only [Bool.false_eq_true, if_false]
  split_ifs with hsize hlarge hbuffer hopens
  · simp
  · simp
  · simp
  · simp
  · cases hread : loadReads a.size.toNat a.reads with
    | none => simp
    | some buffer =>
      exact verifyLines_iff (by rw [length_nil, Nat.zero_add]; exact hroom buffer hread)

theorem verifyManifest_writtenAs {line : Tracked → Option (List UInt8)}
    (hw : WrittenAs data line files bytes) (hserves : Serves a bytes)
    (hplain : ∀ f ∈ files, Plain f.path) (fs : List UInt8 → Target) (w : VerifyResult) :
    (verifyManifest data fs a w).1 = true ↔ rootJoin pathMax w.rootPath manifestSource ≠ none ∧
      ∀ f ∈ files, Installed data fs w (fileEntry f) := by
  -- room for what is read, whatever it is
  let lines (buffer : List UInt8) :=
    (buffer.splitOnP endsLine).filter fun line => decide (chomp line ≠ [])
  let room := ((loadReads a.size.toNat a.reads).map fun buffer => (lines buffer).length).getD 0
  have hpos := length_pos_iff.2 hw.ne_nil
  have hroom : ∀ buffer, loadReads a.size.toNat a.reads = some buffer →
      (lines buffer).length ≤ files.length + room := by
    intro buffer hread
    simp only [room, hread, Option.map_some, Option.getD_some]
    omega
  have hload := (load_text_iff hw.ne_nil hw.lines hw.paths hw.length_le (hw.bytes_eq ▸ hserves)
    (files.length + room) false).2 ⟨hplain, Nat.le_add_right _ _⟩
  rw [@verifyManifest_iff data fs a w (files.length + room) (by omega) hroom, hload]
  simp

/-- What was written verifies just where every file that it is of has its size and its digest, if
no path has one of the bytes that separate fields and lines. -/
theorem written_verifies_iff (h : Written data io files bytes) (hserves : Serves a bytes)
    (hplain : ∀ f ∈ files, Plain f.path) (fs : List UInt8 → Target) (w : VerifyResult) :
    (verifyManifest data fs a w).1 = true ↔ rootJoin pathMax w.rootPath manifestSource ≠ none ∧
      ∀ f ∈ files, Installed data fs w (fileEntry f) := by
  cases h with
  | generated root manifestPath inc systemType systemMade c tree file _ h =>
    exact verifyManifest_writtenAs (writtenAs_generated h) hserves hplain fs w
  | refreshed c old new file _ h =>
    exact verifyManifest_writtenAs (writtenAs_refreshed h) hserves hplain fs w

/-- A file that has become longer is found. -/
theorem verifies_not_grown :
    (verifyManifest (fun _ => 0) (fun _ => ⟨⟨1, true, [some [0]]⟩, 1⟩)
      (servedAtOnce (emptyLine (lit "/shell/a"))) { rootPath := [slash] }).1 = false := by
  have hwritten := Written.generated _ _ _ _ _ _ _ _ _ (@generate_oneFile (lit "a") (by decide)
    (by decide) (by decide) (by decide) (by decide))
  rw [includedFiles_oneFile (by decide) (by decide)] at hwritten
  have hlen := length_emptyLine (lit "/shell/a")
  have hpath : (lit "/shell/a").length = 8 := by decide
  have hserves : Serves (servedAtOnce (emptyLine (lit "/shell/a"))) (emptyLine (lit "/shell/a")) :=
    serves_atOnce (ne_nil_of_length_pos (by omega)) (by omega)
  rw [Bool.eq_false_iff, ne_eq, written_verifies_iff hwritten hserves]
  · rintro ⟨-, hall⟩
    obtain ⟨real, -, hdesc⟩ := hall _ (mem_singleton.2 rfl)
    exact absurd hdesc.size (by decide)
  · intro f hf
    rw [mem_singleton.1 hf, plain_iff_all]
    decide

end Cleonos.Install
