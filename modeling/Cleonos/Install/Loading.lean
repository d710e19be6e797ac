import Cleonos.Install.Refresh

/-!
# Loading the manifest that was written

A manifest is read back as the files it was written for, unless a path has one of the bytes
that separate fields and lines, or there are more files than the loader takes.
-/

namespace Cleonos.Install

open List
open ItemLog (text write AllOut)
open Libc (strtoull)
open Sha256 (FdRead hexDigit hexDigits exists_hexDigit length_hexDigits exists_of_mem_hexDigits
  readBytes installSha256FileHex installSha256FileHex_eq)
open Fips180 (sha256)
open Stdio (u64ToBase spelling spelling_lt digitChar u64ToBase_spelling strtoull_u64ToBase)

/-- The entry of a file: its path, its size and its digest. -/
def fileEntry (f : Tracked) : ManifestEntry :=
  ⟨f.path, f.answers.size, hexDigits (sha256 ((readBytes f.answers.reads).getD []))⟩

/-- A path without the bytes that separate fields and lines. -/
def Plain (path : List UInt8) : Prop := ∀ c ∈ path, c ≠ bar ∧ endsLine c = false

theorem plain_iff_all (path : List UInt8) :
    Plain path ↔ (path.all fun c => c != bar && ! endsLine c) = true := by
  simp [Plain]

/-! ## Digits -/

variable {c : UInt8}

theorem decimal_plain (size : UInt64) (h : c ∈ u64ToBase size.toNat 10 false 96) :
    c ≠ bar ∧ endsLine c = false := by
  have hall : ∀ digit < 10, digitChar false digit ≠ bar ∧ endsLine (digitChar false digit) = false := by
    decide
  rw [u64ToBase_spelling (by omega) (by omega) size.toNat_lt (by omega)] at h
  obtain ⟨digit, hdigit, rfl⟩ := mem_map.1 h
  exact hall digit (spelling_lt (by omega) hdigit)

/-- A digit in hexadecimal, small letters or capitals. -/
def hexByte (c : UInt8) : Bool := (48 ≤ c && c ≤ 57) || (97 ≤ c && c ≤ 102) || (65 ≤ c && c ≤ 70)

theorem hexByte_hexDigit (v : UInt8) : hexByte (hexDigit v) = true := by
  have hall : ∀ i : Fin 16, hexByte (if UInt8.ofNat i < 10 then 48 + UInt8.ofNat i
      else 97 + (UInt8.ofNat i - 10)) = true := by decide
  obtain ⟨i, hi⟩ := exists_hexDigit v
  rw [hi]
  exact hall i

theorem hexByte_plain (h : hexByte c = true) : endsLine c = false ∧ c ≠ 13 := by
  constructor
  · rw [Bool.eq_false_iff]
    intro hends
    rw [endsLine, Bool.or_eq_true] at hends
    rcases hends with hc | hc
    · rw [beq_iff_eq.1 hc] at h
      exact absurd h (by decide)
    · rw [beq_iff_eq.1 hc] at h
      exact absurd h (by decide)
  · rintro rfl
    exact absurd h (by decide)

theorem manifestShaHexValid_iff {hash : List UInt8} :
    manifestShaHexValid hash = true ↔
      hash.length = sha256HexLen ∧ ∀ c ∈ hash, hexByte c = true := by
  rw [manifestShaHexValid, Bool.and_eq_true, decide_eq_true_iff, all_eq_true]
  rfl

theorem fileEntry_hash_valid (f : Tracked) : manifestShaHexValid (fileEntry f).hash = true := by
  rw [manifestShaHexValid_iff]
  constructor
  · exact length_hexDigits _
  · intro c hc
    obtain ⟨v, rfl⟩ := exists_of_mem_hexDigits hc
    exact hexByte_hexDigit v

variable {data : ℕ → UInt8} {io : ℕ → AppendAnswer} {line : Tracked → Option (List UInt8)}
  {front files : List Tracked} {f : Tracked} {w : Writer} {path hash : List UInt8} {size : UInt64}

theorem fileLine_eq_entryLine {l : List UInt8} (h : fileLine data f = some l) :
    l = entryLine (fileEntry f).path (fileEntry f).size (fileEntry f).hash := by
  obtain ⟨hash, -, hhash, hl, -⟩ := fileLine_eq_some h
  cases hopens : f.answers.opens with
  | false =>
    rw [hopens] at hhash
    cases hhash
  | true =>
    rw [hopens, installSha256FileHex_eq] at hhash
    obtain ⟨bytes, hbytes, hdigits⟩ := Option.map_eq_some_iff.1 hhash
    rw [hl, fileEntry, hbytes, ← hdigits]
    rfl

def entryBody (e : ManifestEntry) : List UInt8 :=
  e.path ++ bar :: (u64ToBase e.size.toNat 10 false 96 ++ bar :: e.hash)

theorem entryLine_eq (e : ManifestEntry) :
    entryLine e.path e.size e.hash = entryBody e ++ [newline] := by
  rw [entryLine, entryBody]
  simp only [append_assoc, cons_append, nil_append]

theorem splitField_append {s : List UInt8} (h : bar ∉ s) (t : List UInt8) :
    splitField (s ++ bar :: t) = some (s, t) := by
  have hs : ∀ c ∈ s, decide (c ≠ bar) = true := fun c hc =>
    decide_eq_true (ne_of_mem_of_not_mem hc h)
  rw [splitField, if_pos (by simp), takeWhile_append_of_pos hs, dropWhile_append_of_pos hs]
  simp

theorem splitField_eq_some {s a b : List UInt8} (h : splitField s = some (a, b)) :
    bar ∉ a ∧ ∀ c ∈ a, c ∈ s := by
  rw [splitField] at h
  split at h
  · cases h
    constructor
    · intro hbar
      exact absurd (mem_takeWhile_imp hbar) (by decide)
    · exact fun c hc => (takeWhile_sublist _).subset hc
  · cases h

/-- An entry that a manifest can have. -/
structure Loadable (e : ManifestEntry) : Prop where
  plain : Plain e.path
  head : e.path.headD 0 = slash
  length_lt : e.path.length < pathMax
  valid : manifestShaHexValid e.hash = true

variable {e : ManifestEntry}

theorem manifestParseLine_entryBody (h : Loadable e) :
    manifestParseLine (entryBody e) = some e := by
  have hpath : bar ∉ e.path := fun hbar => (h.plain bar hbar).1 rfl
  have hsize : bar ∉ u64ToBase e.size.toNat 10 false 96 := fun hbar =>
    (decimal_plain e.size hbar).1 rfl
  have hne : entryBody e ≠ [] := by simp [entryBody]
  have hgood : ¬ (e.path.headD 0 ≠ slash ∨ e.path.length ≥ pathMax ∨
      manifestShaHexValid e.hash = false) := by
    rw [h.head, h.valid]
    simpa using h.length_lt
  rw [manifestParseLine, if_neg hne]
  simp only [entryBody, splitField_append hpath, splitField_append hsize, if_neg hgood,
    strtoull_u64ToBase (.inl rfl) e.size.toNat_lt, Option.bind_eq_bind, Option.bind_some, ne_eq, not_true_eq_false, if_false, UInt64.ofNat_toNat]

theorem path_of_manifestParseLine {l : List UInt8} (h : manifestParseLine l = some e) :
    bar ∉ e.path ∧ ∀ c ∈ e.path, c ∈ l := by
  rw [manifestParseLine] at h
  split at h
  · cases h
  · simp only [Option.bind_eq_bind] at h
    obtain ⟨⟨path, rest⟩, hpath, h⟩ := Option.bind_eq_some_iff.1 h
    obtain ⟨⟨sizeField, hashField⟩, -, h⟩ := Option.bind_eq_some_iff.1 h
    dsimp only at h
    split at h
    · cases h
    · obtain ⟨⟨value, rest'⟩, -, h⟩ := Option.bind_eq_some_iff.1 h
      dsimp only at h
      split at h
      · cases h
      · cases h
        exact splitField_eq_some hpath

theorem endsLine_of_mem_splitOnP {bytes l : List UInt8} (h : l ∈ bytes.splitOnP endsLine) :
    ∀ c ∈ l, endsLine c = false := by
  induction bytes generalizing l with
  | nil =>
    rw [splitOnP_nil, mem_singleton] at h
    simp [h]
  | cons b bytes ih =>
    rw [splitOnP_cons_eq_if_modifyHead] at h
    split at h
    · rcases mem_cons.1 h with rfl | h
      · simp
      · exact ih h
    · obtain ⟨first, rest, hsplit⟩ := exists_cons_of_ne_nil
        (splitOnP_ne_nil endsLine bytes)
      rw [hsplit, modifyHead_cons] at h
      rcases mem_cons.1 h with rfl | h
      · intro c hc
        rcases mem_cons.1 hc with rfl | hc
        · exact Bool.eq_false_iff.2 ‹_›
        · exact ih (by rw [hsplit]; exact mem_cons_self) c hc
      · exact ih (by rw [hsplit]; exact mem_cons_of_mem _ h)

theorem mem_of_mem_chomp {l : List UInt8} (h : c ∈ chomp l) : c ∈ l := by
  rw [chomp] at h
  split at h
  · exact mem_of_mem_dropLast h
  · exact h

theorem loadLines_eq_some {maxEntries : ℕ} {lines : List (List UInt8)}
    {before entries : List ManifestEntry} (h : loadLines maxEntries lines before = some entries) :
    ∃ more, entries = before ++ more ∧ (more ≠ [] → entries.length ≤ maxEntries) ∧
      ∀ e ∈ more, ∃ l ∈ lines, manifestParseLine (chomp l) = some e := by
  induction lines generalizing before with
  | nil =>
    cases h
    exact ⟨[], (append_nil _).symm, fun hne => absurd rfl hne, by simp⟩
  | cons l lines ih =>
    rw [loadLines] at h
    split at h
    · obtain ⟨more, hmore, hroom, hlines⟩ := ih h
      refine ⟨more, hmore, hroom, fun e he => ?_⟩
      obtain ⟨l', hl', hparse⟩ := hlines e he
      exact ⟨l', mem_cons_of_mem _ hl', hparse⟩
    · split at h
      · cases h
      · split at h
        · cases h
        · rename_i hroom _ e hparse
          obtain ⟨more, hmore, hroom', hlines⟩ := ih h
          refine ⟨e :: more, by rw [hmore, append_assoc, singleton_append], ?_, ?_⟩
          · intro _
            by_cases hnil : more = []
            · rw [hmore, hnil, append_nil, length_append, length_singleton]
              omega
            · exact hroom' hnil
          · intro e' he'
            rcases mem_cons.1 he' with rfl | he'
            · exact ⟨l, mem_cons_self, hparse⟩
            · obtain ⟨l', hl', hparse'⟩ := hlines e' he'
              exact ⟨l', mem_cons_of_mem _ hl', hparse'⟩

theorem chomp_entryBody (h : Loadable e) : chomp (entryBody e) = entryBody e := by
  obtain ⟨hlen, hbytes⟩ := manifestShaHexValid_iff.1 h.valid
  have hne : e.hash ≠ [] := ne_nil_of_length_pos (by rw [hlen]; decide)
  rw [chomp, if_neg]
  intro hlast
  have hsplit : entryBody e =
      (e.path ++ bar :: (u64ToBase e.size.toNat 10 false 96 ++ [bar])) ++ e.hash := by
    rw [entryBody]
    simp only [append_assoc, cons_append, nil_append]
  rw [hsplit, List.getLast?_append_of_ne_nil _ hne] at hlast
  exact (hexByte_plain (hbytes 13 (mem_of_getLast? hlast))).2 rfl

theorem endsLine_entryBody (h : Loadable e) : ∀ c ∈ entryBody e, endsLine c = false := by
  intro c hc
  obtain ⟨-, hbytes⟩ := manifestShaHexValid_iff.1 h.valid
  have hbar : endsLine bar = false := by decide
  simp only [entryBody, mem_append, mem_cons] at hc
  rcases hc with hc | rfl | hc | rfl | hc
  · exact (h.plain c hc).2
  · exact hbar
  · exact (decimal_plain e.size hc).2
  · exact hbar
  · exact (hexByte_plain (hbytes c hc)).1

theorem splitOnP_entries {entries : List ManifestEntry} (h : ∀ e ∈ entries, Loadable e) :
    (entries.flatMap fun e => entryLine e.path e.size e.hash).splitOnP endsLine =
      entries.map entryBody ++ [[]] := by
  induction entries with
  | nil => rfl
  | cons e entries ih =>
    have hend : endsLine newline = true := by decide
    rw [flatMap_cons, entryLine_eq, append_assoc, singleton_append,
      splitOnP_append_cons_of_forall_mem (endsLine_entryBody (h e mem_cons_self)) _ hend,
      ih fun e' he' => h e' (mem_cons_of_mem _ he')]
    rfl

theorem loadLines_entries {maxEntries : ℕ} {entries : List ManifestEntry}
    (h : ∀ e ∈ entries, Loadable e) (before : List ManifestEntry)
    (hroom : before.length + entries.length ≤ maxEntries) :
    loadLines maxEntries (entries.map entryBody ++ [[]]) before = some (before ++ entries) := by
  induction entries generalizing before with
  | nil =>
    have hchomp : chomp [] = [] := rfl
    rw [map_nil, nil_append, loadLines, if_pos hchomp, loadLines, append_nil]
  | cons e entries ih =>
    have he := h e mem_cons_self
    have hne : entryBody e ≠ [] := by simp [entryBody]
    rw [length_cons] at hroom
    rw [map_cons, cons_append, loadLines, chomp_entryBody he, if_neg hne,
      if_neg (by omega), manifestParseLine_entryBody he]
    dsimp only
    rw [ih (fun e' he' => h e' (mem_cons_of_mem _ he')) (before ++ [e])
      (by rw [length_append, length_singleton]; omega), append_assoc,
      singleton_append]

/-- The calls that read a manifest work, and deliver its bytes, in any pieces. -/
structure Serves (a : LoadAnswers) (bytes : List UInt8) : Prop where
  size_eq : a.size.toNat = bytes.length
  buffer : a.buffer = true
  opens : a.opens = true
  reads : ∃ (chunks : List (List UInt8)) (more : List FdRead),
    (∀ chunk ∈ chunks, chunk ≠ []) ∧ chunks.flatten = bytes ∧ a.reads = chunks.map some ++ more

theorem loadReads_chunks {chunks : List (List UInt8)} (h : ∀ chunk ∈ chunks, chunk ≠ [])
    (more : List FdRead) :
    loadReads chunks.flatten.length (chunks.map some ++ more) = some chunks.flatten := by
  induction chunks with
  | nil => rw [flatten_nil, length_nil, loadReads]
  | cons chunk chunks ih =>
    obtain ⟨b, bs, rfl⟩ := exists_cons_of_ne_nil (h chunk mem_cons_self)
    have hlen : ((b :: bs) :: chunks).flatten.length = (bs.length + chunks.flatten.length) + 1 := by
      rw [flatten_cons, length_append, length_cons]
      omega
    rw [hlen, map_cons, cons_append, loadReads, Nat.add_sub_cancel_left,
      ih fun chunk hchunk => h chunk (mem_cons_of_mem _ hchunk)]
    rfl

theorem manifestLoad_eq {a : LoadAnswers} {bytes : List UInt8} (h : Serves a bytes)
    (hlen : bytes.length ≤ manifestMaxBytes) {maxEntries : ℕ} (hmax : maxEntries ≠ 0)
    (missingOk : Bool) :
    manifestLoad a maxEntries missingOk = loadLines maxEntries (bytes.splitOnP endsLine) [] := by
  obtain ⟨chunks, more, hchunks, hbytes, hreads⟩ := h.reads
  have hsize : ¬ a.size = -1 := by
    intro hsize
    have hlt := h.size_eq
    rw [hsize, ← hbytes] at hlt
    rw [← hbytes, ← hlt] at hlen
    exact absurd hlen (by decide)
  rw [manifestLoad, if_neg hmax, if_neg hsize, h.size_eq, if_neg (not_lt.2 hlen),
    if_neg (by rw [h.buffer]; decide), if_neg (by rw [h.opens]; decide), hreads, ← hbytes,
    loadReads_chunks hchunks, Option.bind_some]

theorem load_text_iff {a : LoadAnswers} (hfiles : files ≠ [])
    (hline : ∀ f ∈ files, ∃ l, line f = some l ∧ fileLine data f = some l)
    (hpath : ∀ f ∈ files, f.path.headD 0 = slash ∧ f.path.length < pathMax)
    (hlen : (text line files).length ≤ manifestMaxBytes) (hserves : Serves a (text line files))
    (maxEntries : ℕ) (missingOk : Bool) :
    manifestLoad a maxEntries missingOk = some (files.map fileEntry) ↔
      (∀ f ∈ files, Plain f.path) ∧ files.length ≤ maxEntries := by
  have htext : text line files =
      (files.map fileEntry).flatMap fun e => entryLine e.path e.size e.hash := by
    rw [flatMap_map, text]
    refine flatMap_congr fun f hf => ?_
    obtain ⟨l, hl, hfile⟩ := hline f hf
    rw [hl, Option.getD_some]
    exact fileLine_eq_entryLine hfile
  constructor
  · intro hload
    have hmax : maxEntries ≠ 0 := by
      rintro rfl
      rw [manifestLoad, if_pos rfl] at hload
      cases hload
    rw [manifestLoad_eq hserves hlen hmax] at hload
    obtain ⟨more, hmore, hroom, hlines⟩ := loadLines_eq_some hload
    rw [nil_append] at hmore
    refine ⟨fun f hf c hc => ?_, ?_⟩
    · have he : fileEntry f ∈ more := by
        rw [← hmore]
        exact mem_map_of_mem hf
      obtain ⟨l, hl, hparse⟩ := hlines _ he
      obtain ⟨hbar, hmem⟩ := path_of_manifestParseLine hparse
      exact ⟨ne_of_mem_of_not_mem hc hbar,
        endsLine_of_mem_splitOnP hl c (mem_of_mem_chomp (hmem c hc))⟩
    · have hroom' := hroom (by rw [← hmore]; simpa using hfiles)
      rwa [length_map] at hroom'
  · rintro ⟨hplain, hroom⟩
    have hmax : maxEntries ≠ 0 := by
      have hpos := length_pos_iff.2 hfiles
      omega
    have hloadable : ∀ e ∈ files.map fileEntry, Loadable e := by
      intro e he
      obtain ⟨f, hf, rfl⟩ := mem_map.1 he
      exact ⟨hplain f hf, (hpath f hf).1, (hpath f hf).2, fileEntry_hash_valid f⟩
    rw [manifestLoad_eq hserves hlen hmax, htext, splitOnP_entries hloadable,
      loadLines_entries hloadable [] (by rwa [length_map, length_nil, Nat.zero_add]),
      nil_append]

/-- The path of an entry of a directory. -/
def childPath (logical name : List UInt8) : List UInt8 :=
  if logical = [slash] then slash :: name else logical ++ slash :: name

mutual

/-- The files below a path, in the order in which they are listed. -/
def Node.regularFiles : Node → List UInt8 → List Tracked
  | .file answers, logical => [⟨logical, answers⟩]
  | .dir entries, logical => entries.regularFiles logical
  | .unlistable, _ => []
  | .other, _ => []

def Listing.regularFiles : Listing → List UInt8 → List Tracked
  | .done, _ => []
  | .entry name node rest, logical =>
    (if isDotName name then [] else node.regularFiles (childPath logical name)) ++
      rest.regularFiles logical

end

/-- The files of a tree that a manifest includes. -/
def includedFiles (inc : Include) (tree : Node) : List Tracked :=
  (tree.regularFiles [slash]).filter fun f => inc.fn f.path

theorem pathJoin_eq_some {n : ℕ} {base name path : List UInt8}
    (h : pathJoin n base name = some path) (hbase : base.headD 0 = slash) :
    path = childPath base name ∧ path.length < n := by
  rw [pathJoin] at h
  by_cases hfull : base.length + (if base.length > 1 then 1 else 0) + name.length + 1 > n
  · rw [if_pos hfull] at h
    cases h
  rw [if_neg hfull] at h
  have hpath := Option.some.inj h
  obtain ⟨rest, rfl⟩ : ∃ rest, base = slash :: rest := by
    cases base with
    | nil => exact absurd hbase (by decide)
    | cons c rest => exact ⟨rest, by rw [← hbase, headD_cons]⟩
  rw [← hpath, childPath]
  cases rest with
  | nil =>
    refine ⟨rfl, ?_⟩
    simp at hfull ⊢
    omega
  | cons c rest =>
    refine ⟨by simp, ?_⟩
    simp at hfull ⊢
    omega

theorem headD_childPath {logical : List UInt8} (h : logical.headD 0 = slash)
    (name : List UInt8) : (childPath logical name).headD 0 = slash := by
  rw [childPath]
  split
  · rfl
  · cases logical with
    | nil => rfl
    | cons c rest => exact h

theorem pathIsUnder_childPath {pfx : List UInt8} (h : pathIsUnder path pfx = true)
    (hpfx : 1 < pfx.length) (name : List UInt8) :
    pathIsUnder (childPath path name) pfx = true := by
  rw [pathIsUnder, Bool.and_eq_true, Bool.or_eq_true, decide_eq_true_iff, decide_eq_true_iff,
    beq_iff_eq] at h ⊢
  obtain ⟨htake, hnext⟩ := h
  have hle : pfx.length ≤ path.length := by
    have hlen := congrArg List.length htake
    rw [length_take] at hlen
    omega
  have hne : path ≠ [slash] := by
    rintro rfl
    rw [length_singleton] at hle
    omega
  rw [childPath, if_neg hne]
  refine ⟨by rw [take_append_of_le_length hle, htake], Or.inr ?_⟩
  rcases hle.lt_or_eq with hlt | heq
  · rw [getD_eq_getElem?_getD, List.getElem?_append_left hlt, ← getD_eq_getElem?_getD]
    exact hnext.resolve_left (by omega)
  · rw [getD_eq_getElem?_getD, List.getElem?_append_right heq.ge, heq, Nat.sub_self]
    rfl

theorem scanSkips_childPath (h : scanSkips path = true) (name : List UInt8) :
    scanSkips (childPath path name) = true := by
  simp only [scanSkips, Bool.or_eq_true] at h ⊢
  rcases h with (((h | h) | h) | h) | h
  all_goals simp only [pathIsUnder_childPath h (by decide), true_or, or_true]

theorem fn_of_scanSkips (inc : Include) (h : scanSkips path = true) : inc.fn path = false := by
  have hmanifest : manifestPathIncluded path = false := by
    rw [manifestPathIncluded]
    split
    · rfl
    · split
      · rfl
      · rw [if_pos]
        simp only [scanSkips, Bool.or_eq_true] at h
        tauto
  cases inc with
  | manifest => exact hmanifest
  | updateShell =>
    rw [Include.fn, updateShellPathIncluded, hmanifest]
    simp

mutual

theorem Node.scanSkips_regularFiles (node : Node) {logical : List UInt8}
    (h : scanSkips logical = true) : ∀ f ∈ node.regularFiles logical, scanSkips f.path = true := by
  cases node with
  | file answers =>
    intro f hf
    rw [Node.regularFiles, mem_singleton] at hf
    rwa [hf]
  | dir entries => exact entries.scanSkips_regularFiles h
  | unlistable => exact fun f hf => absurd hf not_mem_nil
  | other => exact fun f hf => absurd hf not_mem_nil

theorem Listing.scanSkips_regularFiles (entries : Listing) {logical : List UInt8}
    (h : scanSkips logical = true) :
    ∀ f ∈ entries.regularFiles logical, scanSkips f.path = true := by
  cases entries with
  | done => exact fun f hf => absurd hf not_mem_nil
  | entry name node rest =>
    intro f hf
    rw [Listing.regularFiles, mem_append] at hf
    rcases hf with hf | hf
    · split at hf
      · exact absurd hf not_mem_nil
      · exact node.scanSkips_regularFiles (scanSkips_childPath h name) f hf
    · exact rest.scanSkips_regularFiles h f hf

end

/-! ## The scan -/

/-- A part of a scan that succeeds wrote the lines of some files behind those of `front`. -/
structure Scanned (data : ℕ → UInt8) (io : ℕ → AppendAnswer) (front files : List Tracked)
    (w : Writer) : Prop where
  wrote : Wrote (fileLine data) w (front ++ files)
  allOut : AllOut (LineOut io (fileLine data)) front files
  paths : ∀ f ∈ files, f.path.headD 0 = slash ∧ f.path.length < pathMax

theorem scanned_nil (h : Wrote (fileLine data) w front) : Scanned data io front [] w :=
  ⟨by rwa [append_nil], ItemLog.allOut_nil, by simp⟩

theorem Scanned.append {files' : List Tracked} {w' : Writer} (h : Scanned data io front files w)
    (h' : Scanned data io (front ++ files) files' w') : Scanned data io front (files ++ files') w' := by
  refine ⟨?_, ItemLog.allOut_append.2 ⟨h.allOut, h'.allOut⟩, fun f hf => ?_⟩
  · rw [← append_assoc]
    exact h'.wrote
  · rcases mem_append.1 hf with hf | hf
    · exact h.paths f hf
    · exact h'.paths f hf

theorem scanned_appendEntry (h : Wrote (fileLine data) w front)
    (hpath : f.path.headD 0 = slash ∧ f.path.length < pathMax)
    (hok : (manifestAppendEntry data io f.answers f.path w).1 = true) :
    Scanned data io front [f] (manifestAppendEntry data io f.answers f.path w).2 := by
  have hfollows : Follows io (fileLine data) front [f]
      (manifestAppendEntry data io f.answers f.path w) := follows_appendEntry h rfl
  refine ⟨hfollows.wrote hok, ?_, by simpa using hpath⟩
  have hwrite := hfollows.ok_eq
  rw [hok] at hwrite
  rw [ItemLog.allOut_cons]
  refine ⟨?_, ItemLog.allOut_nil⟩
  by_contra hout
  rw [ItemLog.writeFrom, if_neg hout] at hwrite
  cases hwrite

mutual

theorem scanned_tree (inc : Include) (node : Node) {real logical : List UInt8} {depth : ℕ}
    {w : Writer} {front : List Tracked} (hlogical : logical.headD 0 = slash)
    (hlen : logical.length < pathMax) (h : Wrote (fileLine data) w front)
    (hok : (scanTreeFiltered data io inc node real logical depth w).1 = true) :
    Scanned data io front ((node.regularFiles logical).filter fun f => inc.fn f.path)
      (scanTreeFiltered data io inc node real logical depth w).2 := by
  rw [scanTreeFiltered.eq_def] at hok ⊢
  dsimp only at hok ⊢
  by_cases hdepth : depth > 32
  · rw [if_pos hdepth] at hok
    cases hok
  rw [if_neg hdepth] at hok ⊢
  by_cases hskip : scanSkips logical = true
  · have hnone : (node.regularFiles logical).filter (fun f => inc.fn f.path) = [] := by
      rw [filter_eq_nil_iff]
      intro f hf
      rw [fn_of_scanSkips inc (node.scanSkips_regularFiles hskip f hf)]
      decide
    rw [if_pos hskip, hnone]
    exact scanned_nil h
  rw [if_neg hskip] at hok ⊢
  cases node with
  | file answers =>
    dsimp only at hok ⊢
    rw [Node.regularFiles, filter_singleton]
    cases hinc : inc.fn logical with
    | false =>
      rw [if_pos rfl]
      exact scanned_nil h
    | true =>
      rw [hinc, if_neg (by decide)] at hok
      rw [if_neg (by decide)]
      exact @scanned_appendEntry data io front ⟨logical, answers⟩ w h ⟨hlogical, hlen⟩ hok
  | dir entries => exact scanned_children inc entries hlogical hlen h hok
  | unlistable => cases hok
  | other => exact scanned_nil h

theorem scanned_children (inc : Include) (entries : Listing) {real logical : List UInt8}
    {depth : ℕ} {w : Writer} {front : List Tracked} (hlogical : logical.headD 0 = slash)
    (hlen : logical.length < pathMax) (h : Wrote (fileLine data) w front)
    (hok : (scanChildren data io inc entries real logical depth w).1 = true) :
    Scanned data io front ((entries.regularFiles logical).filter fun f => inc.fn f.path)
      (scanChildren data io inc entries real logical depth w).2 := by
  cases entries with
  | done =>
    rw [scanChildren]
    exact scanned_nil h
  | entry name node rest =>
    rw [scanChildren] at hok ⊢
    rw [Listing.regularFiles]
    by_cases hdot : isDotName name = true
    · rw [if_pos hdot] at hok ⊢
      rw [if_pos hdot, nil_append]
      exact scanned_children inc rest hlogical hlen h hok
    rw [if_neg hdot] at hok ⊢
    rw [if_neg hdot, filter_append]
    cases hreal : pathJoin pathMax real name with
    | none =>
      rw [hreal] at hok
      cases hok
    | some childReal =>
      cases hchild : pathJoin pathMax logical name with
      | none =>
        rw [hreal, hchild] at hok
        cases hok
      | some childLogical =>
        obtain ⟨hpath, hlen'⟩ := pathJoin_eq_some hchild hlogical
        rw [hreal, hchild] at hok
        dsimp only at hok ⊢
        cases hfirst : (scanTreeFiltered data io inc node childReal childLogical
          (depth + 1) w).1 with
        | false =>
          rw [hfirst, if_pos rfl] at hok
          cases hok
        | true =>
          rw [hfirst, if_neg (by decide)] at hok
          rw [if_neg (by decide), ← hpath]
          have hhead : childLogical.headD 0 = slash := by
            rw [hpath]
            exact headD_childPath hlogical name
          have htree := scanned_tree inc node hhead hlen' h hfirst
          exact htree.append (scanned_children inc rest hlogical hlen htree.wrote hok)

end

/-- A manifest that is reported as written, and the files that it is of: those of a tree, or
those that a refresh takes from the old and the new entries. -/
inductive Written (data : ℕ → UInt8) (io : ℕ → AppendAnswer) : List Tracked → List UInt8 → Prop
  | generated (root manifestPath : List UInt8) (inc : Include) (systemType : UInt64)
      (systemMade : Bool) (c : FileCalls) (tree : Node) (file : Option (List UInt8))
      (bytes : List UInt8)
      (h : generateManifestTo data io root manifestPath inc systemType systemMade c tree file =
        (true, some bytes)) :
      Written data io (includedFiles inc tree) bytes
  | refreshed (c : FileCalls) (old : List (ManifestEntry × UInt64 × FileAnswers))
      (new : List (ManifestEntry × FileAnswers)) (file : Option (List UInt8))
      (bytes : List UInt8)
      (h : refreshManifest data io c old new file = (true, some bytes)) :
      Written data io (tracked old new) bytes

/-- What a manifest that was written consists of. -/
structure WrittenAs (data : ℕ → UInt8) (line : Tracked → Option (List UInt8))
    (files : List Tracked) (bytes : List UInt8) : Prop where
  bytes_eq : bytes = text line files
  ne_nil : files ≠ []
  lines : ∀ f ∈ files, ∃ l, line f = some l ∧ fileLine data f = some l
  paths : ∀ f ∈ files, f.path.headD 0 = slash ∧ f.path.length < pathMax
  length_le : (text line files).length ≤ manifestMaxBytes

theorem length_text_le (h : AllOut (LineOut io line) [] files) :
    (text line files).length ≤ manifestMaxBytes := by
  induction files using List.reverseRecOn with
  | nil => exact Nat.zero_le _
  | append_singleton files f _ =>
    have hout := h files f [] rfl
    rw [nil_append] at hout
    obtain ⟨l, hl⟩ := Option.isSome_iff_exists.1 (isSome_of_lineOut hout)
    rw [ItemLog.text_append, ItemLog.text_cons, hl, Option.getD_some, ItemLog.text_nil,
      append_nil, length_append]
    exact ((lineOut_iff hl).1 hout).1

theorem exists_line (h : AllOut (LineOut io line) [] files)
    (hline : ∀ f l, line f = some l → fileLine data f = some l) :
    ∀ f ∈ files, ∃ l, line f = some l ∧ fileLine data f = some l := by
  intro f hf
  obtain ⟨before, after, hsplit⟩ := append_of_mem hf
  obtain ⟨l, hl⟩ := Option.isSome_iff_exists.1 (isSome_of_lineOut (h before f after hsplit))
  exact ⟨l, hl, hline f l hl⟩

theorem rootJoin_ne_none {root logical : List UInt8} {n : ℕ}
    (h : rootJoin n root logical ≠ none) (hroot : root ≠ [slash]) :
    logical.headD 0 = slash ∧ root.length + logical.length < n := by
  rw [rootJoin] at h
  by_cases hhead : logical.headD 0 ≠ slash
  · rw [if_pos hhead] at h
    exact absurd rfl h
  rw [if_neg hhead, if_neg hroot] at h
  dsimp only at h
  refine ⟨not_not.1 hhead, ?_⟩
  by_contra hlen
  rw [length_append, if_neg hlen] at h
  exact h rfl

theorem writtenAs_generated {root manifestPath : List UInt8} {inc : Include}
    {systemType : UInt64} {systemMade : Bool} {c : FileCalls} {tree : Node}
    {file : Option (List UInt8)} {bytes : List UInt8}
    (h : generateManifestTo data io root manifestPath inc systemType systemMade c tree file =
      (true, some bytes)) :
    WrittenAs data (fileLine data) (includedFiles inc tree) bytes := by
  rw [generateManifestTo] at h
  by_cases habsolute : root.headD 0 ≠ slash ∨ manifestPath.headD 0 ≠ slash
  · rw [if_pos habsolute] at h
    cases h
  by_cases hjoin : rootJoin pathMax root (lit "/system") = none
  · rw [if_neg habsolute, if_pos hjoin] at h
    cases h
  by_cases hsystem : root ≠ [slash] ∧ systemType ≠ 2 ∧ systemMade = false
  · rw [if_neg habsolute, if_neg hjoin, if_pos hsystem] at h
    cases h
  rw [if_neg habsolute, if_neg hjoin, if_neg hsystem] at h
  dsimp only at h
  cases hcreated : (recreate c file).1 with
  | false =>
    rw [if_pos hcreated] at h
    rw [h] at hcreated
    cases hcreated
  | true =>
    rw [if_neg (by rw [hcreated]; decide)] at h
    cases hscan : (scanTreeFiltered data io inc tree root [slash] 0 {}).1 with
    | false =>
      rw [if_pos hscan] at h
      cases h
    | true =>
      rw [if_neg (by rw [hscan]; decide), Prod.mk.injEq, decide_eq_true_iff,
        Option.some.injEq] at h
      obtain ⟨hfiles, hbytes⟩ := h
      have hall := @scanned_tree data io inc tree root [slash] 0 {} [] rfl (by decide)
        (wrote_nil _) hscan
      have hwrote := hall.wrote
      rw [nil_append] at hwrote
      refine ⟨hbytes.symm.trans hwrote.manifest_eq, ?_, exists_line hall.allOut fun _ _ h => h,
        hall.paths, length_text_le hall.allOut⟩
      intro hnil
      rw [hwrote.files_eq] at hfiles
      exact hfiles (congrArg List.length hnil)

theorem writtenAs_refreshed {c : FileCalls} {old : List (ManifestEntry × UInt64 × FileAnswers)}
    {new : List (ManifestEntry × FileAnswers)} {file : Option (List UInt8)} {bytes : List UInt8}
    (h : refreshManifest data io c old new file = (true, some bytes)) :
    WrittenAs data (targetLine data) (tracked old new) bytes := by
  cases hcreated : (recreate c file).1 with
  | false =>
    rw [refreshManifest, if_pos hcreated] at h
    rw [h] at hcreated
    cases hcreated
  | true =>
    rw [refreshManifest_eq c old new file hcreated, Prod.mk.injEq, Bool.and_eq_true,
      decide_eq_true_iff, Option.some.injEq] at h
    obtain ⟨⟨hok, hne⟩, hbytes⟩ := h
    have hall := ItemLog.write_fst_iff.1 hok
    have hlines := @exists_line data io (targetLine data) (tracked old new) hall
      fun _ _ h => (targetLine_eq_some h).2
    refine ⟨?_, hne, hlines, fun f hf => ?_, length_text_le hall⟩
    · rw [← hbytes, manifestOf, ItemLog.write_of_allOut hall]
    · obtain ⟨l, hl, -⟩ := hlines f hf
      obtain ⟨hhead, hlen⟩ := rootJoin_ne_none (targetLine_eq_some hl).1 (by decide)
      exact ⟨hhead, by omega⟩

/-- **Loading what was written.** A manifest that is reported as written is loaded as the
entries of its files, in order, just where no path has a separator of fields or lines and
there are no more files than the loader takes. -/
theorem manifest_loads_iff {bytes : List UInt8} (h : Written data io files bytes)
    {a : LoadAnswers} (hserves : Serves a bytes) (maxEntries : ℕ) (missingOk : Bool) :
    manifestLoad a maxEntries missingOk = some (files.map fileEntry) ↔
      (∀ f ∈ files, Plain f.path) ∧ files.length ≤ maxEntries := by
  cases h with
  | generated root manifestPath inc systemType systemMade c tree file _ h =>
    have hw := writtenAs_generated h
    exact load_text_iff hw.ne_nil hw.lines hw.paths hw.length_le (hw.bytes_eq ▸ hserves) _ _
  | refreshed c old new file _ h =>
    have hw := writtenAs_refreshed h
    exact load_text_iff hw.ne_nil hw.lines hw.paths hw.length_le (hw.bytes_eq ▸ hserves) _ _

/-- A tree with one empty file in its directory `/shell`. -/
def oneFile (name : List UInt8) : Node :=
  .dir (.entry (lit "shell") (.dir (.entry name (.file ⟨0, true, []⟩) .done)) .done)

/-- The line of an empty file. -/
def emptyLine (path : List UInt8) : List UInt8 := entryLine path 0 (hexDigits (sha256 []))

/-- Appends that take a line of `n` bytes. -/
def takes (n : ℕ) : ℕ → AppendAnswer := fun _ => ⟨UInt64.ofNat n, 0⟩

theorem length_emptyLine (path : List UInt8) : (emptyLine path).length = path.length + 68 := by
  have hhash : (hexDigits (sha256 [])).length = 64 := length_hexDigits _
  rw [emptyLine, entryLine]
  simp only [length_append, length_singleton, hhash]
  have hsize : (u64ToBase (0 : UInt64).toNat 10 false 96).length = 1 := by decide
  omega

theorem appendEntry_empty (hlen : path.length < pathMax) :
    manifestAppendEntry (fun _ => 0) (takes (path.length + 68)) ⟨0, true, []⟩ path {} =
      (true, ⟨1, 0, path.length + 68, emptyLine path⟩) := by
  have hhash : installSha256FileHex (fun _ => 0) true [] = some (hexDigits (sha256 [])) :=
    installSha256FileHex_eq _ _
  have hline := length_emptyLine path
  have hanswer : ((takes (path.length + 68) 0).answer.toNat) = path.length + 68 := by
    rw [pathMax] at hlen
    exact UInt64.toNat_ofNat_of_lt' ((by omega : path.length + 68 < 260).trans (by decide))
  rw [emptyLine] at hline
  simp only [pathMax] at hlen
  rw [manifestAppendEntry, if_neg (by decide), hhash]
  dsimp only
  rw [hline, hanswer, if_neg, if_neg, if_neg (by simp)]
  · simp [emptyLine]
  · simp only [manifestMaxBytes]
    omega
  · simp only [lineMax, pathMax, sha256HexLen]
    omega

theorem generate_oneFile {name : List UInt8} (hdot : isDotName name = false)
    (hjoin : pathJoin pathMax (lit "/shell") name = some (lit "/shell/" ++ name))
    (hskip : scanSkips (lit "/shell/" ++ name) = false)
    (hinc : Include.manifest.fn (lit "/shell/" ++ name) = true)
    (hlen : (lit "/shell/" ++ name).length < pathMax) :
    generateManifestTo (fun _ => 0) (takes ((lit "/shell/" ++ name).length + 68)) [slash]
      (lit "/temp/m") .manifest 2 true ⟨0, true, true⟩ (oneFile name) none =
      (true, some (emptyLine (lit "/shell/" ++ name))) := by
  have hshell : pathJoin pathMax [slash] (lit "shell") = some (lit "/shell") := by decide
  generalize lit "/shell/" ++ name = path at *
  rw [generateManifestTo, if_neg (by decide), if_neg (by decide), if_neg (by decide)]
  have hfile : scanTreeFiltered (fun _ => 0) (takes (path.length + 68)) .manifest
      (.file ⟨0, true, []⟩) path path 2 {} =
      (true, ⟨1, 0, path.length + 68, emptyLine path⟩) := by
    rw [scanTreeFiltered, if_neg (by decide), if_neg (by rw [hskip]; decide),
      if_neg (by rw [hinc]; decide), appendEntry_empty hlen]
  have hdir : scanTreeFiltered (fun _ => 0) (takes (path.length + 68)) .manifest
      (.dir (.entry name (.file ⟨0, true, []⟩) .done)) (lit "/shell") (lit "/shell") 1 {} =
      (true, ⟨1, 0, path.length + 68, emptyLine path⟩) := by
    rw [scanTreeFiltered, if_neg (by decide), if_neg (by decide), scanChildren,
      if_neg (by rw [hdot]; decide), hjoin]
    dsimp only
    rw [hfile]
    rfl
  have hscan : scanTreeFiltered (fun _ => 0) (takes (path.length + 68)) .manifest (oneFile name)
      [slash] [slash] 0 {} = (true, ⟨1, 0, path.length + 68, emptyLine path⟩) := by
    rw [oneFile, scanTreeFiltered, if_neg (by decide), if_neg (by decide), scanChildren,
      if_neg (by decide), hshell]
    dsimp only
    rw [hdir]
    rfl
  rw [hscan]
  rfl

theorem includedFiles_oneFile {name : List UInt8} (hdot : isDotName name = false)
    (hinc : Include.manifest.fn (lit "/shell/" ++ name) = true) :
    includedFiles .manifest (oneFile name) = [⟨lit "/shell/" ++ name, ⟨0, true, []⟩⟩] := by
  have hshell : isDotName (lit "shell") = false := by decide
  have hroot : childPath [slash] (lit "shell") = lit "/shell" := by decide
  have hname : childPath (lit "/shell") name = lit "/shell/" ++ name := by
    rw [childPath, if_neg (by decide), append_cons]
    rfl
  simp only [includedFiles, oneFile, Node.regularFiles, Listing.regularFiles, hshell, hdot, hroot,
    hname, Bool.false_eq_true, if_false, append_nil]
  exact filter_cons_of_pos hinc

/-- A loader that is served some bytes in one piece. -/
def servedAtOnce (bytes : List UInt8) : LoadAnswers :=
  ⟨UInt64.ofNat bytes.length, true, true, [some bytes]⟩

theorem serves_atOnce {bytes : List UInt8} (hne : bytes ≠ []) (hlen : bytes.length < 2 ^ 64) :
    Serves (servedAtOnce bytes) bytes :=
  ⟨UInt64.toNat_ofNat_of_lt' hlen, rfl, rfl, [bytes], [], by simpa using hne, by simp, rfl⟩

/-- A manifest with one plain path is read back. -/
theorem manifest_loads_plain :
    manifestLoad (servedAtOnce (emptyLine (lit "/shell/a"))) updateMaxEntries false =
      some [⟨lit "/shell/a", 0, hexDigits (sha256 [])⟩] := by
  have hwritten := Written.generated _ _ _ _ _ _ _ _ _ (@generate_oneFile (lit "a") (by decide)
    (by decide) (by decide) (by decide) (by decide))
  rw [includedFiles_oneFile (by decide) (by decide)] at hwritten
  have hlen := length_emptyLine (lit "/shell/a")
  have hpath : (lit "/shell/a").length = 8 := by decide
  have hserves : Serves (servedAtOnce (emptyLine (lit "/shell/a"))) (emptyLine (lit "/shell/a")) :=
    serves_atOnce (ne_nil_of_length_pos (by omega)) (by omega)
  refine (manifest_loads_iff hwritten hserves updateMaxEntries false).2 ⟨?_, by decide⟩
  intro f hf
  rw [mem_singleton.1 hf, plain_iff_all]
  decide

/-- A path with a bar in it is written and not read back. -/
theorem manifest_loses_bar :
    ∃ (tree : Node) (bytes : List UInt8), Written (fun _ => 0) (takes 78)
      (includedFiles .manifest tree) bytes ∧
      manifestLoad (servedAtOnce bytes) updateMaxEntries false ≠
        some ((includedFiles .manifest tree).map fileEntry) := by
  have hgenerate := @generate_oneFile (lit "a|b") (by decide) (by decide) (by decide) (by decide)
    (by decide)
  have hlen := length_emptyLine (lit "/shell/a|b")
  have hpath : (lit "/shell/a|b").length = 10 := by decide
  have hserves : Serves (servedAtOnce (emptyLine (lit "/shell/a|b")))
      (emptyLine (lit "/shell/a|b")) :=
    serves_atOnce (ne_nil_of_length_pos (by omega)) (by omega)
  refine ⟨oneFile (lit "a|b"), emptyLine (lit "/shell/a|b"),
    Written.generated _ _ _ _ _ _ _ _ _ hgenerate, fun hload => ?_⟩
  have hw := writtenAs_generated hgenerate
  have hplain := ((load_text_iff hw.ne_nil hw.lines hw.paths hw.length_le (hw.bytes_eq ▸ hserves)
    updateMaxEntries false).1 hload).1
  rw [includedFiles_oneFile (by decide) (by decide)] at hplain
  exact (hplain _ (mem_singleton.2 rfl) bar (by decide)).1 rfl

end Cleonos.Install
