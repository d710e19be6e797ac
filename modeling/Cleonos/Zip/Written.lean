import Cleonos.Zip.Model
import Cleonos.Lib.Words

/-!
# What a successful packing has written

If `zip` reports success, then every call of the writer did well, and the archive has the bytes
that these calls make.
-/

namespace Cleonos.Zip

open List
open Attempt Compat Kernel LexicalPath Path Words

/-! ## The archive -/

/-- What a call that does well makes of a file. -/
def after (v : View) : MzCall → View
  | .read n => { v with pos := v.pos + ((v.content.drop v.pos).take n).length }
  | .write buf =>
    { v with
      content := ByteFile.writeAt 0 v.content v.pos buf.bytes
      pos := v.pos + buf.bytes.length }
  | .seek offset origin =>
    match v.base origin with
    | none => v
    | some b =>
      { v with
        content := v.content ++ List.replicate (b + offset.toNat - v.content.length) 0
        pos := b + offset.toNat }

/-- What the writer does for all the calls. -/
def Minizip.trace (lib : Minizip) (calls : List ZipCall) : List MzCall :=
  calls.inits.tail.flatMap lib.does

/-- The new archive behind the calls. -/
def Minizip.view (lib : Minizip) (calls : List ZipCall) : View :=
  (lib.trace calls).foldl after ⟨[], 0, true⟩

/-- The bytes of the archive that the calls make. -/
def Minizip.bytes (lib : Minizip) (calls : List ZipCall) : List UInt8 := (lib.view calls).content

/-- An entry more, or bytes for the last one, which comes first. -/
def entriesStep (acc : List Packed) : ZipCall → List Packed
  | .newFile name => (name, []) :: acc
  | .write bytes =>
    match acc with
    | [] => []
    | (name, data) :: acc => (name, data ++ bytes) :: acc
  | .closeFile => acc
  | .close => acc

/-- The entries that the writer is told of. -/
def entries (calls : List ZipCall) : List Packed := (calls.foldl entriesStep []).reverse

/-- The reader finds in the archive what the writer was told. -/
structure Minizip.RoundTrips (lib : Minizip) (calls : List ZipCall) : Prop where
  ne_nil : lib.bytes calls ≠ []
  contents : lib.contents (lib.bytes calls) = entries calls

variable {env : ZipEnv} {tree : FileTree (List UInt8)} {cwd arg path name data : List UInt8}
  {st st' : ZipState} {file : MzFile} {memory : Option (ℕ → UInt8)} {calls : List ZipCall}

variable {call : ZipCall}

theorem trace_concat {lib : Minizip} :
    lib.trace (calls ++ [call]) = lib.trace calls ++ lib.does (calls ++ [call]) := by
  have hne : calls.inits ≠ [] := by
    intro h
    have hlen := congrArg List.length h
    rw [length_inits] at hlen
    cases hlen
  rw [Minizip.trace, inits_append, tail_append_of_ne_nil hne, flatMap_append]
  simp [Minizip.trace]

theorem view_concat {lib : Minizip} :
    lib.view (calls ++ [call]) = (lib.does (calls ++ [call])).foldl after (lib.view calls) := by
  rw [Minizip.view, trace_concat, foldl_append]
  rfl

theorem error_of_didWell (h : MzWf file) {call : MzCall}
    (hwell : didWell call (mzStep file call memory).1 = true) :
    (mzStep file call memory).2.error = file.error := by
  have hpos := h.pos_le
  have hsize := h.size_le
  have hbound := h.bound
  cases call with
  | read n =>
    rw [mzStep]
    rw [mzRead]
    split <;> rfl
  | write buf =>
    simp only [mzStep, didWell, decide_eq_true_eq] at hwell ⊢
    rw [mzWrite] at hwell ⊢
    by_cases hforbid : file.writable = false
    · rw [if_pos hforbid]
    rw [if_neg hforbid] at hwell ⊢
    -- a call that writes nothing needs no memory
    have hempty (hzero : 0 = buf.bytes.length) :
        (file.pos + buf.bytes.length) % 2 ^ 64 = file.pos := by
      rw [← hzero, Nat.add_zero, Nat.mod_eq_of_lt (by omega)]
    by_cases hover : (file.pos + buf.bytes.length) % 2 ^ 64 < file.pos
    · rw [if_pos hover] at hwell
      have := hempty hwell
      omega
    rw [if_neg hover] at hwell ⊢
    cases hgrow : mzGrow file ((file.pos + buf.bytes.length) % 2 ^ 64) memory with
    | none =>
      rw [hgrow] at hwell
      rw [hempty hwell, mzGrow, if_pos (by omega)] at hgrow
      cases hgrow
    | some file' => exact (mzGrow_fields hgrow).2.2
  | seek offset origin =>
    simp only [mzStep, didWell] at hwell ⊢
    rw [mzSeek64] at hwell ⊢
    split
    · rfl
    · next base hbase =>
        rw [hbase] at hwell
        dsimp only at hwell ⊢
        by_cases hover : (base + offset.toNat) % 2 ^ 64 < base
        · rw [if_pos hover]
        rw [if_neg hover] at hwell ⊢
        by_cases hforbid : (base + offset.toNat) % 2 ^ 64 > file.size ∧ file.writable = false
        · rw [if_pos hforbid]
        rw [if_neg hforbid] at hwell ⊢
        cases hgrow : (if (base + offset.toNat) % 2 ^ 64 > file.capacity then
            mzGrow file ((base + offset.toNat) % 2 ^ 64) memory else some file) with
        | none =>
          rw [hgrow] at hwell
          cases hwell
        | some file' =>
          have herror : file'.error = file.error := by
            split at hgrow
            · exact (mzGrow_fields hgrow).2.2
            · cases hgrow
              rfl
          dsimp only
          split
          · exact herror
          · exact herror

theorem view_of_didWell (h : MzWf file) (hwrite : file.writable = true) {call : MzCall}
    (hwell : didWell call (mzStep file call memory).1 = true) :
    (mzStep file call memory).2.view = after file.view call := by
  have hdoes := (mzStep_does h call memory).1
  have hpos : file.view.pos ≤ file.view.content.length := by
    rw [show file.view.content.length = file.size from file.length_content]
    exact h.pos_le
  generalize (mzStep file call memory).2.view = v' at hdoes ⊢
  generalize (mzStep file call memory).1 = answer at hdoes hwell
  have hsame {buf : Chunk} (hzero : 0 = buf.bytes.length) :
      file.view = after file.view (.write buf) := by
    have hnil : buf.bytes = [] := length_eq_zero_iff.1 hzero.symm
    simp [after, hnil, ByteFile.writeAt, Nat.sub_eq_zero_of_le hpos]
  cases hdoes with
  | read n => rfl
  | write _ => rfl
  | writeForbidden hforbid =>
    rw [show file.view.writable = true from hwrite] at hforbid
    cases hforbid
  | writeRefused _ => exact hsame (of_decide_eq_true hwell)
  | seek hbase _ => rw [after, hbase]
  | seekUnknown _ => cases hwell
  | seekForbidden _ _ _ => cases hwell
  | seekRefused _ _ => cases hwell

/-- What calls that do well leave. -/
structure Does (file file' : MzFile) (calls : List MzCall) : Prop where
  wf : MzWf file'
  view : file'.view = calls.foldl after file.view
  writable : file'.writable = true
  error : file'.error = file.error
  path : file'.path = file.path

theorem mzRun_doesWell (h : MzWf file) (hwrite : file.writable = true)
    {calls : List (MzCall × Option (ℕ → UInt8))}
    (hwell : (mzRun file calls).1.all (fun r => didWell r.1 r.2.2) = true) :
    Does file (mzRun file calls).2 (calls.map Prod.fst) := by
  induction calls generalizing file with
  | nil => exact ⟨h, rfl, hwrite, rfl, rfl⟩
  | cons call calls ih =>
    rw [mzRun] at hwell
    simp only [all_cons, Bool.and_eq_true] at hwell
    have hstep := mzStep_does h call.1 call.2
    have hmarks := mzStep_marks h call.1 call.2
    have hrest := ih hstep.2 (hmarks.writable.trans hwrite) hwell.2
    refine ⟨hrest.wf, ?_, hrest.writable, hrest.error.trans (error_of_didWell h hwell.1),
      hrest.path.trans hmarks.path⟩
    rw [map_cons, foldl_cons, ← view_of_didWell h hwrite hwell.1]
    exact hrest.view

/-- The archive is what the calls so far make. -/
structure Writing (env : ZipEnv) (outPath : List UInt8) (st : ZipState) : Prop where
  wf : MzWf st.file
  view : st.file.view = env.lib.view st.calls
  writable : st.file.writable = true
  error : st.file.error = false
  path : st.file.path = outPath

variable {outPath : List UInt8}

theorem zipCall_spec (h : Writing env outPath st) (hok : zipCall env call st = (true, st')) :
    Writing env outPath st' ∧ st'.calls = st.calls ++ [call] ∧ st'.added = st.added := by
  rw [zipCall] at hok
  obtain ⟨hwell, rfl⟩ := Prod.mk.inj hok
  rw [Bool.and_eq_true] at hwell
  have hdoes := mzRun_doesWell h.wf h.writable hwell.1
  refine ⟨⟨hdoes.wf, ?_, hdoes.writable, hdoes.error.trans h.error, hdoes.path.trans h.path⟩,
    rfl, rfl⟩
  rw [hdoes.view, h.view, view_concat, mapIdx_eq_zipIdx_map]
  simp [Function.comp_def]

/-- What a part of the run tells the writer. -/
structure Tells (env : ZipEnv) (outPath : List UInt8) (more : List ZipCall) (n : ℕ)
    (st st' : ZipState) : Prop where
  writing : Writing env outPath st'
  calls : st'.calls = st.calls ++ more
  added : st'.added = st.added + n

theorem Tells.trans {more more' : List ZipCall} {n n' : ℕ} {st'' : ZipState}
    (h : Tells env outPath more n st st') (h' : Tells env outPath more' n' st' st'') :
    Tells env outPath (more ++ more') (n + n') st st'' where
  writing := h'.writing
  calls := by rw [h'.calls, h.calls, append_assoc]
  added := by rw [h'.added, h.added, Nat.add_assoc]

theorem zipCall_tells (h : Writing env outPath st)
    (hok : zipCall env call st = (true, st')) : Tells env outPath [call] 0 st st' := by
  obtain ⟨hwriting, hcalls, hadded⟩ := zipCall_spec h hok
  exact ⟨hwriting, hcalls, hadded⟩

theorem zipWriteLoop_tells {fuel : ℕ} (h : Writing env outPath st)
    (hok : zipWriteLoop env fuel data st = (true, st')) :
    ∃ pieces : List (List UInt8), pieces.flatten = data ∧
      Tells env outPath (pieces.map .write) 0 st st' := by
  induction fuel generalizing data st with
  | zero => cases hok
  | succ fuel ih =>
    rw [zipWriteLoop] at hok
    simp only [fdRead] at hok
    have hkeep : Writing env outPath { st with kernelCalls := st.kernelCalls + 1 } :=
      ⟨h.wf, h.view, h.writable, h.error, h.path⟩
    by_cases hread : (env.kernel st.kernelCalls).allows = true
    · rw [if_pos hread] at hok
      dsimp only at hok
      have hcount : 0 < min zipBufSize (max 1 (env.kernel st.kernelCalls).takes) := by
        rw [zipBufSize]
        omega
      generalize min zipBufSize (max 1 (env.kernel st.kernelCalls).takes) = n at hok hcount
      by_cases hend : data.take n = []
      · rw [if_pos hend] at hok
        obtain ⟨-, rfl⟩ := Prod.mk.inj hok
        have hnil : data = [] := (take_eq_nil_iff.1 hend).resolve_left (by omega)
        exact ⟨[], hnil.symm, hkeep, (append_nil _).symm, rfl⟩
      · rw [if_neg hend] at hok
        obtain ⟨mid, hcall, hrest⟩ := andThen_eq_true.1 hok
        have hfirst := zipCall_tells hkeep hcall
        obtain ⟨pieces, hpieces, htells⟩ := ih hfirst.writing hrest
        refine ⟨data.take n :: pieces, ?_, ?_⟩
        · rw [flatten_cons, hpieces]
          by_cases hn : n ≤ data.length
          · rw [length_take, Nat.min_eq_left hn, take_append_drop]
          · rw [take_of_length_le (by omega), drop_length, append_nil]
        · have hboth := hfirst.trans htells
          exact ⟨hboth.writing, hboth.calls, hboth.added⟩
    · rw [if_neg hread] at hok
      cases hok

/-- The bytes at a place: those of a file, or those that a device gives. -/
def bytesAt (env : ZipEnv) (tree : FileTree (List UInt8)) (key : List (List UInt8)) :
    Option (List UInt8) :=
  match tree.node key with
  | some (.file data) => some data
  | some .device => some (env.device key)
  | _ => none

def baseName (key : List (List UInt8)) : List UInt8 := key.getLastD []

/-- The places that the words of the argument lead to, from the current directory. The first word is
the archive. -/
def inputs (cwd arg : List UInt8) : List (List (List UInt8)) :=
  (words Libc.isspace (cstr arg)).tail.map fun word => normalise (joined cwd word)

theorem zipBasenameLoop_append {front last : List UInt8} (hlast : slash ∉ last) :
    zipBasenameLoop name (front ++ slash :: last) = last := by
  have hrest (s name : List UInt8) (hs : slash ∉ s) : zipBasenameLoop name s = name := by
    induction s with
    | nil => rfl
    | cons c s ih =>
      rw [mem_cons, not_or] at hs
      rw [zipBasenameLoop, if_neg (Ne.symm hs.1), ih hs.2]
  induction front generalizing name with
  | nil => rw [nil_append, zipBasenameLoop, if_pos rfl, hrest last last hlast]
  | cons c front ih =>
    rw [cons_append, zipBasenameLoop]
    split
    · exact ih
    · exact ih

theorem zipBasename_render {key : List (List UInt8)} (hkey : key ≠ []) (h : ∀ c ∈ key, Plain c) :
    zipBasename (render key) = baseName key := by
  obtain ⟨init, c, rfl⟩ := (eq_nil_or_concat key).resolve_left hkey
  rw [concat_eq_append] at h ⊢
  rw [zipBasename, render_concat, zipBasenameLoop_append (h c (by simp)).no_slash, baseName,
    getLastD_eq_getLast?, List.getLast?_concat]
  rfl

theorem key_of_render {key key' : List (List UInt8)} (h : ∀ c ∈ key, Plain c)
    (hkernel : kernelPath (render key) = some key') : key' = key := by
  rw [(kernelPath_eq_some hkernel).2.2, components_render h, normalise_of_plain h]

/-- An entry, as the reader should find it. -/
def entryOf (env : ZipEnv) (tree : FileTree (List UInt8)) (key : List (List UInt8)) : Packed :=
  (baseName key, (bytesAt env tree key).getD [])

theorem entries_file {pieces : List (List UInt8)} :
    entries (calls ++ ([.newFile name] ++ (pieces.map .write ++ [.closeFile]))) =
      entries calls ++ [(name, pieces.flatten)] := by
  have hpieces (acc : List Packed) (data : List UInt8) :
      (pieces.map ZipCall.write).foldl entriesStep ((name, data) :: acc) =
        (name, data ++ pieces.flatten) :: acc := by
    induction pieces generalizing data with
    | nil => simp
    | cons piece pieces ih =>
      rw [map_cons, foldl_cons, entriesStep, ih, flatten_cons, append_assoc]
  rw [entries, entries, foldl_append, foldl_append, foldl_append]
  simp [entriesStep, hpieces]

theorem fdOpen_eq_some {left : List UInt8} (h : fdOpen env tree path st = (some left, st')) :
    ∃ key, kernelPath path = some key ∧ bytesAt env tree key = some left ∧
      st' = { st with kernelCalls := st.kernelCalls + 1 } := by
  rw [fdOpen] at h
  cases hkey : kernelPath path with
  | none =>
    rw [hkey] at h
    cases h
  | some key =>
    rw [hkey] at h
    dsimp only at h
    refine ⟨key, rfl, ?_⟩
    rw [bytesAt]
    cases hnode : tree.node key with
    | none =>
      rw [hnode] at h
      cases h
    | some node =>
      rw [hnode] at h
      by_cases hallow : (env.kernel st.kernelCalls).allows = true
      · simp only [hallow, if_true] at h
        cases node with
        | dir => cases h
        | file bytes =>
          cases h
          exact ⟨rfl, rfl⟩
        | device =>
          cases h
          exact ⟨rfl, rfl⟩
      · simp only [hallow] at h
        cases node <;> cases h

theorem zipAddFile_tells (h : Writing env outPath st)
    (hok : zipAddFile env tree path name st = (true, st')) :
    ∃ key, ∃ pieces : List (List UInt8), kernelPath path = some key ∧
      bytesAt env tree key = some pieces.flatten ∧
      Tells env outPath ([.newFile name] ++ (pieces.map .write ++ [.closeFile])) 0 st st' := by
  obtain ⟨opened, hnew, hrest⟩ := andThen_eq_true.1 hok
  have hfirst := zipCall_tells h hnew
  cases hwrite : zipWriteAllFile env tree path opened with
  | mk ok written =>
    rw [hwrite] at hrest
    cases ok with
    | false => cases hrest
    | true =>
      rw [zipWriteAllFile] at hwrite
      cases hfd : fdOpen env tree path opened with
      | mk left reading =>
        rw [hfd] at hwrite
        cases left with
        | none => cases hwrite
        | some left =>
          obtain ⟨key, hkey, hbytes, rfl⟩ := fdOpen_eq_some hfd
          have hkeep : Writing env outPath
              { opened with kernelCalls := opened.kernelCalls + 1 } :=
            ⟨hfirst.writing.wf, hfirst.writing.view, hfirst.writing.writable,
              hfirst.writing.error, hfirst.writing.path⟩
          obtain ⟨pieces, rfl, hpieces⟩ := zipWriteLoop_tells hkeep hwrite
          have hmiddle : Tells env outPath (pieces.map .write) 0 opened written :=
            ⟨hpieces.writing, hpieces.calls, hpieces.added⟩
          have hlast := zipCall_tells hmiddle.writing hrest
          exact ⟨key, pieces, hkey, hbytes, hfirst.trans (hmiddle.trans hlast)⟩

/-- A file that the argument names. -/
structure IsInput (env : ZipEnv) (tree : FileTree (List UInt8)) (key : List (List UInt8)) :
    Prop where
  ne_nil : key ≠ []
  plain : ∀ c ∈ key, Plain c
  no_nul : ∀ c ∈ key, ∀ b ∈ c, b ≠ 0
  there : (bytesAt env tree key).isSome

theorem zipInput_tells {fileArg : List UInt8} (h : Writing env outPath st)
    (hok : zipInput env tree cwd fileArg st = (true, st')) :
    IsInput env tree (normalise (joined cwd fileArg)) ∧ ∃ more,
      Tells env outPath more 1 st st' ∧ ∀ calls, entries (calls ++ more) =
        entries calls ++ [entryOf env tree (normalise (joined cwd fileArg))] := by
  have hplain : ∀ c ∈ normalise (joined cwd fileArg), Plain c := plain_normalise _
  rw [zipInput, ushResolvePath_eq] at hok
  by_cases hfit : Fits pathMax [] (joined cwd fileArg)
  · rw [if_pos hfit] at hok
    dsimp only at hok
    split at hok
    · cases hok
    · obtain ⟨mid, hadd, hcount⟩ := andThen_eq_true.1 hok
      cases hcount
      obtain ⟨key, pieces, hkey, hbytes, htells⟩ := zipAddFile_tells h hadd
      have hsame := key_of_render hplain hkey
      subst hsame
      have hne : normalise (joined cwd fileArg) ≠ [] := by
        intro hnil
        rw [hnil, bytesAt, tree.root] at hbytes
        cases hbytes
      refine ⟨⟨hne, hplain, no_nul_normalise cwd fileArg, by rw [hbytes]; rfl⟩, _,
        ⟨⟨htells.writing.wf, htells.writing.view, htells.writing.writable, htells.writing.error,
          htells.writing.path⟩, htells.calls, congrArg (· + 1) htells.added⟩, ?_⟩
      intro calls
      rw [entries_file, zipBasename_render hne hplain, entryOf, hbytes]
      rfl
  · rw [if_neg hfit] at hok
    cases hok

theorem ushSplitFirstAndRest_eq {s : List UInt8} (hlen : s.length < pathMax) :
    Vim.ushSplitFirstAndRest s pathMax =
      if word Libc.isspace (cstr s) = [] then none
      else some (word Libc.isspace (cstr s), behind Libc.isspace (cstr s)) := by
  have hnil : (cstr s).dropWhile Libc.isspace = [] ↔ word Libc.isspace (cstr s) = [] :=
    not_iff_not.1 word_ne_nil_iff.symm
  have hword := (length_word_le Libc.isspace (cstr s)).trans (length_cstr_le s)
  rw [Vim.ushSplitFirstAndRest]
  by_cases hspaces : word Libc.isspace (cstr s) = []
  · rw [if_pos (.inr (hnil.2 hspaces)), if_pos hspaces]
  · rw [if_neg (by rw [hnil, pathMax]; simp [hspaces]), if_neg hspaces,
      take_of_length_le (by rw [pathMax] at hlen ⊢; rw [Words.word] at hword; omega)]
    rfl

theorem words_cases (s : List UInt8) :
    word Libc.isspace s = [] ∧ words Libc.isspace s = [] ∨
      word Libc.isspace s ≠ [] ∧
        words Libc.isspace s = word Libc.isspace s :: words Libc.isspace (behind Libc.isspace s) := by
  by_cases h : word Libc.isspace s = []
  · exact .inl ⟨h, words_eq_nil h⟩
  · exact .inr ⟨h, words_eq_cons h⟩

theorem zipLoop_tells {fuel : ℕ} {rest : List UInt8} (hnul : (0 : UInt8) ∉ rest)
    (hlen : rest.length < pathMax) (h : Writing env outPath st)
    (hok : zipLoop env tree cwd fuel rest st = (true, st')) :
    (∀ w ∈ words Libc.isspace rest, IsInput env tree (normalise (joined cwd w))) ∧ ∃ more,
      Tells env outPath more (words Libc.isspace rest).length st st' ∧
      ∀ calls, entries (calls ++ more) = entries calls ++
        (words Libc.isspace rest).map fun w => entryOf env tree (normalise (joined cwd w)) := by
  induction fuel generalizing rest st with
  | zero => cases hok
  | succ fuel ih =>
    rw [zipLoop] at hok
    by_cases hend : rest = []
    · rw [if_pos hend] at hok
      rw [succeed_eq_true.1 hok, hend]
      refine ⟨?_, [], ⟨h, (append_nil _).symm, rfl⟩, ?_⟩
      · intro w hw
        cases hw
      · intro calls
        rw [append_nil]
        exact (append_nil _).symm
    rw [if_neg hend, ushSplitFirstAndRest_eq hlen, cstr_of_notMem hnul] at hok
    obtain ⟨hnone, -⟩ | ⟨hsome, hwords⟩ := words_cases rest
    · rw [if_pos hnone] at hok
      cases hok
    rw [if_neg hsome] at hok
    obtain ⟨mid, hinput, hloop⟩ := andThen_eq_true.1 hok
    obtain ⟨hisinput, first, hfirst, hentry⟩ := zipInput_tells h hinput
    obtain ⟨hall, more, hmore, hentries⟩ := ih (fun h0 => hnul (behind_subset h0))
      (lt_of_le_of_lt (length_behind_le _ _) hlen) hfirst.writing hloop
    rw [hwords]
    refine ⟨?_, first ++ more, ?_, ?_⟩
    · intro w hw
      rcases mem_cons.1 hw with rfl | hw
      · exact hisinput
      · exact hall w hw
    · rw [length_cons, Nat.add_comm]
      exact hfirst.trans hmore
    · intro calls
      rw [← append_assoc, hentries, hentry, map_cons, append_assoc]
      rfl

/-- The path of the archive that the argument names. -/
def archivePath (cwd arg : List UInt8) : Option (List UInt8) :=
  (Vim.ushSplitFirstAndRest arg pathMax).bind fun p =>
    ushResolvePath cwd p.1 (fun _ => 0) pathMax

/-- `USH_ARG_MAX`. -/
def argMax : ℕ := 160

theorem length_of_ushResolvePath {word : List UInt8}
    (h : ushResolvePath cwd word (fun _ => 0) pathMax = some path) : path.length < pathMax := by
  rw [ushResolvePath_eq] at h
  by_cases hfit : Fits pathMax [] (joined cwd word)
  · rw [if_pos hfit] at h
    cases h
    exact hfit _ ((mem_inits _ _).2 (prefix_refl _))
  · rw [if_neg hfit] at h
    cases h

theorem entries_close : entries (calls ++ [.close]) = entries calls := by
  rw [entries, foldl_append]
  rfl

theorem zipClose_eq_true {disk disk' : Disk} (h : Writing env outPath st)
    (hne : env.lib.bytes (st.calls ++ [.close]) ≠ [])
    (hok : zipClose env st disk = (true, st', disk')) :
    st'.calls = st.calls ++ [.close] ∧ st'.added = st.added ∧
      disk' outPath = some (env.lib.bytes st'.calls) := by
  rw [zipClose] at hok
  obtain ⟨hboth, hrest⟩ := Prod.mk.inj hok
  obtain ⟨rfl, rfl⟩ := Prod.mk.inj hrest
  rw [Bool.and_eq_true] at hboth
  obtain ⟨hwriting, hcalls, hadded⟩ := zipCall_spec h (eq_of_fst hboth.1)
  have hcontent : (zipCall env .close st).2.file.content =
      env.lib.bytes (zipCall env .close st).2.calls := congrArg View.content hwriting.view
  refine ⟨hcalls, hadded, ?_⟩
  rw [hcalls] at hcontent ⊢
  have hclose := hboth.2
  have hsize := (zipCall env .close st).2.file.length_content
  rw [mzClose, if_pos ⟨hwriting.writable, hwriting.error⟩] at hclose ⊢
  dsimp only at hclose ⊢
  rw [hwriting.path, Function.update_self]
  cases hwritten : env.closing.written with
  | true => rw [if_pos rfl, hcontent]
  | false =>
    -- an empty archive would be closed without being written
    rw [hwritten, decide_eq_true_eq, if_neg Bool.false_ne_true] at hclose
    rw [hcontent, ← hclose, length_eq_zero_iff] at hsize
    exact absurd hsize hne

theorem zipRun_spec {disk : Disk} (harg : arg.length < argMax)
    (hok : (zipRun env tree cwd arg disk).ok = true)
    (hne : env.lib.bytes (zipRun env tree cwd arg disk).calls ≠ []) :
    (∀ key ∈ inputs cwd arg, IsInput env tree key) ∧
      (zipRun env tree cwd arg disk).added = (inputs cwd arg).length ∧
      entries (zipRun env tree cwd arg disk).calls =
        (inputs cwd arg).map (entryOf env tree) ∧
      ∀ outPath, archivePath cwd arg = some outPath →
        (zipRun env tree cwd arg disk).disk outPath =
          some (env.lib.bytes (zipRun env tree cwd arg disk).calls) := by
  have hlen : arg.length < pathMax := harg.trans (by decide)
  have hrest : (behind Libc.isspace (cstr arg)).length < pathMax :=
    lt_of_le_of_lt ((length_behind_le _ _).trans (length_cstr_le arg)) hlen
  have hnul : (0 : UInt8) ∉ behind Libc.isspace (cstr arg) :=
    fun h0 => notMem_cstr arg (behind_subset h0)
  rw [archivePath, inputs]
  rw [zipRun, ushSplitFirstAndRest_eq hlen] at hok hne ⊢
  obtain ⟨hnone, -⟩ | ⟨hsome, hwords⟩ := words_cases (cstr arg)
  · rw [if_pos hnone] at hok
    cases hok
  rw [if_neg hsome] at hok hne ⊢
  rw [hwords, tail_cons, Option.bind_some]
  dsimp only at hok hne ⊢
  generalize behind Libc.isspace (cstr arg) = rest at *
  cases hpath : ushResolvePath cwd (word Libc.isspace (cstr arg)) (fun _ => 0) pathMax with
  | none =>
    rw [hpath] at hok
    cases hok
  | some outPath =>
    rw [hpath] at hok hne
    dsimp only at hok hne ⊢
    by_cases hend : rest = []
    · rw [if_pos hend] at hok
      cases hok
    rw [if_neg hend] at hok hne ⊢
    cases hopen : mzOpen64 outPath ⟨true, true⟩ (disk outPath) env.opening with
    | none =>
      rw [hopen] at hok
      cases hok
    | some file =>
      rw [hopen] at hok hne
      dsimp only at hok hne ⊢
      rw [Bool.and_eq_true] at hok
      obtain ⟨hwf, herror, hname, content, hnew, hview⟩ := mzOpen64_eq_some hopen
      have hcontent : content = [] := hnew
      have hshort := length_of_ushResolvePath hpath
      have hstart : Writing env outPath ⟨file, [], 0, 0, 0⟩ := by
        refine ⟨hwf, ?_, congrArg View.writable hview, herror, ?_⟩
        · rw [hview, hcontent]
          rfl
        · rw [hname, take_of_length_le (by rw [pathMax] at hshort; omega)]
      obtain ⟨hall, more, hmore, hentries⟩ :=
        zipLoop_tells hnul hrest hstart (eq_of_fst hok.1)
      generalize zipLoop env tree cwd (rest.length + 1) rest ⟨file, [], 0, 0, 0⟩ = packed at *
      have hcall : (zipClose env packed.2 disk).2.1.calls = packed.2.calls ++ [.close] := rfl
      obtain ⟨-, hadded, hdisk⟩ := zipClose_eq_true hmore.writing (hcall ▸ hne)
        (Prod.ext hok.2 rfl)
      have hcalls : packed.2.calls = more := hmore.calls.trans (nil_append _)
      refine ⟨?_, ?_, ?_, ?_⟩
      · intro key hkey
        obtain ⟨w, hw, rfl⟩ := mem_map.1 hkey
        exact hall w hw
      · refine hadded.trans (hmore.added.trans ?_)
        rw [length_map, Nat.zero_add]
      · have hall' := hentries []
        rw [nil_append] at hall'
        rw [hcall, entries_close, hcalls, hall', map_map]
        rfl
      · intro path harchive
        cases harchive
        exact hdisk

end Cleonos.Zip
