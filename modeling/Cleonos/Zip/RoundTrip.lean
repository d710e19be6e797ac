import Cleonos.Unzip.Complete
import Cleonos.Zip.Written

/-!
# Packing and extracting

What `zip` packs and `unzip` extracts again.
-/

namespace Cleonos.Zip

open List Option
open Compat LexicalPath
open Unzip (Entry Archive Args World Final Lands SafeName place heldName IsDirName backslash nameMax)
open Kernel (kernelPath)

variable {env : ZipEnv} {tree : FileTree (List UInt8)} {cwd arg dst name c : List UInt8} {disk : Disk}
  {kernel : ℕ → Unzip.Answer} {archive : Archive} {args : Args} {w : World} {es : List Entry} {e : Entry}
  {t t' : FileTree (List UInt8)} {keys : List (List (List UInt8))}

def within (dst c : List UInt8) : List (List UInt8) := normalise (components dst) ++ [c]

/-- A directory with nothing in it. -/
structure EmptyDir (disk : FileTree (List UInt8)) (dst : List UInt8) : Prop where
  isDir : (kernelPath dst).bind disk.node = some .dir
  empty : ∀ c, disk.node (within dst c) = none

/-- The archive is extracted to an empty directory, by a reader that finds in it what the writer was
told. -/
structure Extraction (env : ZipEnv) (tree : FileTree (List UInt8)) (cwd arg : List UInt8)
    (disk : Disk) (archive : Archive) (args : Args) (w : World) : Prop where
  roundTrips : env.lib.RoundTrips (zipRun env tree cwd arg disk).calls
  path : archivePath cwd arg = some args.zipPath
  reads : archive.opens = true → ∃ opening file,
    mzOpen64 args.zipPath ⟨false, false⟩ ((zipRun env tree cwd arg disk).disk args.zipPath)
      opening = some file ∧
    archive.entries.map (fun e => (e.name, e.data)) = env.lib.contents file.content
  extract : args.extract = true
  empty : EmptyDir w.disk (cstr args.dstPath)

/-- The directory holds so many files, and those that were packed, each under the last part of its
path. -/
structure Unpacked (env : ZipEnv) (tree : FileTree (List UInt8)) (keys : List (List (List UInt8)))
    (n : ℕ) (dst : List UInt8) (disk : FileTree (List UInt8)) : Prop where
  count : ∃ names : List (List UInt8), names.Nodup ∧ names.length = n ∧
    ∀ c, (∃ data, disk.node (within dst c) = some (.file data)) ↔ c ∈ names
  present : ∀ key ∈ keys, ∃ data, bytesAt env tree key = some data ∧
    disk.node (within dst (baseName key)) = some (.file data)

/-- The names are different from each other, shorter than the buffer of the reader, and without
backslashes. -/
structure Apart (keys : List (List (List UInt8))) : Prop where
  nodup : (keys.map baseName).Nodup
  held : ∀ key ∈ keys, (baseName key).length < nameMax ∧ backslash ∉ baseName key

/-! ## The names that are held -/

theorem plain_take (h : Plain name) : Plain (name.take 159) := by
  have hshort (c : List UInt8) (hc : c.length < 159) (he : name.take 159 = c) : name = c := by
    rw [← he]
    refine (take_of_length_le ?_).symm
    have hlen := congrArg List.length he
    rw [length_take] at hlen
    omega
  refine ⟨?_, ?_, ?_, ?_⟩
  · exact fun he => h.ne_nil (hshort [] (by simp) he)
  · exact fun he => h.ne_dot (hshort [dot] (by simp) he)
  · exact fun he => h.ne_dotdot (hshort [dot, dot] (by simp) he)
  · exact fun hs => h.no_slash (mem_of_mem_take hs)

theorem safeName_iff (h : Plain c) : SafeName c ↔ backslash ∉ c := by
  constructor
  · exact fun hsafe => hsafe.no_backslash
  · intro hback
    refine ⟨h.ne_nil, ?_, hback, ?_⟩
    · exact fun hhead => h.no_slash (mem_of_mem_head? hhead)
    · rw [components_of_notMem h.ne_nil h.no_slash, mem_singleton]
      exact h.ne_dotdot.symm

theorem place_of_plain (h : Plain c) : place dst c = within dst c := by
  have hone : ∀ d ∈ [c], Plain d := fun d hd => mem_singleton.1 hd ▸ h
  rw [place, components_of_notMem h.ne_nil h.no_slash, normalise_of_plain hone]
  rfl

theorem lands_iff (h : Plain e.name) (hnul : (0 : UInt8) ∉ e.name) :
    Lands dst e (within dst c) ↔ backslash ∉ e.name.take 159 ∧ e.name.take 159 = c := by
  have hplain := plain_take h
  have hheld : heldName e.name = e.name.take 159 := by
    rw [Unzip.heldName_eq, cstr_of_notMem fun h0 => hnul (mem_of_mem_take h0)]
  have hfile : ¬ IsDirName (e.name.take 159) := fun hdir =>
    hplain.no_slash (mem_of_getLast? hdir)
  rw [Lands, hheld, safeName_iff hplain, and_iff_right hfile, place_of_plain hplain, within, within,
    append_cancel_left_eq, List.cons.injEq, and_iff_left rfl]

theorem file_iff (h : Final dst es t t') (hempty : ∀ c, t.node (within dst c) = none)
    (hplain : ∀ e ∈ es, Plain e.name ∧ (0 : UInt8) ∉ e.name) :
    (∃ data, t'.node (within dst c) = some (.file data)) ↔
      ∃ e ∈ es, backslash ∉ e.name.take 159 ∧ e.name.take 159 = c := by
  have hlands (e : Entry) (he : e ∈ es) := @lands_iff dst c e (hplain e he).1 (hplain e he).2
  cases hlast : (es.filter fun e => Lands dst e (within dst c)).getLast? with
  | some e =>
    obtain ⟨he, hland⟩ := mem_filter.1 (mem_of_getLast? hlast)
    have hnode := h.landed _ e hlast
    rw [hempty, if_neg (by simp)] at hnode
    exact iff_of_true ⟨e.data, hnode⟩ ⟨e, he, (hlands e he).1 (of_decide_eq_true hland)⟩
  | none =>
    refine iff_of_false ?_ ?_
    · rintro ⟨data, hnode⟩
      have hbefore := (h.others _ hlast data).1 hnode
      rw [hempty] at hbefore
      cases hbefore
    · rintro ⟨e, he, hland⟩
      have hmem : e ∈ es.filter fun e => Lands dst e (within dst c) :=
        mem_filter.2 ⟨he, decide_eq_true ((hlands e he).2 hland)⟩
      rw [List.getLast?_eq_none_iff.1 hlast] at hmem
      cases hmem

theorem node_of_alone (h : Final dst es t t') (hempty : ∀ c, t.node (within dst c) = none)
    (hplain : ∀ e ∈ es, Plain e.name ∧ (0 : UInt8) ∉ e.name) (he : e ∈ es)
    (hback : backslash ∉ e.name.take 159)
    (halone : ∀ e' ∈ es, e'.name.take 159 = e.name.take 159 → e'.data = e.data) :
    t'.node (within dst (e.name.take 159)) = some (.file e.data) := by
  have hlands (e' : Entry) (he' : e' ∈ es) :=
    @lands_iff dst (e.name.take 159) e' (hplain e' he').1 (hplain e' he').2
  cases hlast : (es.filter fun e' => Lands dst e' (within dst (e.name.take 159))).getLast? with
  | some e' =>
    obtain ⟨he', hland⟩ := mem_filter.1 (mem_of_getLast? hlast)
    have hnode := h.landed _ e' hlast
    rw [hempty, if_neg (by simp)] at hnode
    rw [hnode, halone e' he' ((hlands e' he').1 (of_decide_eq_true hland)).2]
  | none =>
    have hmem : e ∈ es.filter fun e' => Lands dst e' (within dst (e.name.take 159)) :=
      mem_filter.2 ⟨he, decide_eq_true ((hlands e he).2 ⟨hback, rfl⟩)⟩
    rw [List.getLast?_eq_none_iff.1 hlast] at hmem
    cases hmem

theorem IsInput.plain_baseName {key : List (List UInt8)} (h : IsInput env tree key) :
    Plain (baseName key) ∧ (0 : UInt8) ∉ baseName key := by
  have hmem : baseName key ∈ key := by
    rw [baseName, getLastD_eq_getLast?, List.getLast?_eq_some_getLast h.ne_nil,
      getD_some]
    exact getLast_mem h.ne_nil
  exact ⟨h.plain _ hmem, fun h0 => h.no_nul _ hmem 0 h0 rfl⟩

theorem unpacked_iff_apart (h : Final dst es t t') (hempty : ∀ c, t.node (within dst c) = none)
    (hkeys : ∀ key ∈ keys, IsInput env tree key)
    (hes : es.map (fun e => (e.name, e.data)) = keys.map (entryOf env tree)) :
    Unpacked env tree keys keys.length dst t' ↔ Apart keys := by
  have hentry (e : Entry) (he : e ∈ es) :
      ∃ key ∈ keys, e.name = baseName key ∧ e.data = (bytesAt env tree key).getD [] := by
    have hmem : (e.name, e.data) ∈ keys.map (entryOf env tree) :=
      hes ▸ mem_map_of_mem (f := fun e : Entry => (e.name, e.data)) he
    obtain ⟨key, hkey, heq⟩ := mem_map.1 hmem
    obtain ⟨hname, hdata⟩ := Prod.mk.inj heq
    exact ⟨key, hkey, hname.symm, hdata.symm⟩
  have hback (key : List (List UInt8)) (hkey : key ∈ keys) :
      ∃ e ∈ es, e.name = baseName key ∧ e.data = (bytesAt env tree key).getD [] := by
    have hmem : entryOf env tree key ∈ es.map fun e => (e.name, e.data) :=
      hes ▸ mem_map_of_mem hkey
    obtain ⟨e, he, heq⟩ := mem_map.1 hmem
    obtain ⟨hname, hdata⟩ := Prod.mk.inj heq
    exact ⟨e, he, hname, hdata⟩
  have hplain : ∀ e ∈ es, Plain e.name ∧ (0 : UInt8) ∉ e.name := by
    intro e he
    obtain ⟨key, hkey, hname, -⟩ := hentry e he
    exact hname ▸ (hkeys key hkey).plain_baseName
  constructor
  · intro hunpacked
    have hheld : ∀ key ∈ keys, (baseName key).length < nameMax ∧ backslash ∉ baseName key := by
      intro key hkey
      obtain ⟨data, -, hnode⟩ := hunpacked.present key hkey
      obtain ⟨e, -, hsafe, hname⟩ := (file_iff h hempty hplain).1 ⟨data, hnode⟩
      rw [← hname, nameMax, length_take]
      exact ⟨by omega, hsafe⟩
    refine ⟨?_, hheld⟩
    -- as many different names as there are files are all among the names of the files
    obtain ⟨names, hnodup, hlen, hnames⟩ := hunpacked.count
    have hsub : names ⊆ keys.map baseName := by
      intro c hc
      obtain ⟨e, he, -, rfl⟩ := (file_iff h hempty hplain).1 ((hnames c).2 hc)
      obtain ⟨key, hkey, hname, -⟩ := hentry e he
      have hshort := (hheld key hkey).1
      rw [nameMax] at hshort
      rw [hname, take_of_length_le (by omega)]
      exact mem_map_of_mem hkey
    have hperm := (List.Nodup.subperm hnodup hsub).perm_of_length_le (by rw [length_map, hlen])
    exact hperm.nodup_iff.1 hnodup
  · intro hapart
    have htake (e : Entry) (he : e ∈ es) :
        e.name.take 159 = e.name ∧ backslash ∉ e.name := by
      obtain ⟨key, hkey, hname, -⟩ := hentry e he
      obtain ⟨hshort, hsafe⟩ := hapart.held key hkey
      rw [nameMax] at hshort
      rw [hname]
      exact ⟨take_of_length_le (by omega), hsafe⟩
    constructor
    · refine ⟨keys.map baseName, hapart.nodup, length_map _, ?_⟩
      intro c
      rw [file_iff h hempty hplain]
      constructor
      · rintro ⟨e, he, -, rfl⟩
        obtain ⟨key, hkey, hname, -⟩ := hentry e he
        rw [(htake e he).1, hname]
        exact mem_map_of_mem hkey
      · intro hc
        obtain ⟨key, hkey, rfl⟩ := mem_map.1 hc
        obtain ⟨e, he, hname, -⟩ := hback key hkey
        rw [← hname]
        obtain ⟨hwhole, hsafe⟩ := htake e he
        exact ⟨e, he, by rw [hwhole]; exact hsafe, hwhole⟩
    · intro key hkey
      obtain ⟨e, he, hname, hdata⟩ := hback key hkey
      obtain ⟨bytes, hbytes⟩ := isSome_iff_exists.1 (hkeys key hkey).there
      obtain ⟨hwhole, hsafe⟩ := htake e he
      have hnode := node_of_alone h hempty hplain he (by rw [hwhole]; exact hsafe) (by
        intro e' he' hsame
        obtain ⟨key', hkey', hname', hdata'⟩ := hentry e' he'
        rw [(htake e' he').1, hwhole, hname', hname] at hsame
        rw [inj_on_of_nodup_map hapart.nodup hkey' hkey hsame] at hdata'
        rw [hdata', hdata])
      rw [hwhole, hname, hdata, hbytes] at hnode
      exact ⟨bytes, hbytes, hnode⟩

theorem opens_of_run (h : (Unzip.run kernel archive args w).1 = true) : archive.opens = true := by
  rw [Unzip.run] at h
  split at h
  · cases h
  · split at h
    · cases h
    · next hopen =>
        rw [not_or, Bool.not_eq_false] at hopen
        exact hopen.1

/-- If both commands report success, the directory holds the files that were packed, each under its
name, just if the names are different from each other, shorter than the buffer of the reader, and
without backslashes. -/
theorem unpacked_iff (harg : arg.length < argMax)
    (h : Extraction env tree cwd arg disk archive args w)
    (hzip : (zipRun env tree cwd arg disk).ok = true)
    (hunzip : (Unzip.run kernel archive args w).1 = true) :
    Unpacked env tree (inputs cwd arg) (zipRun env tree cwd arg disk).added (cstr args.dstPath)
        (Unzip.run kernel archive args w).2.disk ↔ Apart (inputs cwd arg) := by
  obtain ⟨hinput, hadded, hentries, hdisk⟩ := zipRun_spec harg hzip h.roundTrips.ne_nil
  obtain ⟨opening, file, hopen, hread⟩ := h.reads (opens_of_run hunzip)
  obtain ⟨-, -, -, content, hcontent, hview⟩ := mzOpen64_eq_some hopen
  rw [if_neg Bool.false_ne_true, hdisk _ h.path, Option.some.injEq] at hcontent
  have hfile : file.content = env.lib.bytes (zipRun env tree cwd arg disk).calls :=
    (congrArg View.content hview).trans hcontent.symm
  rw [hfile, h.roundTrips.contents, hentries] at hread
  rw [hadded]
  exact unpacked_iff_apart (Unzip.final_run h.extract (Prod.ext hunzip rfl)) h.empty.empty hinput
    hread

/-- Two directories with a file `x` in each of them, and a file `y` in the second one. -/
def sampleTree : FileTree (List UInt8) where
  node k :=
    if k = [] ∨ k = [lit "a"] ∨ k = [lit "b"] then some .dir
    else if k = [lit "a", lit "x"] then some (.file [1])
    else if k = [lit "b", lit "x"] ∨ k = [lit "b", lit "y"] then some (.file [2])
    else none
  root := if_pos (Or.inl rfl)
  parent k c h := by
    have hk : k = [] ∨ k = [lit "a"] ∨ k = [lit "b"] := by
      by_contra hne
      apply h
      have hcons (s t : List UInt8) (hs : s = lit "a" ∨ s = lit "b") : k ++ [c] ≠ [s, t] := by
        intro he
        have hpair : k ++ [c] = [s] ++ [t] := he
        obtain ⟨rfl, -⟩ := List.append_inj' hpair rfl
        rcases hs with rfl | rfl <;> simp at hne
      have hone (s : List UInt8) : k ++ [c] ≠ [s] := by
        intro he
        have hnil : k ++ [c] = [] ++ [s] := he
        obtain ⟨rfl, -⟩ := List.append_inj' hnil rfl
        simp at hne
      rw [if_neg (by simp [hone]), if_neg (hcons _ _ (Or.inl rfl)),
        if_neg (by rw [not_or]; exact ⟨hcons _ _ (Or.inr rfl), hcons _ _ (Or.inr rfl)⟩)]
    rw [if_pos hk]

/-- A writer that writes once, at the end; everything is granted. -/
def sampleEnv (packed : List Packed) : ZipEnv where
  kernel _ := ⟨true, 4096⟩
  device _ := []
  lib :=
    { does := fun calls => if calls.getLast? = some .close then [.write ⟨[80, 75], by decide⟩] else []
      contents := fun _ => packed }
  grants _ := true
  memory _ := some fun _ => 0
  opening := ⟨true, true, true, some fun _ => 0, true, true⟩
  closing := ⟨true, 2, none⟩

/-- The run for two files, the second one with this name. -/
def sampleRun (second : String) : ZipReport :=
  zipRun (sampleEnv [(lit "x", [1]), (lit second, [2])]) sampleTree (lit "/")
    (lit "z a/x b/" ++ lit second) fun _ => none

/-- The archive, extracted to an empty directory. -/
def sampleArchive (second : String) : Archive :=
  ⟨true, true, true, [Unzip.smallEntry (lit "x") 1, Unzip.smallEntry (lit second) 2]⟩

def sampleArgs : Args := ⟨lit "/z", lit "/d", true⟩

theorem sample_disk {second : String} (hsecond : second = "x" ∨ second = "y") :
    (zipRun (sampleEnv [(lit "x", [1]), (lit second, [2])]) sampleTree (lit "/")
      (lit "z a/x b/" ++ lit second) fun _ => none).disk sampleArgs.zipPath = some [80, 75] := by
  rcases hsecond with rfl | rfl <;> decide +kernel

theorem sample_extraction {second : String} (hsecond : second = "x" ∨ second = "y") :
    Extraction (sampleEnv [(lit "x", [1]), (lit second, [2])]) sampleTree (lit "/")
      (lit "z a/x b/" ++ lit second) (fun _ => none) (sampleArchive second) sampleArgs
      ⟨Unzip.smallDisk, 0⟩ := by
  constructor
  · rcases hsecond with rfl | rfl <;> constructor <;> decide +kernel
  · rcases hsecond with rfl | rfl <;> decide +kernel
  · intro _
    obtain ⟨file, hfile⟩ := isSome_iff_exists.1 (show (mzOpen64 sampleArgs.zipPath
      ⟨false, false⟩ (some [80, 75]) (sampleEnv []).opening).isSome = true by decide +kernel)
    refine ⟨(sampleEnv []).opening, file, ?_, rfl⟩
    rw [sample_disk hsecond]
    exact hfile
  · rfl
  · constructor
    · decide +kernel
    · intro c
      have hplace : within (cstr sampleArgs.dstPath) c = [lit "d", c] := by
        rw [within, show normalise (components (cstr sampleArgs.dstPath)) = [lit "d"] by
          decide +kernel]
        rfl
      rw [hplace]
      simp [Unzip.smallDisk]

def sampleExtracted (second : String) : Bool × World :=
  Unzip.run (fun _ => ⟨true, 4096⟩) (sampleArchive second) sampleArgs ⟨Unzip.smallDisk, 0⟩

/-- Two names: both files are there. -/
theorem unpacked_two : Unpacked (sampleEnv [(lit "x", [1]), (lit "y", [2])]) sampleTree
    [[lit "a", lit "x"], [lit "b", lit "y"]] 2 (lit "/d") (sampleExtracted "y").2.disk := by
  have hinputs : inputs (lit "/") (lit "z a/x b/" ++ lit "y") =
      [[lit "a", lit "x"], [lit "b", lit "y"]] := by decide +kernel
  have hadded : (sampleRun "y").added = 2 := by decide +kernel
  have hapart : Apart [[lit "a", lit "x"], [lit "b", lit "y"]] := by
    constructor <;> decide +kernel
  have hzip : (sampleRun "y").ok = true := by decide +kernel
  have hunzip : (sampleExtracted "y").1 = true := by decide +kernel
  have hall := (unpacked_iff (by decide +kernel) (sample_extraction (Or.inr rfl)) hzip hunzip).2
    (hinputs ▸ hapart)
  rw [hinputs] at hall
  exact hadded ▸ hall

/-- If both commands report success, the directory holds the files that were packed. -/
def UnpackLaw : Prop :=
  ∀ (env : ZipEnv) (tree : FileTree (List UInt8)) (cwd arg : List UInt8) (disk : Disk)
    (kernel : ℕ → Unzip.Answer) (archive : Archive) (args : Args) (w : World),
    arg.length < argMax → Extraction env tree cwd arg disk archive args w →
    (zipRun env tree cwd arg disk).ok = true → (Unzip.run kernel archive args w).1 = true →
      Unpacked env tree (inputs cwd arg) (zipRun env tree cwd arg disk).added (cstr args.dstPath)
        (Unzip.run kernel archive args w).2.disk

/-- One name: both commands report success, and the second file is in the place of the first. -/
theorem not_unpackLaw : ¬ UnpackLaw := by
  intro hlaw
  have hzip : (sampleRun "x").ok = true := by decide +kernel
  have hunzip : (sampleExtracted "x").1 = true := by decide +kernel
  have hunpacked := hlaw _ _ _ _ _ _ _ _ _ (by decide +kernel) (sample_extraction (Or.inl rfl)) hzip
    hunzip
  have hinput : [lit "a", lit "x"] ∈ inputs (lit "/") (lit "z a/x b/" ++ lit "x") := by
    decide +kernel
  obtain ⟨data, hbytes, hnode⟩ := hunpacked.present _ hinput
  have hfirst : some data = some [1] := hbytes.symm
  have hlast : some (Node.file data) = some (.file [2]) := by
    rw [← hnode]
    decide +kernel
  cases hfirst
  cases hlast

end Cleonos.Zip
