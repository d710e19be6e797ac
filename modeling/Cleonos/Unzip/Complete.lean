import Cleonos.Unzip.Names

/-!
# What a successful extraction leaves

A run that reports success has put every entry where the name leads that the buffer holds, one
after the other.
-/

namespace Cleonos.Unzip

open List
open LexicalPath Attempt Kernel

variable {kernel : ℕ → Answer} {path out front rest name dst buf data : List UInt8}
  {fd key base goal k : List (List UInt8)} {pieces : List (List UInt8)} {w w' : World} {e : Entry}
  {archive : Archive} {args : Args} {entries : List Entry}

def IsDirName (name : List UInt8) : Prop := name.getLast? = some slash

instance (name : List UInt8) : Decidable (IsDirName name) :=
  inferInstanceAs (Decidable (_ = _))

/-- The entry is a file, and is put at `k`. -/
def Lands (dst : List UInt8) (e : Entry) (k : List (List UInt8)) : Prop :=
  SafeName (heldName e.name) ∧ ¬ IsDirName (heldName e.name) ∧ place dst (heldName e.name) = k

instance (dst : List UInt8) (e : Entry) (k : List (List UInt8)) : Decidable (Lands dst e k) :=
  inferInstanceAs (Decidable (_ ∧ _ ∧ _))

/-- The entry is a directory at `k`, or lies below it. -/
def Enters (dst : List UInt8) (e : Entry) (k : List (List UInt8)) : Prop :=
  SafeName (heldName e.name) ∧ k <+: place dst (heldName e.name) ∧
    (IsDirName (heldName e.name) ∨ k ≠ place dst (heldName e.name))

/-- Every entry with a safe name is there under it with its bytes, and files of different names
are different files. -/
structure Complete (dst : List UInt8) (entries : List Entry)
    (disk : FileTree (List UInt8)) : Prop where
  present : ∀ e ∈ entries, SafeName e.name → disk.node (place dst e.name) =
    some (if IsDirName e.name then .dir else .file e.data)
  apart : ∀ e ∈ entries, ∀ e' ∈ entries, SafeName e.name → SafeName e'.name →
    ¬ IsDirName e.name → ¬ IsDirName e'.name → e.name ≠ e'.name →
      place dst e.name ≠ place dst e'.name

/-- The file of an entry is kept: the last entry that is put there has its bytes, and the place
is no device; or no entry is put there, and the file was there. -/
def FileKept (dst : List UInt8) (entries : List Entry) (disk : FileTree (List UInt8))
    (e : Entry) : Prop :=
  match (entries.filter fun e' => Lands dst e' (place dst e.name)).getLast? with
  | some e' => disk.node (place dst e.name) ≠ some .device ∧ e'.data = e.data
  | none => disk.node (place dst e.name) = some (.file e.data)

/-- No name is lost by the buffer, and no two entries meet. -/
structure Legible (dst : List UInt8) (entries : List Entry)
    (disk : FileTree (List UInt8)) : Prop where
  files : ∀ e ∈ entries, SafeName e.name → ¬ IsDirName e.name → FileKept dst entries disk e
  dirs : ∀ e ∈ entries, SafeName e.name → IsDirName e.name →
    disk.node (place dst e.name) = some .dir ∨ ∃ e' ∈ entries, Enters dst e' (place dst e.name)
  apart : ∀ e ∈ entries, ∀ e' ∈ entries, SafeName e.name → SafeName e'.name →
    ¬ IsDirName e.name → ¬ IsDirName e'.name → e.name ≠ e'.name →
      place dst e.name ≠ place dst e'.name

/-! ### One entry -/

theorem ensureDir_eq_true (h : ensureDir kernel path w = (true, w')) :
    ∃ key, kernelPath path = some key ∧ w'.disk.node key = some .dir ∧
      ∀ k, k ≠ key → w'.disk.node k = w.disk.node k := by
  rw [ensureDir] at h
  split at h
  · rename_i hstat
    cases h
    obtain ⟨key, hkey, hnode⟩ := statType_eq_two hstat
    exact ⟨key, hkey, hnode, fun _ _ => rfl⟩
  · rw [mkdir] at h
    split at h
    · rename_i disk hdisk
      obtain ⟨key, hkey, hmk⟩ := Option.bind_eq_some_iff.1 hdisk
      obtain ⟨-, hnode⟩ := FileTree.mkdir_eq_some hmk
      split at h
      · cases h
        exact ⟨key, hkey, by rw [hnode, if_pos rfl], fun k hk => by rw [hnode, if_neg hk]⟩
      · exact absurd (congrArg Prod.fst h) (by simp)
    · exact absurd (congrArg Prod.fst h) (by simp)

theorem writeAll_eq_true {fuel : ℕ} (h : writeAll kernel fd fuel buf w = (true, w')) :
    ∀ k, w'.disk.node k = (w.disk.append fd buf).node k := by
  induction fuel generalizing buf w with
  | zero =>
    cases buf with
    | nil =>
      cases h
      exact fun k => FileTree.node_append_nil.symm
    | cons b buf => exact absurd (congrArg Prod.fst h) (by simp [writeAll, check])
  | succ fuel ih =>
    cases buf with
    | nil =>
      cases h
      exact fun k => FileTree.node_append_nil.symm
    | cons b buf =>
      rw [writeAll_cons] at h
      split at h
      · exact absurd (congrArg Prod.fst h) (by simp)
      · intro k
        rw [ih h k]
        dsimp only [fdWrite]
        rw [FileTree.node_append_append, take_append_drop]

theorem copyPieces_eq_true (h : copyPieces kernel fd pieces w = (true, w')) :
    ∀ k, w'.disk.node k = (w.disk.append fd pieces.flatten).node k := by
  induction pieces generalizing w with
  | nil =>
    cases h
    exact fun k => FileTree.node_append_nil.symm
  | cons piece rest ih =>
    obtain ⟨mid, hmid, hrest⟩ := andThen_eq_true.1 h
    intro k
    rw [ih hrest k, flatten_cons, ← FileTree.node_append_append]
    by_cases hk : k = fd
    · rw [hk, FileTree.node_append_self, FileTree.node_append_self, writeAll_eq_true hmid]
    · rw [FileTree.node_append_of_ne hk, FileTree.node_append_of_ne hk, writeAll_eq_true hmid]

theorem fdOpen_eq_some (h : fdOpen kernel path w = (some fd, w')) :
    kernelPath path = some fd ∧ w.disk.create fd = some w'.disk := by
  rw [fdOpen] at h
  split at h
  · exact absurd (congrArg Prod.fst h) (by simp)
  · rename_i key hkey
    split at h
    · rename_i disk hdisk
      split at h
      · cases h
        exact ⟨hkey, hdisk⟩
      · exact absurd (congrArg Prod.fst h) (by simp)
    · exact absurd (congrArg Prod.fst h) (by simp)

theorem inflate_eq_true (h : inflate kernel e out w = (true, w')) :
    ∃ key, kernelPath out = some key ∧ w.disk.node key ≠ some .dir ∧
      w'.disk.node key =
        some (if w.disk.node key = some .device then .device else .file e.data) ∧
      ∀ k, k ≠ key → w'.disk.node k = w.disk.node k := by
  obtain ⟨mid, hcheck, hopen⟩ := andThen_eq_true.1 h
  rw [(check_eq_true.1 hcheck).2] at hopen
  cases hfd : fdOpen kernel out w with
  | mk fd opened =>
    rw [hfd] at hopen
    cases fd with
    | none => exact absurd (congrArg Prod.fst hopen) (by simp)
    | some fd =>
      obtain ⟨hkey, hcreate⟩ := fdOpen_eq_some hfd
      obtain ⟨copied, hcopy, hclose⟩ := andThen_eq_true.1 hopen
      obtain ⟨hends, rfl⟩ := check_eq_true.1 hclose
      rw [Bool.and_eq_true] at hends
      have hnode := copyPieces_eq_true hcopy
      rw [e.delivered hends.1] at hnode
      have hoff : ∀ k, k ≠ fd → w'.disk.node k = opened.disk.node k :=
        fun k hk => (hnode k).trans (FileTree.node_append_of_ne hk)
      have hself := hnode fd
      rw [FileTree.node_append_self] at hself
      rcases FileTree.create_eq_some hcreate with ⟨hdev, hsame⟩ | ⟨hdev, hdir, hfile⟩
      · rw [hsame] at hself hoff
        exact ⟨fd, hkey, by simp [hdev], by rw [hself, hdev]; rfl, hoff⟩
      · rw [hfile, if_pos rfl] at hself
        refine ⟨fd, hkey, hdir, by rw [hself, if_neg hdev]; rfl, ?_⟩
        intro k hk
        rw [hoff k hk, hfile, if_neg hk]

/-- What a successful extraction of one entry does to the tree. -/
structure Extracted (dst : List UInt8) (e : Entry) (t t' : FileTree (List UInt8)) : Prop where
  enters : ∀ k, Enters dst e k → t'.node k = some .dir ∧ (t.node k = none ∨ t.node k = some .dir)
  lands : ∀ k, Lands dst e k → t.node k ≠ some .dir ∧
    t'.node k = some (if t.node k = some .device then .device else .file e.data)
  rest : ∀ k, ¬ Enters dst e k → ¬ Lands dst e k → t'.node k = t.node k

theorem Climbs.before (h : Climbs goal w w') (hk : w'.disk.node k = some .dir) :
    w.disk.node k = none ∨ w.disk.node k = some .dir := by
  by_cases he : w'.disk.node k = w.disk.node k
  · exact .inr (he ▸ hk)
  · exact .inl (h k he).2.1

theorem extractCurrent_eq_true
    (h : extractCurrent kernel e dst (heldName e.name) w = (true, w')) :
    Extracted dst e w.disk w'.disk := by
  have hiff := isSafeName_iff (nul_notMem_heldName e.name)
  rw [extractCurrent] at h
  split at h
  · rename_i hunsafe
    have hname : ¬ SafeName (heldName e.name) := by
      rw [← hiff, hunsafe]
      simp
    cases h
    exact ⟨fun k hk => absurd hk.1 hname, fun k hk => absurd hk.1 hname, fun k _ _ => rfl⟩
  · rename_i hsafe
    rw [Bool.not_eq_false] at hsafe
    have hname := hiff.1 hsafe
    cases hjoin : join pathMax dst (heldName e.name) with
    | none =>
      rw [hjoin] at h
      exact absurd (congrArg Prod.fst h) (by simp [check])
    | some out =>
      rw [hjoin] at h
      dsimp only at h
      split at h
      · rename_i hdir
        obtain ⟨key, hkey, hnode, hoff⟩ := ensureDir_eq_true h
        obtain ⟨-, rfl⟩ := kernelPath_join hjoin hname hkey
        have hclimbs : Climbs (place dst (heldName e.name)) w w' := by
          have hkeep := @keeps_ensureDir kernel out (place dst (heldName e.name))
            (fun key hk => by rw [hkey, Option.some.injEq] at hk; rw [hk]) w
          rw [h] at hkeep
          exact hkeep
        refine ⟨?_, fun k hk => absurd hdir hk.2.1, ?_⟩
        · intro k hk
          have hkdir := FileTree.dir_of_prefix_dir hk.2.1 hnode
          exact ⟨hkdir, hclimbs.before hkdir⟩
        · intro k hk _
          apply hoff
          rintro rfl
          exact hk ⟨hname, prefix_refl _, .inl hdir⟩
      · rename_i hdir
        obtain ⟨mid, hparents, hinflate⟩ := andThen_eq_true.1 h
        obtain ⟨key, hkey, hnotdir, hnode, hoff⟩ := inflate_eq_true hinflate
        obtain ⟨hbase, rfl⟩ := kernelPath_join hjoin hname hkey
        obtain ⟨hdots, hplace⟩ := normalise_join hjoin (kernelPath_eq_some hkey).1 hname hbase
        have hclimbs : Climbs (place dst (heldName e.name)) w mid := by
          have hkeep := @keeps_mkdirParents kernel out hdots w
          rw [hparents, hplace] at hkeep
          exact hkeep
        have hsame : mid.disk.node (place dst (heldName e.name)) =
            w.disk.node (place dst (heldName e.name)) := by
          by_contra hne
          exact hnotdir (hclimbs _ hne).2.2
        rw [hsame] at hnotdir hnode
        refine ⟨?_, ?_, ?_⟩
        · intro k hk
          have hne : k ≠ place dst (heldName e.name) := hk.2.2.resolve_left hdir
          have hkdir := FileTree.dir_of_prefix hk.2.1 hne (by rw [hnode]; simp)
          exact ⟨hkdir, hclimbs.before ((hoff k hne).symm.trans hkdir)⟩
        · rintro k ⟨-, -, rfl⟩
          exact ⟨hnotdir, hnode⟩
        · intro k henters hlands
          have hne : k ≠ place dst (heldName e.name) := fun he => hlands ⟨hname, hdir, he.symm⟩
          rw [hoff k hne]
          by_contra hdiff
          exact henters ⟨hname, (hclimbs k hdiff).1, .inr hne⟩

/-- What a successful run does to the tree: directories are those that were there and those that
are entered; a file is the last that lands there, or the one that was there. -/
structure Final (dst : List UInt8) (entries : List Entry) (t t' : FileTree (List UInt8)) :
    Prop where
  dirs : ∀ k, t'.node k = some .dir ↔ t.node k = some .dir ∨ ∃ e ∈ entries, Enters dst e k
  devices : ∀ k, t'.node k = some .device ↔ t.node k = some .device
  landed : ∀ k e, (entries.filter fun e => Lands dst e k).getLast? = some e →
    t'.node k = some (if t.node k = some .device then .device else .file e.data)
  others : ∀ k, (entries.filter fun e => Lands dst e k).getLast? = none →
    ∀ data, t'.node k = some (.file data) ↔ t.node k = some (.file data)

theorem Final.nil (dst : List UInt8) (t : FileTree (List UInt8)) : Final dst [] t t where
  dirs k := by simp
  devices k := Iff.rfl
  landed k e h := by simp at h
  others k _ data := Iff.rfl

variable {t t' t'' : FileTree (List UInt8)}

section

variable (h : Extracted dst e t t')
include h

theorem Extracted.dir_iff (k : List (List UInt8)) :
    t'.node k = some .dir ↔ t.node k = some .dir ∨ Enters dst e k := by
  by_cases henters : Enters dst e k
  · simp [h.enters k henters, henters]
  by_cases hlands : Lands dst e k
  · obtain ⟨hne, hnode⟩ := h.lands k hlands
    rw [hnode]
    simp only [henters, or_false, hne, iff_false]
    split <;> simp
  · simp [h.rest k henters hlands, henters]

theorem Extracted.device_iff (k : List (List UInt8)) :
    t'.node k = some .device ↔ t.node k = some .device := by
  by_cases henters : Enters dst e k
  · obtain ⟨hdir, hbefore⟩ := h.enters k henters
    rw [hdir]
    rcases hbefore with hb | hb <;> simp [hb]
  by_cases hlands : Lands dst e k
  · rw [(h.lands k hlands).2]
    split <;> simp_all
  · rw [h.rest k henters hlands]

theorem Extracted.file_iff (hk : ¬ Lands dst e k) :
    t'.node k = some (.file data) ↔ t.node k = some (.file data) := by
  by_cases henters : Enters dst e k
  · obtain ⟨hdir, hbefore⟩ := h.enters k henters
    rw [hdir]
    rcases hbefore with hb | hb <;> simp [hb]
  · rw [h.rest k henters hk]

theorem Final.cons (h' : Final dst entries t' t'') :
    Final dst (e :: entries) t t'' where
  dirs k := by
    rw [h'.dirs, h.dir_iff, or_assoc]
    simp
  devices k := by rw [h'.devices, h.device_iff]
  landed k last hlast := by
    cases hrest : (entries.filter fun e => Lands dst e k).getLast? with
    | some last' =>
      have he : last' = last := by
        rw [filter_cons] at hlast
        split at hlast
        · rw [List.getLast?_cons, hrest] at hlast
          exact Option.some.inj hlast
        · exact Option.some.inj (hrest.symm.trans hlast)
      rw [h'.landed k last' hrest, he]
      simp only [h.device_iff]
    | none =>
      have hnil := List.getLast?_eq_none_iff.1 hrest
      by_cases hlands : Lands dst e k
      · rw [filter_cons_of_pos (by simpa using hlands), hnil] at hlast
        obtain rfl : e = last := Option.some.inj hlast
        have hnode := (h.lands k hlands).2
        by_cases hdev : t.node k = some .device
        · rw [if_pos hdev] at hnode ⊢
          exact (h'.devices k).2 hnode
        · rw [if_neg hdev] at hnode ⊢
          exact (h'.others k hrest e.data).2 hnode
      · rw [filter_cons_of_neg (by simpa using hlands), hrest] at hlast
        exact absurd hlast (by simp)
  others k hnone data := by
    have hnil := List.getLast?_eq_none_iff.1 hnone
    have hlands : ¬ Lands dst e k := by
      intro hl
      rw [filter_cons_of_pos (by simpa using hl)] at hnil
      exact absurd hnil (by simp)
    rw [filter_cons_of_neg (by simpa using hlands)] at hnone
    rw [h'.others k hnone, h.file_iff hlands]

end

theorem final_entriesLoop (hextract : args.extract = true)
    (h : entriesLoop kernel args entries w = (true, w')) :
    Final (cstr args.dstPath) entries w.disk w'.disk := by
  induction entries generalizing w with
  | nil =>
    cases h
    exact Final.nil _ _
  | cons e rest ih =>
    obtain ⟨start, hinfo, hloop⟩ := andThen_eq_true.1 h
    obtain ⟨-, rfl⟩ := check_eq_true.1 hinfo
    obtain ⟨mid, hentry, hbehind⟩ := andThen_eq_true.1 hloop
    obtain ⟨next, hnext, hrest⟩ := andThen_eq_true.1 hbehind
    rw [if_pos hextract] at hentry
    have hsame : next = mid := by
      split at hnext
      · exact succeed_eq_true.1 hnext
      · exact (check_eq_true.1 hnext).2
    subst hsame
    exact Final.cons (extractCurrent_eq_true hentry) (ih hrest)

theorem final_run (hextract : args.extract = true) (h : run kernel archive args w = (true, w')) :
    Final (cstr args.dstPath) archive.entries w.disk w'.disk := by
  rw [run] at h
  split at h
  · exact absurd (congrArg Prod.fst h) (by simp)
  · split at h
    · exact absurd (congrArg Prod.fst h) (by simp)
    · split at h
      · have hnil : archive.entries = [] := by simpa using congrArg Prod.fst h
        obtain rfl : w = w' := congrArg Prod.snd h
        rw [hnil]
        exact Final.nil _ _
      · exact final_entriesLoop hextract h

theorem Final.file_iff_kept (h : Final dst entries t t') :
    t'.node (place dst e.name) = some (.file e.data) ↔ FileKept dst entries t e := by
  rw [FileKept]
  split
  · rename_i last hlast
    rw [h.landed _ last hlast]
    by_cases hdev : t.node (place dst e.name) = some .device
    · simp [hdev]
    · simp [hdev]
  · rename_i hnone
    exact h.others _ hnone e.data

theorem Final.complete_iff (h : Final dst entries t t') :
    Complete dst entries t' ↔ Legible dst entries t := by
  constructor
  · intro hc
    refine ⟨?_, ?_, hc.apart⟩
    · intro e he hsafe hfile
      have hpresent := hc.present e he hsafe
      rw [if_neg hfile] at hpresent
      exact h.file_iff_kept.1 hpresent
    · intro e he hsafe hdir
      have hpresent := hc.present e he hsafe
      rw [if_pos hdir] at hpresent
      exact (h.dirs _).1 hpresent
  · intro hl
    refine ⟨?_, hl.apart⟩
    intro e he hsafe
    by_cases hdir : IsDirName e.name
    · rw [if_pos hdir]
      exact (h.dirs _).2 (hl.dirs e he hsafe hdir)
    · rw [if_neg hdir]
      exact h.file_iff_kept.2 (hl.files e he hsafe hdir)

/-! ### A run -/

/-- A simple kind of legible archives: every name is short enough for the buffer and has no zero
byte, files in one place have the same name and the same bytes, and no file is put where a
device is. -/
structure Plain (dst : List UInt8) (entries : List Entry) (disk : FileTree (List UInt8)) :
    Prop where
  short : ∀ e ∈ entries, e.name.length < nameMax ∧ (0 : UInt8) ∉ e.name
  apart : ∀ e ∈ entries, ∀ e' ∈ entries, SafeName e.name → SafeName e'.name →
    ¬ IsDirName e.name → ¬ IsDirName e'.name → place dst e.name = place dst e'.name →
      e.name = e'.name ∧ e.data = e'.data
  devices : ∀ e ∈ entries, SafeName e.name → ¬ IsDirName e.name →
    disk.node (place dst e.name) ≠ some .device

theorem Plain.legible (h : Plain dst entries t) : Legible dst entries t := by
  have hheld : ∀ e ∈ entries, heldName e.name = e.name :=
    fun e he => heldName_of_short (h.short e he).1 (h.short e he).2
  refine ⟨?_, ?_, ?_⟩
  · intro e he hsafe hfile
    have hlands : Lands dst e (place dst e.name) := by
      rw [Lands, hheld e he]
      exact ⟨hsafe, hfile, rfl⟩
    rw [FileKept]
    split
    · rename_i last hlast
      have hmem := mem_filter.1 (mem_of_getLast? hlast)
      obtain ⟨hsafe', hfile', hplace⟩ : Lands dst last (place dst e.name) := by simpa using hmem.2
      rw [hheld last hmem.1] at hsafe' hfile' hplace
      exact ⟨h.devices e he hsafe hfile,
        (h.apart last hmem.1 e he hsafe' hsafe hfile' hfile hplace).2⟩
    · rename_i hnone
      have hmem : e ∈ entries.filter fun e' => Lands dst e' (place dst e.name) := by
        simp [he, hlands]
      rw [List.getLast?_eq_none_iff.1 hnone] at hmem
      exact absurd hmem (by simp)
  · intro e he hsafe hdir
    refine .inr ⟨e, he, ?_⟩
    rw [Enters, hheld e he]
    exact ⟨hsafe, prefix_refl _, .inl hdir⟩
  · intro e he e' he' hsafe hsafe' hfile hfile' hne hplace
    exact hne (h.apart e he e' he' hsafe hsafe' hfile hfile' hplace).1

/-- The destination: the kernel reads the path as a place where a directory is. -/
def IsDestination (disk : FileTree (List UInt8)) (dst : List UInt8) : Prop :=
  (kernelPath dst).bind disk.node = some .dir

instance (disk : FileTree (List UInt8)) (dst : List UInt8) : Decidable (IsDestination disk dst) :=
  inferInstanceAs (Decidable (_ = _))

/-- Whatever the archive, a run changes nothing outside the destination; where the destination is
not there, the directories on the way to it are made, too.  A run that reports success leaves the
tree of the archive just if the archive is legible, as every plain one is. -/
theorem run_iff (kernel : ℕ → Answer) (archive : Archive) (args : Args) (w : World) :
    (IsDestination w.disk (cstr args.dstPath) →
      ∀ k, (run kernel archive args w).2.disk.node k ≠ w.disk.node k →
        normalise (components (cstr args.dstPath)) <+: k) ∧
    ([dot, dot] ∉ components (cstr args.dstPath) →
      Within (normalise (components (cstr args.dstPath))) w (run kernel archive args w).2) ∧
    (args.extract = true → (run kernel archive args w).1 = true →
      (Complete (cstr args.dstPath) archive.entries (run kernel archive args w).2.disk ↔
        Legible (cstr args.dstPath) archive.entries w.disk)) ∧
    (Plain (cstr args.dstPath) archive.entries w.disk →
      Legible (cstr args.dstPath) archive.entries w.disk) := by
  refine ⟨?_, fun hdst => keeps_run hdst w, ?_, Plain.legible⟩
  · intro hdst k hk
    obtain ⟨key, hkey, hdir⟩ := Option.bind_eq_some_iff.1 hdst
    obtain ⟨-, hdots, rfl⟩ := kernelPath_eq_some hkey
    exact (keeps_run hdots w).inside hdir hk
  · intro hextract hok
    exact (final_run hextract (Prod.ext hok rfl)).complete_iff

/-- The root and one directory in it. -/
def smallDisk : FileTree (List UInt8) where
  node k := if k = [] ∨ k = [lit "d"] then some .dir else none
  root := if_pos (.inl rfl)
  parent k c h := by
    have hk : k = [] := by
      by_contra hne
      apply h
      rw [if_neg]
      rintro (hnil | hone)
      · exact absurd hnil (by simp)
      · rcases List.append_eq_singleton_iff.1 hone with ⟨hk, -⟩ | ⟨-, hc⟩
        · exact hne hk
        · exact absurd hc (by simp)
    rw [if_pos (.inl hk)]

/-- A small file, of which everything can be read. -/
def smallEntry (name : List UInt8) (byte : UInt8) : Entry where
  name := name
  data := [byte]
  info := true
  opens := true
  pieces := [[byte]]
  ends := true
  closes := true
  next := true
  pieces_size := by simp [bufSize]
  delivered := by simp

/-- An entry whose name has 160 bytes. -/
def twin (last byte : UInt8) : Entry := smallEntry (List.replicate 159 97 ++ [last]) byte

/-- Two names that differ in the last byte. -/
def twins : Archive := ⟨true, true, true, [twin 98 1, twin 99 2]⟩

def twinsRun : Bool × World :=
  run (fun _ => ⟨true, bufSize⟩) twins ⟨lit "/a.zip", lit "/d", true⟩ ⟨smallDisk, 0⟩

/-- The run reports success, but there is no file under the first name: both entries are in the
file whose name is the 159 bytes that they share. -/
theorem twins_not_complete : IsDestination smallDisk (lit "/d") ∧ twinsRun.1 = true ∧
    twinsRun.2.disk.node [lit "d", List.replicate 159 97] = some (.file [2]) ∧
    ¬ Complete (lit "/d") twins.entries twinsRun.2.disk := by
  have hnone : twinsRun.2.disk.node (place (lit "/d") (twin 98 1).name) = none := by
    decide +kernel
  refine ⟨by decide +kernel, by decide +kernel, by decide +kernel, ?_⟩
  intro hc
  have hpresent := hc.present (twin 98 1) mem_cons_self (by decide +kernel)
  rw [hnone] at hpresent
  exact absurd hpresent (by simp)

end Cleonos.Unzip
