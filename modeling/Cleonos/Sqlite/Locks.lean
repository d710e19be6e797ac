import Mathlib.Data.Bool.Basic
import Cleonos.Lib.Run
import Cleonos.Sqlite.Powersafe

/-!
# Two handles on one database

A lock is a field of its handle, and a handle has the file as it was when it was opened, with its
own writes.
-/

namespace Cleonos.Sqlite

open List
open Function (update update_of_ne update_self)

/-- The file on the disk and two handles on it.  `written i` are the offsets that handle `i`
wrote and did not write back; `stale i` those at which the other handle wrote back a byte
that handle `i` does not have. -/
structure System where
  disk : List UInt8
  file : Bool → VfsFile
  written : Bool → ℕ → Prop
  stale : Bool → ℕ → Prop

/-- A call on one of the handles. -/
inductive ClientOp
  | lock (level : ℕ)
  | unlock (level : ℕ)
  | checkReservedLock
  | read (amount : Int32) (offset : Int64)
  | write (w : Write)
  | sync (env : Env)
  | reopen (a : OpenAnswers) (path : List UInt8)

/-- The file on the disk after a flush. -/
def diskAfterSync (env : Env) (file : VfsFile) (disk : List UInt8) : List UInt8 :=
  ((syncEvents env file).foldl effect (some disk)).getD []

/-- The offsets from one to another. -/
def InRange (offset amount : ℤ) (j : ℕ) : Prop := offset ≤ j ∧ (j : ℤ) < offset + amount

def System.setFile (s : System) (i : Bool) (file : VfsFile) : System :=
  { s with file := update s.file i file }

/-- What a write leaves: its offsets are written, and no longer missed. -/
def System.noteWrite (s : System) (i : Bool) (w : Write) : System :=
  { s with
    written := update s.written i
      fun j => s.written i j ∨ InRange w.offset.toInt w.amount.toInt j
    stale := update s.stale i
      fun j => s.stale i j ∧ ¬ InRange w.offset.toInt w.amount.toInt j }

/-- What writing back leaves: the other handle misses the bytes that it does not have. -/
def System.noteSync (s : System) (i : Bool) : System :=
  { s with
    written := update s.written i fun _ => False
    stale := update s.stale (!i) fun j =>
      (s.written i j → (content (s.file !i))[j]? ≠ (content (s.file i))[j]?) ∧
        (¬ s.written i j → s.stale (!i) j) }

/-- A call on handle `i`. -/
def runClient (s : System) (i : Bool) : ClientOp → System
  | .lock level => s.setFile i (cleonosSqliteLock (s.file i) level).2
  | .unlock level => s.setFile i (cleonosSqliteUnlock (s.file i) level).2
  | .checkReservedLock => s
  | .read _ _ => s
  | .write w =>
    let r := runOp (s.file i) w.op
    if r.1 = .status .ok then (s.noteWrite i w).setFile i r.2 else s.setFile i r.2
  | .sync env =>
    let r := ((cleonosSqliteSync (s.file i)).run env []).1
    let disk := diskAfterSync env (s.file i) s.disk
    if r.1 = .ok then { (s.noteSync i).setFile i r.2 with disk := disk }
    else { s.setFile i r.2 with disk := disk }
  | .reopen a path =>
    match cleonosSqliteOpen a (some s.disk) path false false with
    | .error _ => s
    | .ok file =>
      { s.setFile i file with
        written := update s.written i fun _ => False
        stale := update s.stale i fun _ => False }

/-- The calls a connection makes: it takes the locks one after the other, reads under a
shared lock, writes and writes back under an exclusive one, and is closed and opened again
only without a lock and with nothing to write back. -/
def Disciplined (s : System) (i : Bool) : ClientOp → Prop
  | .lock level => (s.file i).lockLevel < level ∧ level ≤ lockExclusive ∧
      ((s.file i).lockLevel = lockNone → level = lockShared)
  | .unlock level => level ≤ lockShared ∧ level ≤ (s.file i).lockLevel
  | .checkReservedLock => True
  | .read _ _ => lockShared ≤ (s.file i).lockLevel
  | .write _ => (s.file i).lockLevel = lockExclusive
  | .sync _ => (s.file i).lockLevel = lockExclusive
  | .reopen _ _ => (s.file i).lockLevel = lockNone ∧ (s.file i).dirty = false

/-- A file system that accepts some of the bytes of every write. -/
def Accepts (env : Env) : Prop :=
  ∀ (h : List Call) (bytes : List UInt8), bytes ≠ [] → env h (.fdWrite bytes) ≠ none

/-- The calls that meet no trace of the other handle: a lock from reserved on is taken while
the other handle has none, what is read was not changed by the other handle since the handle
was opened, and when something is written back nothing was, and the write is not cut short. -/
def Calm (s : System) (i : Bool) : ClientOp → Prop
  | .lock level => lockReserved ≤ level → (s.file !i).lockLevel < lockReserved
  | .read amount offset => ∀ j, InRange offset.toInt amount.toInt j → s.stale i j → s.written i j
  | .sync env => (s.file i).dirty = true →
      Accepts env ∧ ∀ j, s.stale i j → s.written i j
  | _ => True

/-- The handles are not both granted a reserved lock. -/
def Exclusive (s : System) : Prop :=
  ¬ (lockReserved ≤ (s.file true).lockLevel ∧ lockReserved ≤ (s.file false).lockLevel)

/-- What isolation asks of a call: a read returns the bytes on the disk, but for the
handle's own writes; writing back puts the handle's writes on the disk and keeps every other
byte there. -/
def Isolated (s : System) (i : Bool) : ClientOp → Prop
  | .read amount offset => 0 ≤ offset.toInt →
      ∀ k < amount.toInt.toNat, ¬ s.written i (offset.toInt.toNat + k) →
        ((cleonosSqliteRead (s.file i) amount.toInt offset.toInt).2.getD [])[k]? =
          some (s.disk.getD (offset.toInt.toNat + k) 0)
  | .sync env =>
    (∀ j, ¬ s.written i j →
      (diskAfterSync env (s.file i) s.disk).getD j 0 = s.disk.getD j 0) ∧
    (((cleonosSqliteSync (s.file i)).run env []).1.1 = .ok → ∀ j, s.written i j →
      (diskAfterSync env (s.file i) s.disk).getD j 0 = (content (s.file i)).getD j 0)
  | _ => True

/-- Both handles are opened on the file. -/
def Opened (s : System) : Prop :=
  (∀ i, ∃ a path, cleonosSqliteOpen a (some s.disk) path false false = .ok (s.file i)) ∧
    (∀ i j, ¬ s.written i j) ∧ ∀ i j, ¬ s.stale i j

def DisciplinedStep (s s' : System) : Prop :=
  ∃ i op, Disciplined s i op ∧ s' = runClient s i op

/-- A disciplined call that is calm. -/
def CalmStep (s s' : System) : Prop :=
  ∃ i op, Disciplined s i op ∧ Calm s i op ∧ s' = runClient s i op

/-! ## The invariant -/

/-- What a handle has is what is on the disk, but for its writes and what it has missed. -/
structure Coherent (s : System) : Prop where
  valid : ∀ i, Valid (s.file i)
  clean : ∀ i j, (s.file i).dirty = false → ¬ s.written i j
  agree : ∀ i j, ¬ s.stale i j → ¬ s.written i j →
    (content (s.file i)).getD j 0 = s.disk.getD j 0
  exclusive : Exclusive s

theorem writeLoop_of_accepts {env : Env} (hacc : Accepts env) (h : List Call)
    (rest : List UInt8) : ((writeLoop rest).run env h).1 = .ok := by
  induction rest using writeLoop.induct generalizing h with
  | case1 => rw [writeLoop]; rfl
  | case2 rest hne ih =>
    rw [writeLoop, if_neg hne]
    cases hr : env h (.fdWrite rest) with
    | none => exact absurd hr (hacc h rest hne)
    | some k =>
      simp only [Prog.run, hr]
      exact ih k _

theorem foldl_writeWholeFile_fails {env : Env} (hacc : Accepts env) (h : List Call)
    (path : List UInt8) (data : ℕ → UInt8) {size : ℤ} (hsize : 0 ≤ size)
    (disk : Option (List UInt8))
    (hrc : ((cleonosSqliteWriteWholeFile path data size).run env h).1 ≠ .ok) :
    ((cleonosSqliteWriteWholeFile path data size).events env h).foldl effect disk = disk := by
  rw [cleonosSqliteWriteWholeFile, if_neg (by omega)] at hrc ⊢
  rw [Prog.run_bind] at hrc
  rw [Prog.events_bind, foldl_append, foldl_quiet (quiet_ensureParentDirs env h path)]
  generalize (cleonosSqliteEnsureParentDirs path).run env h = r at hrc ⊢
  by_cases hdirs : r.1 ≠ .ok
  · rw [if_pos hdirs]
    rfl
  rw [if_neg hdirs] at hrc ⊢
  rw [Prog.run_bind] at hrc
  rw [Prog.events_bind, Prog.events_ask, singleton_append]
  generalize h ++ r.2 = h' at hrc ⊢
  cases hopen : env h' (.fdOpen path) with
  | false => simp [hopen, effect]
  | true =>
    simp only [Prog.run_ask, hopen, Bool.true_eq_false, if_false, Prog.run_bind,
      Prog.run_pure] at hrc
    exact absurd (writeLoop_of_accepts hacc _ _) hrc

theorem diskAfterSync_of_fails {env : Env} (hacc : Accepts env) {file : VfsFile}
    (hv : Valid file) (disk : List UInt8)
    (hrc : ((cleonosSqliteSync file).run env []).1.1 ≠ .ok) :
    diskAfterSync env file disk = disk := by
  obtain ⟨hw, hp⟩ := hv
  rw [diskAfterSync, syncEvents]
  rw [cleonosSqliteSync, cleonosSqliteFlush] at hrc ⊢
  by_cases hdirty : file.dirty = false
  · rw [if_pos hdirty]
    rfl
  rw [if_neg hdirty] at hrc ⊢
  cases hpath : file.path with
  | none => exact absurd hpath hp
  | some path =>
    simp only [hpath, Prog.run_bind, Prog.events_bind] at hrc ⊢
    split at hrc
    · rename_i hwrote
      rw [if_pos hwrote, Prog.events_pure, append_nil,
        foldl_writeWholeFile_fails hacc [] path file.data hw.size_nonneg _ hwrote]
      rfl
    · exact absurd rfl hrc

theorem diskAfterSync_of_ok {env : Env} {file : VfsFile} (hv : Valid file)
    (hdirty : file.dirty = true) (disk : List UInt8)
    (hrc : ((cleonosSqliteSync file).run env []).1.1 = .ok) :
    diskAfterSync env file disk = content file := by
  rw [diskAfterSync, foldl_sync_ok env hv hdirty (some disk) hrc]
  rfl

theorem diskAfterSync_of_clean (env : Env) {file : VfsFile} (hdirty : file.dirty = false)
    (disk : List UInt8) : diskAfterSync env file disk = disk := by
  rw [diskAfterSync, syncEvents, cleonosSqliteSync, cleonosSqliteFlush, if_pos hdirty]
  rfl

theorem sync_file (env : Env) {file : VfsFile} (hv : Valid file) :
    Valid ((cleonosSqliteSync file).run env []).1.2 ∧
      content ((cleonosSqliteSync file).run env []).1.2 = content file ∧
      ((cleonosSqliteSync file).run env []).1.2.lockLevel = file.lockLevel ∧
      (((cleonosSqliteSync file).run env []).1.1 ≠ .ok →
        ((cleonosSqliteSync file).run env []).1.2 = file) := by
  obtain ⟨hw, hp⟩ := hv
  rw [cleonosSqliteSync]
  rcases flush_spec env [] file with h | ⟨h, -⟩ | h
  · rw [h]
    exact ⟨⟨⟨hw.size_nonneg, hw.size_le, hw.capacity_le⟩, hp⟩, rfl, rfl, fun h => absurd rfl h⟩
  · rw [h]
    exact ⟨⟨hw, hp⟩, rfl, rfl, fun _ => rfl⟩
  · rw [h]
    exact ⟨⟨hw, hp⟩, rfl, rfl, fun _ => rfl⟩

theorem runOp_write_getD {file : VfsFile} (hv : Valid file) (w : Write) (j : ℕ)
    (hout : (runOp file w.op).1 = .status .ok → ¬ InRange w.offset.toInt w.amount.toInt j) :
    (content (runOp file w.op).2).getD j 0 = (content file).getD j 0 := by
  rcases runOp_write hv w with ⟨hok, -, ho, hcontent, -, -⟩ | ⟨-, hsame⟩
  · have hrange := hout hok
    rw [InRange] at hrange
    rw [hcontent]
    refine ByteFile.getD_writeAt ?_
    rw [Buffer.length_slice]
    omega
  · rw [hsame]

section Fields

variable {s : System} {i j : Bool} {file : VfsFile}

@[simp] theorem setFile_self : (s.setFile i file).file i = file := update_self ..

@[simp] theorem setFile_other : (s.setFile i file).file (!i) = s.file !i :=
  update_of_ne (by simp) ..

theorem setFile_of_ne (h : j ≠ i) : (s.setFile i file).file j = s.file j :=
  update_of_ne h ..

end Fields

theorem exclusive_iff (s : System) (i : Bool) : Exclusive s ↔
    ¬ (lockReserved ≤ (s.file i).lockLevel ∧ lockReserved ≤ (s.file !i).lockLevel) := by
  rw [Exclusive]
  cases i
  · rw [and_comm]
    rfl
  · rfl

theorem Coherent.setFile {s : System} (hs : Coherent s) (i : Bool) {file : VfsFile}
    (hv : Valid file) (hdirty : file.dirty = (s.file i).dirty)
    (hcontent : content file = content (s.file i))
    (hlock : lockReserved ≤ file.lockLevel → (s.file !i).lockLevel < lockReserved) :
    Coherent (s.setFile i file) := by
  have hfile : ∀ j, (s.setFile i file).file j = if j = i then file else s.file j := by
    intro j
    by_cases hj : j = i
    · subst hj
      rw [setFile_self, if_pos rfl]
    · rw [setFile_of_ne hj, if_neg hj]
  constructor
  · intro j
    rw [hfile]
    split
    · exact hv
    · exact hs.valid j
  · intro j k
    rw [hfile]
    split
    · rename_i hj
      subst hj
      rw [hdirty]
      exact hs.clean j k
    · exact hs.clean j k
  · intro j k
    rw [hfile]
    split
    · rename_i hj
      subst hj
      rw [hcontent]
      exact hs.agree j k
    · exact hs.agree j k
  · rw [exclusive_iff _ i, setFile_self, setFile_other]
    intro ⟨h, h'⟩
    exact absurd (hlock h) (by omega)

theorem Coherent.other_lt {s : System} (hs : Coherent s) (i : Bool)
    (h : lockReserved ≤ (s.file i).lockLevel) : (s.file !i).lockLevel < lockReserved := by
  have hex := (exclusive_iff s i).1 hs.exclusive
  omega

theorem eq_or_other (i j : Bool) : j = i ∨ j = !i := by cases i <;> cases j <;> simp

theorem Coherent.isolated_sync {s : System} (hs : Coherent s) (i : Bool) (env : Env)
    (hc : Calm s i (.sync env)) : Isolated s i (.sync env) := by
  by_cases hdirty : (s.file i).dirty = false
  · simp only [Isolated, diskAfterSync_of_clean env hdirty]
    exact ⟨fun _ _ => trivial, fun _ j hj => absurd hj (hs.clean i j hdirty)⟩
  · have hdirty := eq_true_of_ne_false hdirty
    obtain ⟨hacc, hfresh⟩ := hc hdirty
    by_cases hrc : ((cleonosSqliteSync (s.file i)).run env []).1.1 = .ok
    · simp only [Isolated, diskAfterSync_of_ok (hs.valid i) hdirty s.disk hrc]
      exact ⟨fun j hj => hs.agree i j (fun h => hj (hfresh j h)) hj, fun _ _ _ => trivial⟩
    · simp only [Isolated, diskAfterSync_of_fails hacc (hs.valid i) s.disk hrc]
      exact ⟨fun _ _ => trivial, fun h => absurd h hrc⟩

theorem Coherent.isolated_read {s : System} (hs : Coherent s) (i : Bool) (amount : Int32)
    (offset : Int64) (hc : Calm s i (.read amount offset)) :
    Isolated s i (.read amount offset) := by
  intro ho k hk hout
  have ha : 0 ≤ amount.toInt := by omega
  have hin : InRange offset.toInt amount.toInt (offset.toInt.toNat + k) := by
    rw [InRange]
    omega
  rw [read_spec (hs.valid i).wellFormed ha ho amount.toInt_lt, Option.getD_some,
    ByteFile.getElem?_readAt hk]
  exact congrArg some (hs.agree i _ (fun h => hout (hc _ hin h)) hout)

theorem Coherent.step_write {s : System} (hs : Coherent s) (i : Bool) (w : Write) :
    Coherent (runClient s i (.write w)) := by
  have hv := (runOp_refines (hs.valid i) w.op).2
  simp only [runClient]
  rcases runOp_write (hs.valid i) w with ⟨hok, -, -, -, hdirty, hlock⟩ | ⟨hfail, hsame⟩
  · rw [if_pos hok]
    constructor
    · intro j
      rcases eq_or_other i j with rfl | rfl
      · rw [setFile_self]
        exact hv
      · rw [setFile_other]
        exact hs.valid _
    · intro j k hclean
      rcases eq_or_other i j with rfl | rfl
      · rw [setFile_self, hdirty] at hclean
        cases hclean
      · rw [setFile_other] at hclean
        change ¬ update s.written i _ (!i) k
        rw [update_of_ne (Bool.not_ne_self i)]
        exact hs.clean _ k hclean
    · intro j k hstale hwritten
      rcases eq_or_other i j with rfl | rfl
      · change ¬ update s.stale j _ j k at hstale
        change ¬ update s.written j _ j k at hwritten
        rw [update_self] at hstale hwritten
        rw [not_or] at hwritten
        rw [setFile_self, runOp_write_getD (hs.valid j) w k fun _ => hwritten.2]
        exact hs.agree j k (fun h => hstale ⟨h, hwritten.2⟩) hwritten.1
      · change ¬ update s.stale i _ (!i) k at hstale
        change ¬ update s.written i _ (!i) k at hwritten
        rw [update_of_ne (Bool.not_ne_self i)] at hstale hwritten
        rw [setFile_other]
        exact hs.agree _ k hstale hwritten
    · rw [exclusive_iff _ i, setFile_self, setFile_other, hlock]
      exact (exclusive_iff s i).1 hs.exclusive
  · rw [if_neg hfail, hsame]
    exact hs.setFile i (hs.valid i) rfl rfl (hs.other_lt i)

theorem Coherent.step_sync {s : System} (hs : Coherent s) (i : Bool) (env : Env)
    (hc : Calm s i (.sync env)) : Coherent (runClient s i (.sync env)) := by
  obtain ⟨hkeep, hput⟩ := hs.isolated_sync i env hc
  obtain ⟨hv, hcontent, hlock, hsame⟩ := sync_file env (hs.valid i)
  simp only [runClient]
  by_cases hrc : ((cleonosSqliteSync (s.file i)).run env []).1.1 = .ok
  · have hdisk : ∀ k, ¬ s.stale i k →
        (content (s.file i)).getD k 0 = (diskAfterSync env (s.file i) s.disk).getD k 0 := by
      intro k hstale
      by_cases hwritten : s.written i k
      · exact (hput hrc k hwritten).symm
      · rw [hkeep k hwritten]
        exact hs.agree i k hstale hwritten
    rw [if_pos hrc]
    constructor
    · intro j
      rcases eq_or_other i j with rfl | rfl
      · change Valid (((s.noteSync j).setFile j _).file j)
        rw [setFile_self]
        exact hv
      · change Valid (((s.noteSync i).setFile i _).file !i)
        rw [setFile_other]
        exact hs.valid _
    · intro j k hclean
      change ¬ update s.written i _ j k
      rcases eq_or_other i j with rfl | rfl
      · rw [update_self]
        exact not_false
      · change (((s.noteSync i).setFile i _).file !i).dirty = false at hclean
        rw [setFile_other] at hclean
        rw [update_of_ne (Bool.not_ne_self i)]
        exact hs.clean _ k hclean
    · intro j k hstale hwritten
      change ¬ update s.stale (!i) _ j k at hstale
      change ¬ update s.written i _ j k at hwritten
      change (content (((s.noteSync i).setFile i _).file j)).getD k 0 =
        (diskAfterSync env (s.file i) s.disk).getD k 0
      rcases eq_or_other i j with rfl | rfl
      · rw [update_of_ne (Bool.not_ne_self j).symm] at hstale
        rw [setFile_self, hcontent]
        exact hdisk k hstale
      · rw [update_self] at hstale
        rw [update_of_ne (Bool.not_ne_self i)] at hwritten
        rw [setFile_other]
        change (content (s.file !i)).getD k 0 = _
        by_cases hput' : s.written i k
        · have heq : (content (s.file !i))[k]? = (content (s.file i))[k]? := by
            by_contra hne
            exact hstale ⟨fun _ => hne, fun h => absurd hput' h⟩
          rw [hput hrc k hput', getD_eq_getElem?_getD, heq, getD_eq_getElem?_getD]
        · rw [hkeep k hput']
          exact hs.agree _ k (fun h => hstale ⟨fun h' => absurd h' hput', fun _ => h⟩) hwritten
    · rw [exclusive_iff _ i]
      change ¬ (lockReserved ≤ (((s.noteSync i).setFile i _).file i).lockLevel ∧
        lockReserved ≤ (((s.noteSync i).setFile i _).file !i).lockLevel)
      rw [setFile_self, setFile_other, hlock]
      exact (exclusive_iff s i).1 hs.exclusive
  · have hdirty : (s.file i).dirty = true := by
      by_contra hclean
      rw [cleonosSqliteSync, cleonosSqliteFlush,
        if_pos (Bool.eq_false_iff.2 hclean)] at hrc
      exact hrc rfl
    have hdisk := diskAfterSync_of_fails (hc hdirty).1 (hs.valid i) s.disk hrc
    rw [if_neg hrc, hsame hrc, hdisk]
    exact hs.setFile i (hs.valid i) rfl rfl (hs.other_lt i)

theorem Coherent.step_reopen {s : System} (hs : Coherent s) (i : Bool) (a : OpenAnswers)
    (path : List UInt8) : Coherent (runClient s i (.reopen a path)) := by
  simp only [runClient]
  cases hopen : cleonosSqliteOpen a (some s.disk) path false false with
  | error _ => exact hs
  | ok file =>
    obtain ⟨hv, hmodel⟩ := open_spec hopen
    have hcontent : content file = s.disk := congrArg ModelFile.bytes hmodel
    have hlock : file.lockLevel = lockNone := open_lockLevel hopen
    constructor
    · intro j
      change Valid ((s.setFile i file).file j)
      rcases eq_or_other i j with rfl | rfl
      · rw [setFile_self]
        exact hv
      · rw [setFile_other]
        exact hs.valid _
    · intro j k hclean
      change ¬ update s.written i _ j k
      change ((s.setFile i file).file j).dirty = false at hclean
      rcases eq_or_other i j with rfl | rfl
      · rw [update_self]
        exact not_false
      · rw [setFile_other] at hclean
        rw [update_of_ne (Bool.not_ne_self i)]
        exact hs.clean _ k hclean
    · intro j k hstale hwritten
      change ¬ update s.stale i _ j k at hstale
      change ¬ update s.written i _ j k at hwritten
      change (content ((s.setFile i file).file j)).getD k 0 = s.disk.getD k 0
      rcases eq_or_other i j with rfl | rfl
      · rw [setFile_self, hcontent]
      · rw [update_of_ne (Bool.not_ne_self i)] at hstale hwritten
        rw [setFile_other]
        exact hs.agree _ k hstale hwritten
    · rw [exclusive_iff _ i]
      change ¬ (lockReserved ≤ ((s.setFile i file).file i).lockLevel ∧ _)
      rw [setFile_self, hlock]
      exact fun h => absurd h.1 (by decide)

theorem Coherent.step {s : System} (hs : Coherent s) (i : Bool) (op : ClientOp)
    (hd : Disciplined s i op) (hc : Calm s i op) : Coherent (runClient s i op) := by
  cases op with
  | lock level =>
    exact hs.setFile i ⟨⟨(hs.valid i).wellFormed.size_nonneg, (hs.valid i).wellFormed.size_le,
      (hs.valid i).wellFormed.capacity_le⟩, (hs.valid i).path⟩ rfl rfl hc
  | unlock level =>
    refine hs.setFile i ⟨⟨(hs.valid i).wellFormed.size_nonneg, (hs.valid i).wellFormed.size_le,
      (hs.valid i).wellFormed.capacity_le⟩, (hs.valid i).path⟩ rfl rfl ?_
    intro h
    have hlevel := hd.1
    simp only [cleonosSqliteUnlock, lockReserved, lockShared] at h hlevel
    omega
  | checkReservedLock => exact hs
  | read amount offset => exact hs
  | write w => exact hs.step_write i w
  | sync env => exact hs.step_sync i env hc
  | reopen a path => exact hs.step_reopen i a path

theorem Coherent.opened {s : System} (h : Opened s) : Coherent s := by
  obtain ⟨hopen, hwritten, -⟩ := h
  constructor
  · intro i
    obtain ⟨a, path, h⟩ := hopen i
    exact (open_spec h).1
  · exact fun i j _ => hwritten i j
  · intro i j _ _
    obtain ⟨a, path, h⟩ := hopen i
    have hcontent : content (s.file i) = s.disk := congrArg ModelFile.bytes (open_spec h).2
    rw [hcontent]
  · obtain ⟨a, path, h⟩ := hopen true
    rw [Exclusive, open_lockLevel h]
    exact fun h => absurd h.1 (by decide)

/-- Two handles on the empty file `/d`. -/
def freshSystem : System where
  disk := []
  file := fun _ => loadedFile [47, 100] false []
  written := fun _ _ => False
  stale := fun _ _ => False

theorem freshSystem_opened : Opened freshSystem :=
  ⟨fun _ => ⟨⟨true, true, true⟩, [47, 100], rfl⟩, fun _ _ h => h, fun _ _ h => h⟩

end Cleonos.Sqlite
