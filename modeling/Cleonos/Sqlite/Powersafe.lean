import Cleonos.Sqlite.Refine

/-!
# Writing back a changed file

A flush empties the file on the disk and writes all of it again, so a flush that is cut
short leaves its first bytes only, whatever was changed.
-/

namespace Cleonos.Sqlite

open List
open Buffer (slice)
open ByteFile (writeAt)

/-- A call of a flush, with its answer. -/
abbrev Event : Type := (c : Call) × Reply c

/-- Whether a call emptied the file. -/
def empties : Event → Bool
  | ⟨.fdOpen _, opened⟩ => opened
  | _ => false

/-- How many bytes a call wrote. -/
def wrote : Event → ℕ
  | ⟨.fdWrite _, answer⟩ =>
    match answer with
    | none => 0
    | some k => k + 1
  | _ => 0

/-- The bytes written by some calls. -/
def written (events : List Event) : ℕ := (events.map wrote).sum

theorem written_append (events events' : List Event) :
    written (events ++ events') = written events + written events' := by
  rw [written, map_append, sum_append, written, written]

/-- The calls of `cleonos_sqlite_sync`, each with its answer. -/
def syncEvents (env : Env) (file : VfsFile) : List Event := (cleonosSqliteSync file).events env []

/-- The file on the disk after the first `n` calls of a flush. -/
def diskAt (env : Env) (file : VfsFile) (disk : Option (List UInt8)) (n : ℕ) :
    Option (List UInt8) :=
  ((syncEvents env file).take n).foldl effect disk

/-! ## The calls of a flush -/

/-- A call that does not reach the content of the file. -/
def Quiet (e : Event) : Prop := (∀ disk, effect disk e = disk) ∧ empties e = false ∧ wrote e = 0

theorem quiet_statType (path : List UInt8) (r : ℕ) : Quiet ⟨.statType path, r⟩ :=
  ⟨fun _ => rfl, rfl, rfl⟩

theorem quiet_mkdir (path : List UInt8) (r : Bool) : Quiet ⟨.mkdir path, r⟩ :=
  ⟨fun _ => rfl, rfl, rfl⟩

theorem quiet_fdClose (r : Unit) : Quiet ⟨.fdClose, r⟩ := ⟨fun _ => rfl, rfl, rfl⟩

section Quiet

variable {events : List Event} (hq : ∀ e ∈ events, Quiet e)

include hq

theorem foldl_quiet (disk : Option (List UInt8)) : events.foldl effect disk = disk := by
  induction events generalizing disk with
  | nil => rfl
  | cons e events ih =>
    rw [foldl_cons, (hq e mem_cons_self).1]
    exact ih (fun e he => hq e (mem_cons_of_mem _ he)) disk

theorem any_quiet : events.any empties = false := by
  simp only [any_eq_false, Bool.not_eq_true]
  exact fun e he => (hq e he).2.1

theorem written_quiet : written events = 0 := by
  induction events with
  | nil => rfl
  | cons e events ih =>
    rw [written, map_cons, sum_cons, (hq e mem_cons_self).2.2, Nat.zero_add]
    exact ih fun e he => hq e (mem_cons_of_mem _ he)

end Quiet

/-- What the first calls of a flush do: nothing, or they leave the bytes written so far. -/
def Rewrites (bytes : List UInt8) (events : List Event) : Prop :=
  ∀ (disk : Option (List UInt8)) (n : ℕ),
    if (events.take n).any empties then
      (events.take n).foldl effect disk = some (bytes.take (written (events.take n)))
    else (events.take n).foldl effect disk = disk

theorem rewrites_of_quiet {bytes : List UInt8} {events : List Event}
    (hq : ∀ e ∈ events, Quiet e) : Rewrites bytes events := by
  intro disk n
  have hq' : ∀ e ∈ events.take n, Quiet e := fun e he => hq e (mem_of_mem_take he)
  rw [any_quiet hq', if_neg (by decide), foldl_quiet hq']

theorem quiet_ensureLoop (env : Env) (h : List Call) (works : List (List UInt8)) :
    ∀ e ∈ (ensureLoop works).events env h, Quiet e := by
  induction works generalizing h with
  | nil => simp [ensureLoop]
  | cons work works ih =>
    intro e he
    simp only [ensureLoop, Prog.events_bind, Prog.events_ask, mem_append] at he
    rcases he with he | he
    · rw [mem_singleton.1 he]
      exact quiet_statType _ _
    split at he
    · simp only [Prog.events_bind, Prog.events_ask, mem_append] at he
      rcases he with he | he
      · rw [mem_singleton.1 he]
        exact quiet_mkdir _ _
      split at he
      · simp at he
      · exact ih _ e he
    · exact ih _ e he

theorem quiet_ensureParentDirs (env : Env) (h : List Call) (path : List UInt8) :
    ∀ e ∈ (cleonosSqliteEnsureParentDirs path).events env h, Quiet e := by
  rw [cleonosSqliteEnsureParentDirs]
  split
  · simp
  · exact quiet_ensureLoop env h _

theorem foldl_writeLoop (env : Env) (h : List Call) (rest acc : List UInt8) (n : ℕ) :
    (((writeLoop rest).events env h).take n).any empties = false ∧
      (((writeLoop rest).events env h).take n).foldl effect (some acc) =
        some (acc ++ rest.take (written (((writeLoop rest).events env h).take n))) := by
  induction rest using writeLoop.induct generalizing h acc n with
  | case1 => rw [writeLoop]; simp [written]
  | case2 rest hne ih =>
    rw [writeLoop, if_neg hne]
    cases n with
    | zero => simp [written]
    | succ n =>
      cases hr : env h (.fdWrite rest) with
      | none =>
        simp only [Prog.events, hr, take_succ_cons]
        simp [written, wrote, empties, effect]
      | some k =>
        obtain ⟨hopen, hfold⟩ := ih k (h ++ [.fdWrite rest]) (acc ++ rest.take (k + 1)) n
        simp only [Prog.events, hr, take_succ_cons]
        refine ⟨by simpa [empties] using hopen, ?_⟩
        rw [foldl_cons]
        refine hfold.trans ?_
        rw [append_assoc, ← take_add]
        rfl

theorem rewrites_writeWholeFile (env : Env) (h : List Call) (path : List UInt8)
    (data : ℕ → UInt8) {size : ℤ} (hsize : 0 ≤ size) :
    Rewrites (slice data 0 size.toNat)
      ((cleonosSqliteWriteWholeFile path data size).events env h) := by
  rw [cleonosSqliteWriteWholeFile, if_neg (by omega), Prog.events_bind]
  have hquiet := quiet_ensureParentDirs env h path
  generalize (cleonosSqliteEnsureParentDirs path).events env h = first at hquiet ⊢
  generalize (cleonosSqliteEnsureParentDirs path).run env h = r
  by_cases hrc : r.1 ≠ .ok
  · rw [if_pos hrc, Prog.events_pure, List.append_nil]
    exact rewrites_of_quiet hquiet
  rw [if_neg hrc, Prog.events_bind, Prog.events_ask]
  generalize h ++ r.2 = h'
  intro disk n
  have hfirst : ∀ e ∈ first.take n, Quiet e := fun e he => hquiet e (List.mem_of_mem_take he)
  rw [List.take_append, List.any_append, List.foldl_append, any_quiet hfirst,
    foldl_quiet hfirst, Bool.false_or, written_append, written_quiet hfirst, Nat.zero_add]
  cases n - first.length with
  | zero => simp
  | succ n =>
    rw [List.singleton_append, List.take_succ_cons]
    cases hopen : env h' (.fdOpen path) with
    | false =>
      simp only [Prog.run_ask, hopen, if_true, Prog.events_pure, List.take_nil]
      simp [empties, effect]
    | true =>
      simp only [Prog.run_ask, hopen, Bool.true_eq_false, if_false, Prog.events_bind,
        Prog.events_ask, Prog.events_pure, List.append_nil]
      generalize h' ++ [.fdOpen path] = h''
      obtain ⟨hopens, hfold⟩ := foldl_writeLoop env h'' (slice data 0 size.toNat) [] n
      generalize (writeLoop (slice data 0 size.toNat)).events env h'' = loop at hopens hfold ⊢
      generalize (writeLoop (slice data 0 size.toNat)).run env h'' = r'
      have hclose : ∀ e ∈ [(⟨.fdClose, env (h'' ++ r'.2) .fdClose⟩ : Event)].take
          (n - loop.length), Quiet e := by
        intro e he
        rw [List.mem_singleton.1 (List.mem_of_mem_take he)]
        exact quiet_fdClose _
      rw [List.any_cons, if_pos (by simp [empties]), List.foldl_cons, List.take_append,
        List.foldl_append, foldl_quiet hclose]
      refine hfold.trans ?_
      rw [List.nil_append, ← List.cons_append, written_append, written_quiet hclose,
        Nat.add_zero]
      congr 2
      exact (Nat.zero_add _).symm

variable {file : VfsFile}

theorem diskAt_eq (env : Env) (hw : WellFormed file) (disk : Option (List UInt8)) (n : ℕ) :
    diskAt env file disk n = if ((syncEvents env file).take n).any empties then
        some ((content file).take (written ((syncEvents env file).take n))) else disk := by
  have hrewrites : Rewrites (content file) (syncEvents env file) := by
    rw [syncEvents, cleonosSqliteSync, cleonosSqliteFlush]
    by_cases hdirty : file.dirty = false
    · rw [if_pos hdirty]
      exact rewrites_of_quiet (by simp)
    rw [if_neg hdirty]
    cases file.path with
    | none => exact rewrites_of_quiet (by simp)
    | some path =>
      simp only [Prog.events_bind]
      split
      · rw [Prog.events_pure, append_nil]
        exact rewrites_writeWholeFile env [] path file.data hw.size_nonneg
      · rw [Prog.events_pure, append_nil]
        exact rewrites_writeWholeFile env [] path file.data hw.size_nonneg
  have h := hrewrites disk n
  rw [diskAt]
  split at h
  · rw [if_pos ‹_›, h]
  · rw [if_neg ‹_›, h]

theorem foldl_writeLoop_ok (env : Env) (h : List Call) (rest acc : List UInt8)
    (hok : ((writeLoop rest).run env h).1 = .ok) :
    ((writeLoop rest).events env h).foldl effect (some acc) = some (acc ++ rest) := by
  induction rest using writeLoop.induct generalizing h acc with
  | case1 => rw [writeLoop]; simp
  | case2 rest hne ih =>
    rw [writeLoop, if_neg hne] at hok ⊢
    cases hr : env h (.fdWrite rest) with
    | none =>
      simp only [Prog.run, hr] at hok
      cases hok
    | some k =>
      simp only [Prog.run, hr] at hok
      simp only [Prog.events, hr, foldl_cons]
      refine (ih k _ (acc ++ rest.take (k + 1)) hok).trans ?_
      rw [append_assoc, take_append_drop]

theorem foldl_writeWholeFile_ok (env : Env) (h : List Call) (path : List UInt8)
    (data : ℕ → UInt8) {size : ℤ} (hsize : 0 ≤ size) (disk : Option (List UInt8))
    (hok : ((cleonosSqliteWriteWholeFile path data size).run env h).1 = .ok) :
    ((cleonosSqliteWriteWholeFile path data size).events env h).foldl effect disk =
      some (slice data 0 size.toNat) := by
  rw [cleonosSqliteWriteWholeFile, if_neg (by omega)] at hok ⊢
  rw [Prog.run_bind] at hok
  rw [Prog.events_bind, List.foldl_append, foldl_quiet (quiet_ensureParentDirs env h path)]
  generalize (cleonosSqliteEnsureParentDirs path).run env h = r at hok ⊢
  by_cases hrc : r.1 ≠ .ok
  · simp [hrc] at hok
  rw [if_neg hrc] at hok ⊢
  rw [Prog.run_bind] at hok
  rw [Prog.events_bind, Prog.events_ask, List.singleton_append]
  generalize h ++ r.2 = h' at hok ⊢
  cases hopen : env h' (.fdOpen path) with
  | false => simp [hopen] at hok
  | true =>
    simp only [Prog.run_ask, hopen, Bool.true_eq_false, if_false, Prog.run_bind,
      Prog.run_pure] at hok
    simp only [Prog.run_ask, hopen, Bool.true_eq_false, if_false, Prog.events_bind,
      Prog.events_ask, Prog.events_pure, List.append_nil]
    rw [List.foldl_cons, List.foldl_append]
    exact foldl_writeLoop_ok env _ (slice data 0 size.toNat) [] hok

theorem foldl_sync_ok (env : Env) {file : VfsFile} (hv : Valid file) (hdirty : file.dirty = true)
    (disk : Option (List UInt8)) (hok : ((cleonosSqliteSync file).run env []).1.1 = .ok) :
    (syncEvents env file).foldl effect disk = some (content file) := by
  obtain ⟨hw, hp⟩ := hv
  rw [syncEvents]
  rw [cleonosSqliteSync, cleonosSqliteFlush, if_neg (by simp [hdirty])] at hok ⊢
  cases hpath : file.path with
  | none => exact absurd hpath hp
  | some path =>
    simp only [hpath, Prog.run_bind, Prog.events_bind] at hok ⊢
    split at hok
    · cases hok
    · rename_i hwrote
      rw [if_neg hwrote, Prog.events_pure, append_nil]
      exact foldl_writeWholeFile_ok env [] path file.data hw.size_nonneg disk
        (not_not.1 hwrote)

/-- A call of `xWrite`. -/
structure Write where
  data : ℕ → UInt8
  amount : Int32
  offset : Int64
  grows : Bool

def Write.op (w : Write) : Op := .write w.data w.amount w.offset w.grows

/-- The handle after some writes. -/
def runWrites (file : VfsFile) : List Write → VfsFile
  | [] => file
  | w :: ws => runWrites (runOp file w.op).2 ws

/-- The offsets that the writes that succeed reach. -/
def Touched (file : VfsFile) : List Write → ℕ → Prop
  | [], _ => False
  | w :: ws, j =>
    ((runOp file w.op).1 = .status .ok ∧ w.offset.toInt ≤ j ∧
      (j : ℤ) < w.offset.toInt + w.amount.toInt) ∨ Touched (runOp file w.op).2 ws j

theorem runOp_write (hv : Valid file) (w : Write) :
    ((runOp file w.op).1 = .status .ok ∧ 0 ≤ w.amount.toInt ∧ 0 ≤ w.offset.toInt ∧
      content (runOp file w.op).2 = writeAt 0 (content file) w.offset.toInt.toNat
        (slice w.data 0 w.amount.toInt.toNat) ∧
      (runOp file w.op).2.dirty = true ∧ (runOp file w.op).2.lockLevel = file.lockLevel) ∨
    ((runOp file w.op).1 ≠ .status .ok ∧ (runOp file w.op).2 = file) := by
  simp only [Write.op, runOp]
  by_cases h : w.amount.toInt < 0 ∨ w.offset.toInt < 0
  · right
    rw [cleonosSqliteWrite, if_pos h]
    exact ⟨by simp, rfl⟩
  rcases write_spec w.grows hv.wellFormed w.data (by omega) (by omega) w.offset.toInt_lt
    w.amount.toInt_lt with
    ⟨-, hwrite⟩ | ⟨-, -, hwrite⟩ | ⟨-, file', hwrite, -, hcontent, hdirty, -, hlock⟩
  · right
    rw [hwrite]
    exact ⟨by simp, rfl⟩
  · right
    rw [hwrite]
    exact ⟨by simp, rfl⟩
  · left
    rw [hwrite]
    exact ⟨rfl, by omega, by omega, hcontent, hdirty, hlock⟩

theorem runOp_write_keeps (hv : Valid file) (w : Write) {j : ℕ} (hj : j < (content file).length)
    (hout : ¬ ((runOp file w.op).1 = .status .ok ∧ w.offset.toInt ≤ j ∧
      (j : ℤ) < w.offset.toInt + w.amount.toInt)) : j < (content (runOp file w.op).2).length ∧
      (content (runOp file w.op).2)[j]? = (content file)[j]? := by
  rcases runOp_write hv w with ⟨hok, -, ho, hcontent, -, -⟩ | ⟨-, hsame⟩
  · have hge : ¬ (w.offset.toInt ≤ j ∧ (j : ℤ) < w.offset.toInt + w.amount.toInt) :=
      fun h => hout ⟨hok, h⟩
    rw [hcontent]
    refine ⟨lt_of_lt_of_le hj ?_, ?_⟩
    · rw [ByteFile.length_writeAt]
      exact le_max_left _ _
    by_cases hlt : (j : ℤ) < w.offset.toInt
    · rw [ByteFile.getElem?_writeAt_of_lt (by omega)]
      simp [hj]
    · rw [ByteFile.getElem?_writeAt_of_ge (by rw [Buffer.length_slice]; omega)]
  · rw [hsame]
    exact ⟨hj, rfl⟩

theorem runWrites_keeps {file : VfsFile} (hv : Valid file) (ws : List Write) {j : ℕ}
    (hj : j < (content file).length) (hout : ¬ Touched file ws j) :
    Valid (runWrites file ws) ∧ (content (runWrites file ws))[j]? = (content file)[j]? := by
  induction ws generalizing file with
  | nil => exact ⟨hv, rfl⟩
  | cons w ws ih =>
    rw [Touched, not_or] at hout
    obtain ⟨hlen, hkeep⟩ := runOp_write_keeps hv w hj hout.1
    obtain ⟨hv', hrest⟩ := ih (runOp_refines hv w.op).2 hlen hout.2
    exact ⟨hv', hrest.trans hkeep⟩

theorem runWrites_valid {file : VfsFile} (hv : Valid file) (ws : List Write) :
    Valid (runWrites file ws) := by
  induction ws generalizing file with
  | nil => exact hv
  | cons w ws ih => exact ih (runOp_refines hv w.op).2

/-- A handle that was opened or written back: its file is the one on the disk. -/
structure Synced (file : VfsFile) (disk : List UInt8) : Prop where
  valid : Valid file
  clean : file.dirty = false
  disk : disk = content file

/-- After `n` calls of the flush of some writes, the bytes of the file that were not
written are what they were. -/
def Powersafe (env : Env) (file : VfsFile) (disk : List UInt8) (ws : List Write) (n : ℕ) : Prop :=
  ∀ j < disk.length, ¬ Touched file ws j →
    ((diskAt env (runWrites file ws) (some disk) n).getD [])[j]? = disk[j]?

theorem open_synced {a : OpenAnswers} {disk : List UInt8} {path : List UInt8}
    {create deleteOnClose : Bool} {file : VfsFile}
    (h : cleonosSqliteOpen a (some disk) path create deleteOnClose = .ok file) :
    Synced file disk := by
  obtain ⟨hv, hmodel⟩ := open_spec h
  exact ⟨hv, congrArg ModelFile.dirty hmodel, (congrArg ModelFile.bytes hmodel).symm⟩

/-- The bytes of a file outside the ranges written since it was last in step with its
handle survive a cut of the flush exactly when the flush has not emptied the file yet, or
has written back everything up to the last of them. -/
theorem powersafe_iff (env : Env) (file : VfsFile) (disk : List UInt8) (ws : List Write)
    (n : ℕ) (h : Synced file disk) :
    Powersafe env file disk ws n ↔
      ((syncEvents env (runWrites file ws)).take n).any empties = false ∨
        ∀ j < disk.length, ¬ Touched file ws j →
          j < written ((syncEvents env (runWrites file ws)).take n) := by
  obtain ⟨hv, -, rfl⟩ := h
  have hw := (runWrites_valid hv ws).wellFormed
  rw [Powersafe, diskAt_eq env hw]
  by_cases hopen : ((syncEvents env (runWrites file ws)).take n).any empties
  · rw [if_pos hopen, hopen]
    simp only [Bool.true_eq_false, false_or, Option.getD_some]
    refine forall₃_congr fun j hj hout => ?_
    obtain ⟨-, hkeep⟩ := runWrites_keeps hv ws hj hout
    by_cases hdone : j < written ((syncEvents env (runWrites file ws)).take n)
    · simp [hdone, hkeep]
    · have hlost : ((content (runWrites file ws)).take
          (written ((syncEvents env (runWrites file ws)).take n)))[j]? = none :=
        List.getElem?_eq_none (by rw [length_take]; omega)
      rw [hlost, List.getElem?_eq_getElem hj]
      simp [hdone]
  · rw [if_neg hopen]
    simp [hopen]

/-- A file system that grants everything. -/
def willing : Env := fun _ c =>
  match c with
  | .statType _ => (2 : ℕ)
  | .mkdir _ => true
  | .fdOpen _ => true
  | .fdWrite bytes =>
    if h : bytes.length = 0 then none else some ⟨bytes.length - 1, Nat.sub_one_lt h⟩
  | .fdClose => ()

/-- A handle on the file `/d` that holds two bytes, and a write of the second one. -/
def twoBytes : VfsFile := loadedFile [47, 100] false [1, 2]
def secondByte : Write := ⟨fun _ => 3, 1, 1, true⟩

theorem twoBytes_synced : Synced twoBytes [1, 2] :=
  @open_synced ⟨true, true, true⟩ [1, 2] [47, 100] false false twoBytes rfl

/-- A flush that is not begun leaves the first byte. -/
theorem powersafe_before_flush :
    Powersafe willing twoBytes [1, 2] [secondByte] 0 ↔
      ((syncEvents willing (runWrites twoBytes [secondByte])).take 0).any empties = false ∨
        ∀ j < [(1 : UInt8), 2].length, ¬ Touched twoBytes [secondByte] j →
          j < written ((syncEvents willing (runWrites twoBytes [secondByte])).take 0) :=
  powersafe_iff willing twoBytes [1, 2] [secondByte] 0 twoBytes_synced

/-- A flush that is cut short after its opening has lost the first byte. -/
theorem powersafe_lost_byte : ¬ Powersafe willing twoBytes [1, 2] [secondByte] 1 := by
  intro h
  have hout : ¬ Touched twoBytes [secondByte] 0 := by
    rintro (⟨-, hle, -⟩ | hfalse)
    · exact absurd hle (by decide)
    · exact hfalse
  have hdisk : diskAt willing (runWrites twoBytes [secondByte]) (some [1, 2]) 1 = some [] := rfl
  have hbyte := h 0 (by decide) hout
  rw [hdisk] at hbyte
  cases hbyte

end Cleonos.Sqlite
