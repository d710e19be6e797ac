import Cleonos.Install.Loading

/-!
# Copying one file

The three routines of `install2disk_main.c` that copy a file.
-/

namespace Cleonos.Install

open List
open Sha256 (FdRead)

def copyChunkSize : ℕ := 8192
def wholeFileLimit : ℕ := 128 * 1024

/-! ## The source -/

/-- What a path leads to. -/
inductive Place
  | nothing
  | file (bytes : List UInt8)
  | directory
  deriving DecidableEq, Repr

/-- Whether a call writes all that it is given, and how many bytes are there if it does not; nothing
is changed when that is `none`. -/
structure WriteAnswer where
  ok : Bool
  kept : Option ℕ

/-- `cleonos_sys_fs_write`. -/
def writtenTo (a : WriteAnswer) (old : Place) (data : List UInt8) : Place :=
  if a.ok then .file data
  else
    match a.kept with
    | none => old
    | some k => if k < data.length then .file (data.take k) else old

/-- `cleonos_sys_fs_append`. -/
def appendedTo (a : WriteAnswer) (old piece : List UInt8) : List UInt8 :=
  if a.ok then old ++ piece
  else
    match a.kept with
    | none => old
    | some k => if k < piece.length then old ++ piece.take k else old

/-- What the calls answer: `stat` and `verify` say whether the size of the source and that of the
destination are had. With each read comes the answer to the append behind it. -/
structure CopyAnswers where
  stat : Bool
  remove : Bool
  memory : Bool
  opens : Bool
  create : WriteAnswer
  write : WriteAnswer
  reads : List (FdRead × WriteAnswer)
  verify : Bool

/-- What a routine returns, what it leaves, and what it adds to the counters. -/
structure Copied where
  ok : Bool
  dst : Place
  files : ℕ
  bytes : ℕ

/-- A failure with nothing counted. -/
def notCopied (dst : Place) : Copied := ⟨false, dst, 0, 0⟩

/-- `cleonos_sys_fs_stat_size`. -/
def statSize (answers : Bool) : Place → Option ℕ
  | .file bytes => if answers then some bytes.length else none
  | _ => none

section

-- what a call returns that has written so many bytes
variable (done : ℕ → ℕ)

def returned (a : WriteAnswer) (n : ℕ) : ℕ := if a.ok then done n else 0

/-- The loop that appends what it reads; it also fails when the answers end. -/
def streamLoop : List (FdRead × WriteAnswer) → List UInt8 → ℕ → Bool × List UInt8 × ℕ
  | [], dst, bytes => (false, dst, bytes)
  | (none, _) :: _, dst, bytes => (false, dst, bytes)
  | (some [], _) :: _, dst, bytes => (true, dst, bytes)
  | (some (b :: bs), a) :: reads, dst, bytes =>
    if returned done a (b :: bs).length ≠ (b :: bs).length then
      (false, appendedTo a dst (b :: bs), bytes)
    else streamLoop reads (appendedTo a dst (b :: bs)) (bytes + (b :: bs).length)

/-- The size of the destination is looked at when all is written and counted. -/
def checked (verify : Bool) (e : CopyAnswers) (src : List UInt8) (c : Copied) : Copied :=
  if verify ∧ statSize e.verify c.dst ≠ some src.length then { c with ok := false } else c

/-- The text that `install_copy_file` and `install_update_copy_file_unverified` share, with the
size of the destination looked at or not. -/
def copyFile (verify : Bool) (e : CopyAnswers) (src : List UInt8) (dst : Place) : Copied :=
  if e.stat = false ∨ dst = .directory then notCopied dst
  else if dst ≠ .nothing ∧ e.remove = false then notCopied dst
  else if src.length = 0 then
    let dst := writtenTo e.create .nothing []
    if returned done e.create 0 = 0 then notCopied dst
    else if verify ∧ statSize e.verify dst ≠ some 0 then notCopied dst
    else ⟨true, dst, 1, 0⟩
  else if src.length ≤ wholeFileLimit ∧ e.memory then
    if e.opens = false then notCopied .nothing
    else
      match loadReads src.length (e.reads.map Prod.fst) with
      | none => notCopied .nothing
      | some whole =>
        let dst := writtenTo e.write .nothing whole
        if returned done e.write src.length ≠ src.length then notCopied dst
        else checked verify e src ⟨true, dst, 1, src.length⟩
  else if e.opens = false then notCopied .nothing
  else
    let dst := writtenTo e.create .nothing []
    if returned done e.create 0 = 0 then notCopied dst
    else
      match streamLoop done e.reads [] 0 with
      | (false, dst, bytes) => ⟨false, .file dst, 0, bytes⟩
      | (true, dst, bytes) => checked verify e src ⟨true, .file dst, 1, bytes⟩

def installCopyFile : CopyAnswers → List UInt8 → Place → Copied := copyFile done true

def installUpdateCopyFileUnverified : CopyAnswers → List UInt8 → Place → Copied :=
  copyFile done false

def installOverwriteFileWhole (e : CopyAnswers) (src : List UInt8) (dst : Place) : Copied :=
  if e.stat = false ∨ dst = .directory then notCopied dst
  else if src.length = 0 then
    let dst := writtenTo e.create dst []
    if returned done e.create 0 ≠ 0 ∨ statSize e.verify dst ≠ some 0 then notCopied dst
    else ⟨true, dst, 1, 0⟩
  else if e.memory = false ∨ e.opens = false then notCopied dst
  else
    match loadReads src.length (e.reads.map Prod.fst) with
    | none => notCopied dst
    | some data =>
      let dst := writtenTo e.write dst data
      if returned done e.write src.length ≠ src.length then notCopied dst
      else if statSize e.verify dst ≠ some src.length then notCopied dst
      else ⟨true, dst, 1, src.length⟩

end

variable {done : ℕ → ℕ} {e : CopyAnswers} {src : List UInt8} {dst : Place}

/-- Reads deliver what is left of the source, piece by piece, until one of them fails; there is
nothing more to deliver only at its end. -/
def Honest : List FdRead → List UInt8 → Prop
  | [], _ => True
  | none :: _, _ => True
  | some [] :: _, rest => rest = []
  | some (b :: bs) :: reads, rest => ∃ rest', rest = (b :: bs) ++ rest' ∧ Honest reads rest'

/-- All of the source is delivered, in pieces of at most `limit` bytes. -/
def Delivers (limit : ℕ) (reads : List FdRead) (src : List UInt8) : Prop :=
  ∃ (pieces : List (List UInt8)) (more : List FdRead),
    (∀ p ∈ pieces, p ≠ [] ∧ p.length ≤ limit) ∧ pieces.flatten = src ∧
      reads = pieces.map some ++ some [] :: more

/-- The calls other than those that write work. -/
structure Works (limit : ℕ) (e : CopyAnswers) (src : List UInt8) : Prop where
  stat : e.stat = true
  opens : e.opens = true
  verify : e.verify = true
  reads : Delivers limit (e.reads.map Prod.fst) src

/-- A destination that is a copy already is not left by a call that does nothing. -/
def Stable (e : CopyAnswers) (src : List UInt8) (dst : Place) : Prop :=
  dst = .file src → e.remove = true ∧ e.memory = true ∧ e.write.ok = true

/-- Success is reported exactly when the destination is a copy of the source. -/
def Agree (c : Copied) (src : List UInt8) : Prop := c.ok = true ↔ c.dst = .file src

/-- The three routines agree about a file, on a file system that returns `done`. -/
def RoutinesAgree (done : ℕ → ℕ) (src : List UInt8) : Prop :=
  (∀ e dst, Works copyChunkSize e src → Stable e src dst →
    Agree (installCopyFile done e src dst) src ∧
      Agree (installUpdateCopyFileUnverified done e src dst) src) ∧
  ∀ e dst, Works src.length e src → Stable e src dst →
    Agree (installOverwriteFileWhole done e src dst) src

/-- However the source is read in pieces, when all of them but the last are accepted the last one
is accepted too. -/
def ChunksAccepted (done : ℕ → ℕ) (src : List UInt8) : Prop :=
  ∀ (front : List (List UInt8)) (last : List UInt8),
    (∀ p ∈ front ++ [last], p ≠ [] ∧ p.length ≤ copyChunkSize) → (front ++ [last]).flatten = src →
    (∀ p ∈ front, done p.length = p.length) → done last.length = last.length

theorem ok_of_returned {a : WriteAnswer} {n : ℕ} (h : returned done a n ≠ 0) : a.ok = true := by
  by_contra hfails
  exact h (if_neg hfails)

variable {verify : Bool} {a : WriteAnswer}

theorem writtenTo_of_ok (h : a.ok = true) (old : Place) (data : List UInt8) :
    writtenTo a old data = .file data := if_pos h

theorem appendedTo_of_ok (h : a.ok = true) (old piece : List UInt8) :
    appendedTo a old piece = old ++ piece := if_pos h

theorem loadReads_honest {reads : List FdRead} {rest data : List UInt8} (h : Honest reads rest)
    (hload : loadReads rest.length reads = some data) : data = rest := by
  induction reads generalizing rest data with
  | nil =>
    cases rest with
    | nil => exact (Option.some.inj hload).symm
    | cons c rest => cases hload
  | cons read reads ih =>
    cases rest with
    | nil => exact (Option.some.inj hload).symm
    | cons c rest =>
      cases read with
      | none => cases hload
      | some piece =>
        cases piece with
        | nil => cases hload
        | cons b bs =>
          obtain ⟨rest', hrest, hhonest⟩ := h
          have hlen := congrArg List.length hrest
          rw [length_append, length_cons, length_cons] at hlen
          have hleft : rest.length - bs.length = rest'.length := by omega
          rw [length_cons, loadReads, hleft] at hload
          obtain ⟨tail, htail, rfl⟩ := Option.map_eq_some_iff.1 hload
          rw [ih hhonest htail, hrest]

theorem streamLoop_honest {reads : List (FdRead × WriteAnswer)} {rest front data : List UInt8}
    {bytes count : ℕ} (h : Honest (reads.map Prod.fst) rest)
    (hloop : streamLoop done reads front bytes = (true, data, count)) : data = front ++ rest := by
  induction reads generalizing rest front bytes with
  | nil => cases hloop
  | cons read reads ih =>
    obtain ⟨piece, a⟩ := read
    cases piece with
    | none => cases hloop
    | some piece =>
      cases piece with
      | nil =>
        cases hloop
        have hend : rest = [] := h
        rw [hend, append_nil]
      | cons b bs =>
        obtain ⟨rest', rfl, hhonest⟩ := h
        rw [streamLoop] at hloop
        split at hloop
        case isTrue => cases hloop
        case isFalse haccepted =>
          rw [Decidable.not_not] at haccepted
          have hok : a.ok = true := by
            apply @ok_of_returned done a (b :: bs).length
            rw [haccepted]
            exact Nat.succ_ne_zero _
          rw [appendedTo_of_ok hok] at hloop
          rw [ih hhonest hloop, append_assoc]

theorem checked_dst (verify : Bool) (c : Copied) : (checked verify e src c).dst = c.dst := by
  rw [checked]
  split <;> rfl

theorem copyFile_file (hok : (copyFile done verify e src dst).ok = true) :
    ∃ bytes, (copyFile done verify e src dst).dst = .file bytes ∧
      (Honest (e.reads.map Prod.fst) src → bytes = src) := by
  rw [copyFile] at hok ⊢
  split at hok
  case isTrue => cases hok
  case isFalse hplace =>
    rw [if_neg hplace]
    split at hok
    case isTrue => cases hok
    case isFalse hremove =>
      rw [if_neg hremove]
      split at hok
      case isTrue hempty =>
        rw [if_pos hempty]
        dsimp only at hok ⊢
        split at hok
        case isTrue => cases hok
        case isFalse hcreate =>
          rw [if_neg hcreate]
          split at hok
          case isTrue => cases hok
          case isFalse hverify =>
            rw [if_neg hverify]
            refine ⟨[], writtenTo_of_ok (ok_of_returned hcreate) _ _, fun _ => ?_⟩
            exact (length_eq_zero_iff.1 hempty).symm
      case isFalse hne =>
        rw [if_neg hne]
        split at hok
        case isTrue hwhole =>
          rw [if_pos hwhole]
          split at hok
          case isTrue => cases hok
          case isFalse hopens =>
            rw [if_neg hopens]
            cases hload : loadReads src.length (e.reads.map Prod.fst) with
            | none =>
              rw [hload] at hok
              cases hok
            | some whole =>
              rw [hload] at hok
              dsimp only at hok ⊢
              split at hok
              case isTrue => cases hok
              case isFalse hwrote =>
                rw [Decidable.not_not] at hwrote
                rw [if_neg (not_not_intro hwrote), checked_dst]
                exact ⟨whole, writtenTo_of_ok (ok_of_returned (by rwa [hwrote])) _ _,
                  fun hreads => loadReads_honest hreads hload⟩
        case isFalse hwhole =>
          rw [if_neg hwhole]
          split at hok
          case isTrue => cases hok
          case isFalse hopens =>
            rw [if_neg hopens]
            dsimp only at hok ⊢
            split at hok
            case isTrue => cases hok
            case isFalse hcreate =>
              rw [if_neg hcreate]
              rcases hloop : streamLoop done e.reads [] 0 with ⟨_ | _, data, count⟩
              · rw [hloop] at hok
                cases hok
              · dsimp only
                rw [checked_dst]
                refine ⟨data, rfl, fun hreads => ?_⟩
                rw [streamLoop_honest hreads hloop, nil_append]

theorem copyFile_sound (h : Honest (e.reads.map Prod.fst) src)
    (hok : (copyFile done verify e src dst).ok = true) :
    (copyFile done verify e src dst).dst = .file src := by
  obtain ⟨bytes, hdst, hbytes⟩ := copyFile_file hok
  rw [hdst, hbytes h]

theorem installOverwriteFileWhole_file
    (hok : (installOverwriteFileWhole done e src dst).ok = true) :
    ∃ bytes, (installOverwriteFileWhole done e src dst).dst = .file bytes ∧
      (Honest (e.reads.map Prod.fst) src → bytes = src) := by
  rw [installOverwriteFileWhole] at hok ⊢
  split at hok
  case isTrue => cases hok
  case isFalse hplace =>
    rw [if_neg hplace]
    split at hok
    case isTrue hempty =>
      rw [if_pos hempty]
      dsimp only at hok ⊢
      split at hok
      case isTrue => cases hok
      case isFalse hwrote =>
        rw [if_neg hwrote]
        rw [not_or, Decidable.not_not, Decidable.not_not] at hwrote
        -- the size says that the file is empty, whatever the call has returned
        cases hdst : writtenTo e.create dst [] with
        | nothing =>
          rw [hdst] at hwrote
          cases hwrote.2
        | directory =>
          rw [hdst] at hwrote
          cases hwrote.2
        | file bytes =>
          rw [hdst, statSize] at hwrote
          split at hwrote
          case isFalse => cases hwrote.2
          case isTrue =>
            have hlen := Option.some.inj hwrote.2
            refine ⟨bytes, rfl, fun _ => ?_⟩
            rw [length_eq_zero_iff.1 hlen, length_eq_zero_iff.1 hempty]
    case isFalse hne =>
      rw [if_neg hne]
      split at hok
      case isTrue => cases hok
      case isFalse hmemory =>
        rw [if_neg hmemory]
        cases hload : loadReads src.length (e.reads.map Prod.fst) with
        | none =>
          rw [hload] at hok
          cases hok
        | some data =>
          rw [hload] at hok
          dsimp only at hok ⊢
          split at hok
          case isTrue => cases hok
          case isFalse hwrote =>
            rw [if_neg hwrote]
            split at hok
            case isTrue => cases hok
            case isFalse hverify =>
              rw [Decidable.not_not] at hwrote
              rw [if_neg hverify]
              exact ⟨data, writtenTo_of_ok (ok_of_returned (by rwa [hwrote])) _ _,
                fun hreads => loadReads_honest hreads hload⟩

theorem installOverwriteFileWhole_sound (h : Honest (e.reads.map Prod.fst) src)
    (hok : (installOverwriteFileWhole done e src dst).ok = true) :
    (installOverwriteFileWhole done e src dst).dst = .file src := by
  obtain ⟨bytes, hdst, hbytes⟩ := installOverwriteFileWhole_file hok
  rw [hdst, hbytes h]

/-! ## A copy is a success -/

theorem honest_of_delivers {limit : ℕ} {reads : List FdRead} (h : Delivers limit reads src) :
    Honest reads src := by
  obtain ⟨pieces, more, hpieces, hsrc, hreads⟩ := h
  rw [hreads, ← hsrc]
  clear hreads hsrc
  induction pieces with
  | nil => rfl
  | cons p pieces ih =>
    rw [forall_mem_cons] at hpieces
    obtain ⟨b, bs, rfl⟩ := exists_cons_of_ne_nil hpieces.1.1
    exact ⟨pieces.flatten, rfl, ih hpieces.2⟩

theorem loadReads_delivers {limit : ℕ} {reads : List FdRead} (h : Delivers limit reads src) :
    loadReads src.length reads = some src := by
  obtain ⟨pieces, more, hpieces, rfl, hreads⟩ := h
  rw [hreads]
  exact loadReads_chunks (fun p hp => (hpieces p hp).1) _

theorem writtenTo_ne {a : WriteAnswer} {old : Place} {data : List UInt8} (hfails : a.ok = false)
    (hold : old ≠ .file data) : writtenTo a old data ≠ .file data := by
  rw [writtenTo, hfails, if_neg Bool.false_ne_true]
  split
  · exact hold
  · split
    case isTrue hk =>
      intro heq
      have hlen := congrArg List.length (Place.file.inj heq)
      rw [length_take] at hlen
      omega
    case isFalse => exact hold

theorem length_appendedTo_lt {a : WriteAnswer} {old piece : List UInt8} (hfails : a.ok = false)
    (hne : piece ≠ []) : (appendedTo a old piece).length < old.length + piece.length := by
  have hpos := length_pos_of_ne_nil hne
  rw [appendedTo, hfails, if_neg Bool.false_ne_true]
  split
  · omega
  · split
    · rw [length_append, length_take]
      omega
    · omega

theorem streamLoop_failed (haccepted : ChunksAccepted done src)
    {reads : List (FdRead × WriteAnswer)} {front pieces : List (List UInt8)} {more : List FdRead}
    {data : List UInt8} {bytes count : ℕ}
    (hpieces : ∀ p ∈ front ++ pieces, p ≠ [] ∧ p.length ≤ copyChunkSize)
    (hsrc : (front ++ pieces).flatten = src) (hfront : ∀ p ∈ front, done p.length = p.length)
    (hreads : reads.map Prod.fst = pieces.map some ++ some [] :: more)
    (hloop : streamLoop done reads front.flatten bytes = (false, data, count)) : data ≠ src := by
  induction pieces generalizing front reads bytes with
  | nil =>
    cases reads with
    | nil => cases hreads
    | cons read reads =>
      obtain ⟨piece, a⟩ := read
      have hend := (List.cons.inj hreads).1
      change piece = some [] at hend
      rw [hend] at hloop
      cases hloop
  | cons p pieces ih =>
    cases reads with
    | nil => cases hreads
    | cons read reads =>
      obtain ⟨piece, a⟩ := read
      obtain ⟨hread, hrest⟩ := List.cons.inj hreads
      change piece = some p at hread
      have hp := (hpieces p (by simp)).1
      obtain ⟨b, bs, rfl⟩ := exists_cons_of_ne_nil hp
      rw [hread, streamLoop] at hloop
      split at hloop
      case isTrue hrefused =>
        cases hloop
        cases hok : a.ok with
        | false =>
          intro heq
          have hlt := @length_appendedTo_lt a front.flatten _ hok hp
          rw [heq, ← hsrc, flatten_append, flatten_cons, length_append,
            length_append] at hlt
          omega
        | true =>
          rw [returned, if_pos hok] at hrefused
          rw [appendedTo_of_ok hok]
          intro heq
          apply hrefused
          -- nothing is left behind the piece that is refused
          have hrest : pieces = [] := by
            cases pieces with
            | nil => rfl
            | cons q pieces =>
              have hq := length_pos_of_ne_nil (hpieces q (by simp)).1
              have hlen := congrArg List.length (heq.trans hsrc.symm)
              simp only [flatten_append, flatten_cons, length_append] at hlen
              omega
          rw [hrest] at hpieces hsrc
          exact haccepted front (b :: bs) hpieces hsrc hfront
      case isFalse hmatches =>
        rw [Decidable.not_not] at hmatches
        have hok : a.ok = true := by
          apply @ok_of_returned done a (b :: bs).length
          rw [hmatches]
          exact Nat.succ_ne_zero _
        rw [returned, if_pos hok] at hmatches
        have hfront' : ∀ q ∈ front ++ [b :: bs], done q.length = q.length := by
          intro q hq
          cases mem_append.1 hq with
          | inl hq => exact hfront q hq
          | inr hq => rwa [mem_singleton.1 hq]
        have hflat : appendedTo a front.flatten (b :: bs) = (front ++ [b :: bs]).flatten := by
          rw [appendedTo_of_ok hok, flatten_append, flatten_singleton]
        rw [hflat] at hloop
        rw [append_cons] at hpieces hsrc
        exact ih hpieces hsrc hfront' hrest hloop

theorem checked_ok {c : Copied} (hverify : e.verify = true) (hok : c.ok = true)
    (hdst : c.dst = .file src) : (checked verify e src c).ok = true := by
  rw [checked, if_neg]
  · exact hok
  · rw [hdst, statSize, hverify]
    exact fun h => h.2 rfl

theorem returned_of_fails {n : ℕ} (h : a.ok = false) : returned done a n = 0 := by
  rw [returned, h, if_neg Bool.false_ne_true]

/-- A file system that the shared text understands, for one file. -/
structure Understood (done : ℕ → ℕ) (src : List UInt8) : Prop where
  empty : src = [] → done 0 ≠ 0
  whole : src ≠ [] → done src.length = src.length
  stream : src ≠ [] → done 0 = 0 ∨ ChunksAccepted done src

theorem copyFile_complete (hdone : Understood done src)
    (hworks : Works copyChunkSize e src) (hstable : Stable e src dst)
    (hdst : (copyFile done verify e src dst).dst = .file src) :
    (copyFile done verify e src dst).ok = true := by
  rw [copyFile, hworks.stat, hworks.opens] at hdst ⊢
  split
  case isTrue hplace =>
    rw [if_pos hplace] at hdst
    rw [or_iff_right (by decide)] at hplace
    rw [hplace] at hdst
    cases hdst
  case isFalse hplace =>
    rw [if_neg hplace] at hdst
    split
    case isTrue hremove =>
      rw [if_pos hremove] at hdst
      have hcan := (hstable hdst).1
      rw [hremove.2] at hcan
      cases hcan
    case isFalse hremove =>
      rw [if_neg hremove] at hdst
      split
      case isTrue hempty =>
        rw [if_pos hempty] at hdst
        have hnil := length_eq_zero_iff.1 hempty
        cases hok : e.create.ok with
        | false =>
          have hne := @writtenTo_ne e.create .nothing [] hok (by decide)
          dsimp only at hdst
          rw [returned_of_fails hok, if_pos rfl, hnil] at hdst
          exact absurd hdst hne
        | true =>
          dsimp only
          rw [returned, if_pos hok, if_neg (hdone.empty hnil), writtenTo_of_ok hok, if_neg]
          rw [statSize, hworks.verify]
          exact fun h => h.2 rfl
      case isFalse hne =>
        rw [if_neg hne] at hdst
        have hnil : src ≠ [] := fun h => hne (by rw [h]; rfl)
        split
        case isTrue hwhole =>
          rw [if_pos hwhole, if_neg (by decide), loadReads_delivers hworks.reads] at hdst
          rw [if_neg (by decide), loadReads_delivers hworks.reads]
          dsimp only at hdst ⊢
          cases hok : e.write.ok with
          | false =>
            have hleft := @writtenTo_ne e.write .nothing src hok (by simp)
            rw [returned_of_fails hok, if_pos (Ne.symm hne)] at hdst
            exact absurd hdst hleft
          | true =>
            rw [returned, if_pos hok, if_neg (not_not_intro (hdone.whole hnil))]
            exact checked_ok hworks.verify rfl (writtenTo_of_ok hok _ _)
        case isFalse hwhole =>
          rw [if_neg hwhole, if_neg (by decide)] at hdst
          rw [if_neg (by decide)]
          dsimp only at hdst ⊢
          cases hok : e.create.ok with
          | false =>
            rw [returned_of_fails hok, if_pos rfl] at hdst
            have hleft : writtenTo e.create .nothing [] = .nothing := by
              rw [writtenTo, hok, if_neg Bool.false_ne_true]
              split
              · rfl
              · exact if_neg (Nat.not_lt_zero _)
            rw [hleft] at hdst
            cases hdst
          | true =>
            rw [returned, if_pos hok] at hdst ⊢
            split
            case isTrue hzero =>
              rw [if_pos hzero, writtenTo_of_ok hok] at hdst
              exact absurd (Place.file.inj hdst).symm hnil
            case isFalse hzero =>
              rw [if_neg hzero] at hdst
              have haccepted := (hdone.stream hnil).resolve_left hzero
              obtain ⟨pieces, more, hpieces, hsrc, hreads⟩ := hworks.reads
              rcases hloop : streamLoop done e.reads [] 0 with ⟨_ | _, data, count⟩
              · rw [hloop] at hdst
                have hfailed := @streamLoop_failed done src haccepted e.reads [] pieces more data
                  0 count hpieces hsrc (by simp) hreads hloop
                exact absurd (Place.file.inj hdst) hfailed
              · rw [hloop] at hdst
                dsimp only at hdst ⊢
                rw [checked_dst] at hdst
                exact checked_ok hworks.verify rfl hdst

theorem installOverwriteFileWhole_complete (hne : src ≠ []) (hdone : done src.length = src.length)
    (hworks : Works src.length e src) (hstable : Stable e src dst)
    (hdst : (installOverwriteFileWhole done e src dst).dst = .file src) :
    (installOverwriteFileWhole done e src dst).ok = true := by
  have hlen : ¬ src.length = 0 := fun h => hne (length_eq_zero_iff.1 h)
  rw [installOverwriteFileWhole, hworks.stat, hworks.opens, if_neg hlen] at hdst ⊢
  split
  case isTrue hplace =>
    rw [if_pos hplace] at hdst
    rw [or_iff_right (by decide)] at hplace
    rw [hplace] at hdst
    cases hdst
  case isFalse hplace =>
    rw [if_neg hplace] at hdst
    split
    case isTrue hmemory =>
      rw [if_pos hmemory] at hdst
      rw [or_iff_left (by decide), (hstable hdst).2.1] at hmemory
      cases hmemory
    case isFalse hmemory =>
      rw [if_neg hmemory, loadReads_delivers hworks.reads] at hdst
      rw [loadReads_delivers hworks.reads]
      dsimp only at hdst ⊢
      cases hok : e.write.ok with
      | false =>
        rw [returned_of_fails hok, if_pos (Ne.symm hlen)] at hdst
        by_cases hold : dst = .file src
        · have hwrites := (hstable hold).2.2
          rw [hok] at hwrites
          cases hwrites
        · exact absurd hdst (writtenTo_ne hok hold)
      | true =>
        rw [returned, if_pos hok, if_neg (not_not_intro hdone), writtenTo_of_ok hok, if_neg]
        rw [statSize, hworks.verify]
        exact fun h => h rfl

/-- A call that writes all it is given. -/
def writesAll : WriteAnswer := ⟨true, none⟩

/-- Everything works, with memory or without. -/
def allWorks (memory : Bool) (pieces : List (List UInt8)) : CopyAnswers where
  stat := true
  remove := true
  memory := memory
  opens := true
  create := writesAll
  write := writesAll
  reads := (pieces.map fun p => (some p, writesAll)) ++ [(some [], writesAll)]
  verify := true

theorem works_allWorks {limit : ℕ} {pieces : List (List UInt8)} (memory : Bool)
    (hpieces : ∀ p ∈ pieces, p ≠ [] ∧ p.length ≤ limit) (hsrc : pieces.flatten = src) :
    Works limit (allWorks memory pieces) src := by
  refine ⟨rfl, rfl, rfl, pieces, [], hpieces, hsrc, ?_⟩
  rw [allWorks, map_append, map_map]
  rfl

theorem returned_writesAll (n : ℕ) : returned done writesAll n = done n := rfl

theorem begins_allWorks (memory : Bool) (pieces : List (List UInt8)) :
    ¬ ((allWorks memory pieces).stat = false ∨ Place.nothing = .directory) := by
  rintro (h | h)
  · cases h
  · cases h

theorem streamLoop_accepted {front : List (List UInt8)} (hne : ∀ p ∈ front, p ≠ [])
    (hfront : ∀ p ∈ front, done p.length = p.length) (reads : List (FdRead × WriteAnswer))
    (data : List UInt8) (bytes : ℕ) :
    streamLoop done ((front.map fun p => (some p, writesAll)) ++ reads) data bytes =
      streamLoop done reads (data ++ front.flatten) (bytes + front.flatten.length) := by
  induction front generalizing data bytes with
  | nil => simp
  | cons p front ih =>
    rw [forall_mem_cons] at hne hfront
    obtain ⟨b, bs, rfl⟩ := exists_cons_of_ne_nil hne.1
    rw [map_cons, cons_append, streamLoop, returned_writesAll,
      if_neg (not_not_intro hfront.1), appendedTo_of_ok rfl, ih hne.2 hfront.2,
      flatten_cons, length_append, append_assoc, Nat.add_assoc]

theorem copyFile_allWorks_nil (verify : Bool) :
    copyFile done verify (allWorks true []) [] .nothing =
      if done 0 = 0 then notCopied (.file []) else ⟨true, .file [], 1, 0⟩ := by
  cases verify <;> rfl

theorem not_routinesAgree_nil : ¬ RoutinesAgree done [] := by
  intro hagree
  have hworks {limit : ℕ} : Works limit (allWorks true []) [] := works_allWorks true (by simp) rfl
  have hstable : Stable (allWorks true []) [] .nothing := fun h => by cases h
  have hcopy := (hagree.1 _ _ hworks hstable).1
  have hover := hagree.2 _ _ hworks hstable
  rw [Agree, installCopyFile, copyFile_allWorks_nil] at hcopy
  rw [Agree] at hover
  by_cases hzero : done 0 = 0
  · rw [if_pos hzero] at hcopy
    cases hcopy.2 rfl
  · have hfails : installOverwriteFileWhole done (allWorks true []) [] .nothing =
        notCopied (.file []) := by
      rw [installOverwriteFileWhole, if_neg (begins_allWorks _ _), if_pos length_nil]
      exact if_pos (.inl hzero)
    rw [hfails] at hover
    cases hover.2 rfl

theorem done_of_agree (hne : src ≠ []) (h : RoutinesAgree done src) :
    done src.length = src.length := by
  by_contra hdone
  have hworks : Works src.length (allWorks true [src]) src :=
    works_allWorks true (by simpa using hne) (by simp)
  have hover := h.2 _ .nothing hworks fun h => by cases h
  have hlen : ¬ src.length = 0 := fun h => hne (length_eq_zero_iff.1 h)
  have hfails : installOverwriteFileWhole done (allWorks true [src]) src .nothing =
      notCopied (.file src) := by
    rw [installOverwriteFileWhole, if_neg (begins_allWorks _ _), if_neg hlen,
      if_neg (by simp [allWorks]), loadReads_delivers hworks.reads]
    exact if_pos hdone
  rw [Agree, hfails] at hover
  cases hover.2 rfl

theorem chunksAccepted_of_agree (hzero : done 0 ≠ 0) (h : RoutinesAgree done src) :
    ChunksAccepted done src := by
  intro front last hpieces hsrc hfront
  by_contra hlast
  have hworks := works_allWorks false hpieces hsrc
  have hcopy := (h.1 _ .nothing hworks fun h => by cases h).1
  have hne := length_pos_of_ne_nil (hpieces last (by simp)).1
  have hlen : ¬ src.length = 0 := by
    rw [← hsrc, flatten_append, length_append, flatten_singleton]
    omega
  have hloop : ∃ count, streamLoop done (allWorks false (front ++ [last])).reads [] 0 =
      (false, src, count) := by
    obtain ⟨b, bs, rfl⟩ := exists_cons_of_ne_nil (hpieces last (by simp)).1
    refine ⟨0 + front.flatten.length, ?_⟩
    rw [allWorks, map_append, append_assoc,
      streamLoop_accepted (fun p hp => (hpieces p (by simp [hp])).1) hfront, map_singleton,
      singleton_append, streamLoop, returned_writesAll, if_pos hlast, appendedTo_of_ok rfl,
      nil_append, ← hsrc, flatten_append, flatten_singleton]
  obtain ⟨count, hloop⟩ := hloop
  have hfails : installCopyFile done (allWorks false (front ++ [last])) src .nothing =
      ⟨false, .file src, 0, count⟩ := by
    rw [installCopyFile, copyFile, if_neg (begins_allWorks _ _), if_neg (by simp), if_neg hlen,
      if_neg (by simp [allWorks]), if_neg (by simp [allWorks])]
    dsimp only
    rw [hloop, if_neg]
    exact hzero
  rw [Agree, hfails] at hcopy
  cases hcopy.2 rfl

theorem routinesAgree_iff : RoutinesAgree done src ↔
    src ≠ [] ∧ done src.length = src.length ∧ (done 0 = 0 ∨ ChunksAccepted done src) := by
  constructor
  · intro hagree
    have hne : src ≠ [] := by
      intro hempty
      rw [hempty] at hagree
      exact not_routinesAgree_nil hagree
    refine ⟨hne, done_of_agree hne hagree, ?_⟩
    by_cases hzero : done 0 = 0
    · exact .inl hzero
    · exact .inr (chunksAccepted_of_agree hzero hagree)
  · rintro ⟨hne, hdone, hstream⟩
    have hunderstood : Understood done src :=
      ⟨fun h => absurd h hne, fun _ => hdone, fun _ => hstream⟩
    constructor
    · intro e dst hworks hstable
      have hreads := honest_of_delivers hworks.reads
      exact ⟨⟨copyFile_sound hreads, copyFile_complete hunderstood hworks hstable⟩,
        copyFile_sound hreads, copyFile_complete hunderstood hworks hstable⟩
    · intro e dst hworks hstable
      exact ⟨installOverwriteFileWhole_sound (honest_of_delivers hworks.reads),
        installOverwriteFileWhole_complete hne hdone hworks hstable⟩

/-- Whatever the calls answer, a success is a copy. The three routines report success exactly
when the destination is a copy, on a file system that returns `done`, when the file is not empty,
`done` returns its length for it, and when nothing can be created or the pieces are accepted. -/
theorem copies_agree_iff (done : ℕ → ℕ) (src : List UInt8) :
    (∀ (e : CopyAnswers) (dst : Place),
      Honest (e.reads.map Prod.fst) src →
      ((installCopyFile done e src dst).ok = true →
        (installCopyFile done e src dst).dst = .file src) ∧
      ((installUpdateCopyFileUnverified done e src dst).ok = true →
        (installUpdateCopyFileUnverified done e src dst).dst = .file src) ∧
      ((installOverwriteFileWhole done e src dst).ok = true →
        (installOverwriteFileWhole done e src dst).dst = .file src)) ∧
    (RoutinesAgree done src ↔
      src ≠ [] ∧ done src.length = src.length ∧ (done 0 = 0 ∨ ChunksAccepted done src)) := by
  constructor
  · intro e dst hreads
    exact ⟨copyFile_sound hreads, copyFile_sound hreads, installOverwriteFileWhole_sound hreads⟩
  · exact routinesAgree_iff

theorem copies_agree_one_byte : RoutinesAgree (fun n => n) [65] ∧
    (installCopyFile (fun _ => 1) (allWorks true [[65]]) [65] .nothing).dst = .file [65] :=
  ⟨(copies_agree_iff (fun n => n) [65]).2.2 ⟨by decide, rfl, .inl rfl⟩,
    ((copies_agree_iff (fun _ => 1) [65]).1 (allWorks true [[65]]) .nothing
      ⟨[], rfl, rfl⟩).1 (by decide)⟩

/-- A copy of two bytes is reported as a failure where the calls return 1. -/
theorem two_bytes_disagree :
    (installCopyFile (fun _ => 1) (allWorks true [[65, 66]]) [65, 66] .nothing).dst =
        .file [65, 66] ∧
      ¬ ∀ (done : ℕ → ℕ) (src : List UInt8), RoutinesAgree done src := by
  constructor
  · decide
  · intro hall
    have hdone := done_of_agree (by decide) (hall (fun _ => 1) [65, 66])
    cases hdone

end Cleonos.Install
