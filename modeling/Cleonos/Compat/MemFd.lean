import Cleonos.Compat.Streams

/-!
# The descriptors of Doom

`doom_compat.c`: as the streams of the other ports, with an access mode, and with other rules for
the files that an opening loads and a close writes.
-/

namespace Cleonos.Compat

open Option

section

open Buffer (slice store)
open Descriptor (Handle Call Answer Layer Does Simulates)

/-! ## The source -/

/-- `dg_mem_fd`; of the path it matters whether it is below `/temp`. -/
structure MemFd where
  writable : Bool
  dirty : Bool
  pos : ℕ
  size : ℕ
  cap : ℕ
  data : ℕ → UInt8
  temp : Bool

def oAccmode : ℕ := 3

/-- The loop of `dg_fd_ensure_cap`. -/
def doubledChecked : ℕ → ℕ → ℕ → Option ℕ
  | 0, _, _ => none
  | fuel + 1, cap, need =>
    if cap < need then
      if cap > (2 ^ 64 - 1) / 2 then none else doubledChecked fuel (cap * 2) need
    else some cap

/-- `dg_fd_ensure_cap`; the capacity is doubled at most 64 times. -/
def fdEnsureCap (file : MemFd) (need : ℕ) (memory : Option (ℕ → UInt8)) : Option MemFd :=
  if need ≤ file.cap then some file
  else
    match doubledChecked 65 (if file.cap = 0 then 256 else file.cap) need with
    | none => none
    | some cap =>
      memory.map fun memory => { file with data := grown file.data file.cap memory, cap := cap }

def MemFd.content (file : MemFd) : List UInt8 := slice file.data 0 file.size

/-- What `open` does about the file that is there, if one is seen. -/
def loadFd (seen : Option (List UInt8)) (flags : ℕ) (e : OpenEnv) (file : MemFd) : Option MemFd :=
  match seen with
  | none => if file.writable = false then none else some file
  | some content =>
    if content.length > 0 then
      (fdEnsureCap file content.length e.memory).bind fun file =>
        if e.read = false then none
        else some { file with
          data := store file.data 0 content
          size := content.length
          pos := if hasFlag flags oAppend then content.length else 0 }
    else some file

/-- `open`, with a path that is resolved; the file that is there is an argument. -/
def openFd (temp : Bool) (old : Option (List UInt8)) (flags : ℕ) (e : OpenEnv) : Option MemFd :=
  let writable := hasFlag flags oAccmode
  if writable ∧ temp = false then none
  else if e.entry = false then none
  else
    let file : MemFd := ⟨writable, false, 0, 0, 0, fun _ => 0, temp⟩
    let loaded :=
      if writable = false ∨ hasFlag flags oAppend then
        loadFd (if e.stat then old else none) flags e file
      else some file
    loaded.map fun file =>
      if hasFlag flags oTrunc then { file with size := 0, pos := 0, dirty := true } else file

/-- `read`. -/
def readFd (file : MemFd) (size : ℕ) : List UInt8 × MemFd :=
  if size = 0 then ([], file)
  else
    let left := if file.pos < file.size then file.size - file.pos else 0
    let n := if size < left then size else left
    if n > 0 then (slice file.data file.pos n, { file with pos := file.pos + n }) else ([], file)

/-- `write`; the index is a word. -/
def writeFd (file : MemFd) (bytes : List UInt8) (memory : Option (ℕ → UInt8)) : Option MemFd :=
  if bytes.length = 0 then some file
  else if file.writable = false then none
  else
    (fdEnsureCap file ((file.pos + bytes.length) % 2 ^ 64) memory).map fun file =>
      let pos := (file.pos + bytes.length) % 2 ^ 64
      { file with
        data := store file.data file.pos bytes
        pos := pos
        size := if pos > file.size then pos else file.size
        dirty := true }

/-- `lseek`. -/
def lseekFd (file : MemFd) (offset whence : ℤ) : Option MemFd :=
  let seek (base : ℤ) : Option MemFd :=
    let next := long (base + offset)
    if next < 0 then none else some { file with pos := next.toNat }
  if whence = 0 then seek 0
  else if whence = 1 then seek (long file.pos)
  else if whence = 2 then seek (long file.size)
  else none

/-- `dg_fd_flush_slot`. -/
def flushFd (file : MemFd) (disk : Option (List UInt8)) (e : Env) :
    Bool × MemFd × Option (List UInt8) :=
  if file.writable = false ∨ file.dirty = false then (true, file, disk)
  else if file.temp = false then (false, file, disk)
  else
    let disk := if e.written then some file.content else e.spoiled
    if (if e.written then 1 else 0) ≠ file.size then (false, file, disk)
    else (true, { file with dirty := false }, disk)

/-- The calls, `close` among them. -/
def fdStep (file : MemFd) (disk : Option (List UInt8)) (c : Call UInt8) (e : Env) :
    Answer UInt8 × Option MemFd × Option (List UInt8) :=
  match c with
  | .read n => (.items (readFd file n).1, some (readFd file n).2, disk)
  | .write bytes =>
    match writeFd file bytes e.memory with
    | some file => (.value bytes.length, some file, disk)
    | none => (.error, some file, disk)
  | .lseek offset whence =>
    match lseekFd file offset whence with
    | some file => (.value file.pos, some file, disk)
    | none => (.error, some file, disk)
  | .close =>
    match flushFd file disk e with
    | (false, file, disk) => (.error, some file, disk)
    | (true, _, disk) => (.value 0, none, disk)

def fdLayer : Layer UInt8 Env := ⟨MemFd, fdStep⟩

/-- It is a descriptor opened with these flags. -/
structure FdRepr (flags : ℕ) (file : MemFd) (d : Handle UInt8) : Prop where
  content : d.content = file.content
  pos : d.pos = file.pos
  writable : file.writable = mayWrite flags
  mayRead : d.mayRead = mayRead flags
  mayWrite : d.mayWrite = mayWrite flags
  append : d.append = hasFlag flags oAppend
  bound : file.pos < 2 ^ 63
  room : file.size ≤ file.cap
  small : file.size < 2 ^ 63

/-- What a call must be for the layer to answer it as a descriptor does.  A write that the access
mode forbids is refused, unless it is empty. -/
def FdGood (flags : ℕ) (file : MemFd) (disk : Option (List UInt8)) (c : Call UInt8) (e : Env) :
    Prop :=
  match c with
  | .read _ => mayRead flags = true
  | .write bytes =>
    if mayWrite flags then bytes = [] ∨ file.pos ≤ file.size ∧
      (hasFlag flags oAppend = true → file.pos = file.size) ∧ file.pos + bytes.length < 2 ^ 63
    else bytes ≠ []
  | .lseek offset whence => -2 ^ 63 ≤ offset ∧ offset < 2 ^ 63 ∧
      (whence = 1 → (file.pos : ℤ) + offset < 2 ^ 63) ∧
      (whence = 2 → (file.size : ℤ) + offset < 2 ^ 63)
  | .close =>
    if mayWrite flags ∧ file.dirty then file.size ≠ 0 ∨ e.written = true
    else disk = some file.content

variable {flags : ℕ} {file : MemFd} {d : Handle UInt8} {disk : Option (List UInt8)} {e : Env}

theorem hasFlag_accmode (flags : ℕ) : hasFlag flags oAccmode = mayWrite flags := by
  have hor : flags &&& 3 = flags &&& 1 ||| flags &&& 2 := Nat.and_or_distrib_left flags 1 2
  rw [mayWrite, hasFlag, hasFlag, hasFlag, oAccmode, oWronly, oRdwr, hor]
  by_cases h1 : flags &&& 1 = 0 <;> by_cases h2 : flags &&& 2 = 0 <;>
    simp [h1, h2, Nat.or_eq_zero_iff]

theorem le_of_doubledChecked {fuel cap need cap' : ℕ}
    (h : doubledChecked fuel cap need = some cap') : need ≤ cap' ∧ cap ≤ cap' := by
  induction fuel generalizing cap with
  | zero => cases h
  | succ fuel ih =>
    rw [doubledChecked] at h
    split at h
    · split at h
      · cases h
      · have := ih h
        omega
    · obtain rfl := Option.some.inj h
      omega

theorem fdEnsureCap_cases (file : MemFd) (need : ℕ) (memory : Option (ℕ → UInt8)) :
    fdEnsureCap file need memory = none ∨ ∃ data cap,
      fdEnsureCap file need memory = some { file with data := data, cap := cap } ∧ need ≤ cap ∧
        file.cap ≤ cap ∧ ∀ j < file.cap, data j = file.data j := by
  rw [fdEnsureCap]
  split
  case isTrue hroom =>
    exact .inr ⟨file.data, file.cap, rfl, hroom, Nat.le_refl _, fun _ _ => rfl⟩
  case isFalse hroom =>
    generalize hstart : (if file.cap = 0 then 256 else file.cap) = start
    have hstart' : file.cap ≤ start := by
      rw [← hstart]
      split <;> omega
    cases hcap : doubledChecked 65 start need with
    | none => exact .inl rfl
    | some cap =>
      obtain ⟨hneed, hle⟩ := le_of_doubledChecked hcap
      cases memory with
      | none => exact .inl rfl
      | some memory =>
        exact .inr ⟨_, cap, rfl, hneed, Nat.le_trans hstart' hle, fun j hj => if_pos hj⟩

section

variable (h : FdRepr flags file d)
include h

theorem readFd_does (hread : mayRead flags = true) (n : ℕ) :
    ∃ d', Does 0 d (.read n) (.items (readFd file n).1) d' ∧ FdRepr flags (readFd file n).2 d' := by
  have hdoes := Does.read (z := (0 : UInt8)) (n := n) (h.mayRead.trans hread)
  have hbytes : (d.content.drop d.pos).take n =
      slice file.data file.pos (min n (file.size - file.pos)) := by
    rw [h.content, h.pos, MemFd.content, Buffer.slice_drop, Nat.zero_add, Buffer.slice_take]
  rw [hbytes, Buffer.length_slice, h.pos] at hdoes
  have hbound := h.bound
  have hsmall := h.small
  have hcount : (if n < (if file.pos < file.size then file.size - file.pos else 0) then n
      else (if file.pos < file.size then file.size - file.pos else 0)) =
        min n (file.size - file.pos) := by
    split_ifs <;> omega
  rw [readFd]
  by_cases hzero : min n (file.size - file.pos) = 0
  · have hnothing : (if n = 0 then ([], file)
        else
          let left := if file.pos < file.size then file.size - file.pos else 0
          let n := if n < left then n else left
          if n > 0 then (slice file.data file.pos n, { file with pos := file.pos + n })
          else ([], file)) = ([], file) := by
      split
      · rfl
      · dsimp only
        rw [hcount, hzero]
        rfl
    rw [hnothing]
    rw [hzero] at hdoes
    exact ⟨_, hdoes, h.content, rfl, h.writable, h.mayRead, h.mayWrite, h.append, h.bound, h.room,
      h.small⟩
  · rw [if_neg (by omega)]
    dsimp only
    rw [hcount, if_pos (Nat.pos_of_ne_zero hzero)]
    exact ⟨_, hdoes, h.content, rfl, h.writable, h.mayRead, h.mayWrite, h.append,
      by dsimp only; omega, h.room, h.small⟩

theorem writeFd_does {bytes : List UInt8}
    (hgood : FdGood flags file disk (.write bytes) e) :
    writeFd file bytes e.memory = none ∨
    ∃ file' d', writeFd file bytes e.memory = some file' ∧
      Does 0 d (.write bytes) (.value bytes.length) d' ∧ FdRepr flags file' d' := by
  rw [FdGood] at hgood
  rw [writeFd]
  by_cases hempty : bytes = []
  · subst hempty
    split at hgood
    case isFalse => exact absurd rfl hgood
    case isTrue hwrite =>
      exact .inr ⟨file, d, rfl, .writeNothing (h.mayWrite.trans hwrite), h⟩
  have hne : bytes.length ≠ 0 := fun h0 => hempty (List.length_eq_zero_iff.1 h0)
  rw [if_neg hne]
  split at hgood
  case isFalse hforbidden =>
    rw [if_pos (by rw [h.writable]; simpa using hforbidden)]
    exact .inl rfl
  case isTrue hwrite =>
    obtain ⟨hin, happend, hstop⟩ := hgood.resolve_left hempty
    have hmod : (file.pos + bytes.length) % 2 ^ 64 = file.pos + bytes.length :=
      Nat.mod_eq_of_lt (by omega)
    rw [if_neg (by rw [h.writable, hwrite]; simp), hmod]
    have hroom := h.room
    have hsmall := h.small
    rcases fdEnsureCap_cases file (file.pos + bytes.length) e.memory with
      hfails | ⟨data, cap, hok, hneed, hcap, hdata⟩
    · rw [hfails]
      exact .inl rfl
    · rw [hok]
      right
      have hcontent : slice data 0 file.size = d.content := by
        rw [h.content]
        exact Buffer.slice_congr fun j _ hj => hdata j (by omega)
      have hwritePos : Descriptor.writePos d = file.pos := by
        rw [Descriptor.writePos, h.append, h.pos, h.content, MemFd.content, Buffer.length_slice]
        split
        case isTrue ha => exact (happend ha).symm
        case isFalse => rfl
      have hdoes := Does.write (z := (0 : UInt8)) (h.mayWrite.trans hwrite) hempty
      rw [hwritePos] at hdoes
      have hmax : (if file.pos + bytes.length > file.size then file.pos + bytes.length
          else file.size) = max file.size (file.pos + bytes.length) := by
        split <;> omega
      refine ⟨{ file with
        dirty := true
        pos := file.pos + bytes.length
        size := max file.size (file.pos + bytes.length)
        cap := cap
        data := store data file.pos bytes }, _, ?_, hdoes, ⟨?_, rfl, h.writable, h.mayRead,
          h.mayWrite, h.append, hstop, ?_, ?_⟩⟩
      · rw [map_some]
        dsimp only
        rw [hmod, hmax]
      · rw [MemFd.content, slice_store_of_le hin, hcontent]
      · dsimp only
        omega
      · dsimp only
        omega

theorem lseekFd_does {offset whence : ℤ}
    (hgood : FdGood flags file disk (.lseek offset whence) e) :
    (lseekFd file offset whence = none ∧ Does 0 d (.lseek offset whence) .error d) ∨
    ∃ file' d', lseekFd file offset whence = some file' ∧
      Does 0 d (.lseek offset whence) (.value file'.pos) d' ∧ FdRepr flags file' d' := by
  obtain ⟨hlow, hhigh, hcur, hend⟩ := hgood
  have hsmall := h.small
  have hbound := h.bound
  have hlen : d.content.length = file.size := by
    rw [h.content, MemFd.content, Buffer.length_slice]
  -- from a place in the file
  have hseek : ∀ b : ℕ, Descriptor.base d whence = some b → (b : ℤ) + offset < 2 ^ 63 →
      ((if long (b + offset) < 0 then none
          else some { file with pos := (long (b + offset)).toNat }) = none ∧
        Does 0 d (.lseek offset whence) .error d) ∨
      ∃ file' d', (if long (b + offset) < 0 then none
          else some { file with pos := (long (b + offset)).toNat }) = some file' ∧
        Does 0 d (.lseek offset whence) (.value file'.pos) d' ∧ FdRepr flags file' d' := by
    intro b hbase hlt
    by_cases hneg : (b : ℤ) + offset < 0
    · left
      have hlong : long (b + offset) = b + offset := by
        rw [long, Int.bmod_eq_of_le] <;> omega
      rw [hlong, if_pos hneg]
      exact ⟨rfl, .seekBefore hbase hneg⟩
    · right
      obtain ⟨pos, hpos⟩ := Int.eq_ofNat_of_zero_le (Int.not_lt.1 hneg)
      rw [long_of_lt (by omega) hlt, if_neg hneg, hpos, Int.toNat_natCast]
      exact ⟨{ file with pos := pos }, { d with pos := pos }, rfl, .seek hbase hpos, h.content, rfl,
        h.writable, h.mayRead, h.mayWrite, h.append, by dsimp only; omega, h.room, h.small⟩
  rw [lseekFd]
  dsimp only
  by_cases hset : whence = 0
  · rw [if_pos hset]
    exact hseek 0 (by rw [Descriptor.base, if_pos hset]) (by omega)
  by_cases hcurrent : whence = 1
  · have hlong : long (file.pos : ℤ) = file.pos := long_of_lt (by omega) (by omega)
    rw [if_neg hset, if_pos hcurrent, hlong]
    exact hseek file.pos (by rw [Descriptor.base, if_neg hset, if_pos hcurrent, h.pos])
      (hcur hcurrent)
  by_cases hsize : whence = 2
  · have hlong : long (file.size : ℤ) = file.size := long_of_lt (by omega) (by omega)
    rw [if_neg hset, if_neg hcurrent, if_pos hsize, hlong]
    exact hseek file.size
      (by rw [Descriptor.base, if_neg hset, if_neg hcurrent, if_pos hsize, hlen]) (hend hsize)
  · rw [if_neg hset, if_neg hcurrent, if_neg hsize]
    exact .inl ⟨rfl, .seekUnknown (by
      rw [Descriptor.base, if_neg hset, if_neg hcurrent, if_neg hsize])⟩

theorem fdLayer_simulates (c : Call UInt8)
    (hgood : FdGood flags file disk c e) :
    Simulates 0 fdLayer (FdRepr flags) disk d c (fdStep file disk c e) := by
  cases c with
  | read n =>
    obtain ⟨d', hdoes, hrepr⟩ := readFd_does h hgood n
    exact .inl ⟨d', hdoes, rfl, hrepr⟩
  | write bytes =>
    rw [fdStep]
    rcases writeFd_does h hgood with hfails | ⟨file', d', hok, hdoes, hrepr⟩
    · rw [hfails]
      exact .inl ⟨d, .writeRefused, rfl, h⟩
    · rw [hok]
      exact .inl ⟨d', hdoes, rfl, hrepr⟩
  | lseek offset whence =>
    rw [fdStep]
    rcases lseekFd_does h hgood with ⟨hnone, hdoes⟩ | ⟨file', d', hok, hdoes, hrepr⟩
    · rw [hnone]
      exact .inl ⟨d, hdoes, rfl, h⟩
    · rw [hok]
      exact .inl ⟨d', hdoes, rfl, hrepr⟩
  | close =>
    rw [FdGood] at hgood
    rw [fdStep, flushFd]
    by_cases hdirty : mayWrite flags = true ∧ file.dirty = true
    · rw [if_pos hdirty] at hgood
      rw [if_neg (by rw [h.writable]; simp [hdirty])]
      cases htemp : file.temp
      · rw [if_pos rfl]
        exact .inr ⟨rfl, rfl, h⟩
      · rw [if_neg (by simp)]
        dsimp only
        by_cases hwrote : (if e.written = true then 1 else 0) ≠ file.size
        · rw [if_pos hwrote]
          exact .inr ⟨rfl, rfl, h⟩
        · have hwritten : e.written = true := by
            by_contra hnot
            rw [if_neg hnot] at hwrote
            exact hgood.elim (fun h0 => hwrote (Ne.symm h0)) hnot
          rw [if_neg hwrote, if_pos hwritten]
          exact ⟨rfl, rfl, by rw [h.content]⟩
    · rw [if_neg hdirty] at hgood
      have hclean : file.writable = false ∨ file.dirty = false := by
        rw [h.writable]
        rw [not_and_or] at hdirty
        simpa using hdirty
      rw [if_pos hclean]
      exact ⟨rfl, rfl, by rw [hgood, h.content]⟩

end

/-- What an opening must be for it to be a descriptor: a file that is there is seen, and loaded
where it is not cut, and one that is not there is to be created, if it is opened for writing. -/
def FdOpenGood (old : Option (List UInt8)) (flags : ℕ) (e : OpenEnv) : Prop :=
  (mayWrite flags = true → old = none → hasFlag flags oCreat = true) ∧
    ∀ content, old = some content → content.length < 2 ^ 63 ∧
      (mayWrite flags = true → hasFlag flags oTrunc = true ∨ content = [] ∨
        hasFlag flags oAppend = true ∧ e.stat = true)

variable (flags file) in
theorem loadFd_cases {seen : Option (List UInt8)} (o : OpenEnv)
    (hseen : ∀ content, seen = some content → content.length < 2 ^ 63)
    (hsize : file.size = 0) (hpos : file.pos = 0) (hwritable : file.writable = mayWrite flags) :
    loadFd seen flags o file = none ∨ ∃ file', loadFd seen flags o file = some file' ∧
      file'.content = seen.getD [] ∧ file'.size < 2 ^ 63 ∧ file'.size ≤ file'.cap ∧
      file'.pos = (if hasFlag flags oAppend then file'.size else 0) ∧
      file'.writable = mayWrite flags ∧ (seen = none → mayWrite flags = true) := by
  have hunchanged : file.content = [] ∧ file.size < 2 ^ 63 ∧ file.size ≤ file.cap ∧
      file.pos = (if hasFlag flags oAppend then file.size else 0) := by
    refine ⟨?_, ?_, ?_, ?_⟩
    · rw [MemFd.content, hsize]
      rfl
    · rw [hsize]
      decide
    · rw [hsize]
      exact Nat.zero_le _
    · rw [hsize, hpos, ite_self]
  obtain ⟨hcontent, hsmall, hroom, hstart⟩ := hunchanged
  cases seen with
  | none =>
    rw [loadFd, hwritable]
    cases hwrite : mayWrite flags
    · exact .inl rfl
    · exact .inr ⟨file, rfl, hcontent, hsmall, hroom, hstart, hwritable.trans hwrite,
        fun _ => rfl⟩
  | some content =>
    have hlen := hseen content rfl
    rw [loadFd]
    by_cases hempty : content.length > 0
    · rw [if_pos hempty]
      rcases fdEnsureCap_cases file content.length o.memory with
        hfails | ⟨data, cap, hok, hneed, -, -⟩
      · rw [hfails]
        exact .inl rfl
      · rw [hok, bind_some]
        split
        · exact .inl rfl
        · refine .inr ⟨_, rfl, ?_, hlen, hneed, rfl, hwritable, fun h => nomatch h⟩
          rw [MemFd.content, Buffer.slice_store_self]
          rfl
    · rw [if_neg hempty]
      have hnil : content = [] := List.length_eq_zero_iff.1 (by omega)
      exact .inr ⟨file, rfl, by rw [hnil]; exact hcontent, hsmall, hroom, hstart, hwritable,
        fun h => nomatch h⟩

theorem openFd_repr (temp : Bool) {old : Option (List UInt8)} {o : OpenEnv}
    (hgood : FdOpenGood old flags o) : openFd temp old flags o = none ∨
      ∃ file d, openFd temp old flags o = some file ∧ FdRepr flags file d ∧
        Descriptor.openFile old (hasFlag flags oCreat) (hasFlag flags oTrunc) (mayRead flags)
          (mayWrite flags) (hasFlag flags oAppend) = some d := by
  obtain ⟨hcreat, hold⟩ := hgood
  rw [openFd, hasFlag_accmode]
  dsimp only
  split
  · exact .inl rfl
  split
  · exact .inl rfl
  generalize hseen : (if o.stat = true then old else none) = seen
  have hseenLen : ∀ content, seen = some content → content.length < 2 ^ 63 := by
    rintro content rfl
    split at hseen
    · exact (hold content hseen).1
    · cases hseen
  -- what is loaded
  have hloaded : ∀ loaded, (if mayWrite flags = false ∨ hasFlag flags oAppend = true then
      loadFd seen flags o ⟨mayWrite flags, false, 0, 0, 0, fun _ => 0, temp⟩
      else some ⟨mayWrite flags, false, 0, 0, 0, fun _ => 0, temp⟩) = loaded →
      loaded = none ∨ ∃ file, loaded = some file ∧ file.size < 2 ^ 63 ∧ file.size ≤ file.cap ∧
        file.pos = (if hasFlag flags oAppend then file.size else 0) ∧
        file.writable = mayWrite flags ∧
        (hasFlag flags oTrunc = false → file.content = old.getD []) ∧
        (old = none → mayWrite flags = true) := by
    rintro loaded rfl
    split
    case isTrue hload =>
      rcases loadFd_cases flags ⟨mayWrite flags, false, 0, 0, 0, fun _ => 0, temp⟩ o hseenLen
          rfl rfl rfl with
        hfails | ⟨file, hok, hcontent, hsmall, hroom, hpos, hwritable, hnone⟩
      · exact .inl hfails
      · refine .inr ⟨file, hok, hsmall, hroom, hpos, hwritable, fun htrunc => ?_, fun h0 => ?_⟩
        · rw [hcontent]
          cases hstat : o.stat
          · rw [hstat, if_neg (by simp)] at hseen
            subst hseen
            cases old with
            | none => rfl
            | some content =>
              rcases (hold content rfl).2 (hnone rfl) with h | h | ⟨-, h⟩
              · rw [htrunc] at h
                cases h
              · rw [h]
                rfl
              · rw [hstat] at h
                cases h
          · rw [hstat, if_pos rfl] at hseen
            rw [hseen]
        · subst h0
          exact hnone (by rw [← hseen, ite_self])
    case isFalse hload =>
      obtain ⟨hwrite, happend⟩ := not_or.1 hload
      have hwrite' : mayWrite flags = true := by simpa using hwrite
      refine .inr ⟨_, rfl, Nat.two_pow_pos 63, Nat.le_refl _, (ite_self _).symm, rfl, fun htrunc => ?_,
        fun _ => hwrite'⟩
      cases old with
      | none => rfl
      | some content =>
        rcases (hold content rfl).2 hwrite' with h | h | ⟨h, -⟩
        · rw [htrunc] at h
          cases h
        · rw [h]
          rfl
        · exact absurd h happend
  generalize hl : (if mayWrite flags = false ∨ hasFlag flags oAppend = true then
      loadFd seen flags o ⟨mayWrite flags, false, 0, 0, 0, fun _ => 0, temp⟩
      else some ⟨mayWrite flags, false, 0, 0, 0, fun _ => 0, temp⟩) = loaded
  rcases hloaded loaded hl with rfl | ⟨file, rfl, hsmall, hroom, hpos, hwritable, hcontent, hnone⟩
  · exact .inl rfl
  right
  rw [map_some]
  cases htrunc : hasFlag flags oTrunc
  · have hopen : Descriptor.openFile old (hasFlag flags oCreat) false (mayRead flags)
        (mayWrite flags) (hasFlag flags oAppend) =
          some ⟨file.content, if hasFlag flags oAppend then file.content.length else 0,
            mayRead flags, mayWrite flags, hasFlag flags oAppend⟩ := by
      rw [hcontent htrunc]
      cases old with
      | none =>
        rw [Descriptor.openFile, hcreat (hnone rfl) rfl]
        simp
      | some content => simp [Descriptor.openFile]
    refine ⟨file, _, rfl, ⟨rfl, ?_, hwritable, rfl, rfl, rfl, ?_, hroom, hsmall⟩, hopen⟩
    · rw [hpos, MemFd.content, Buffer.length_slice]
    · rw [hpos]
      split
      · exact hsmall
      · decide
  · have hopen : Descriptor.openFile old (hasFlag flags oCreat) true (mayRead flags)
        (mayWrite flags) (hasFlag flags oAppend) =
          some ⟨[], 0, mayRead flags, mayWrite flags, hasFlag flags oAppend⟩ := by
      cases old with
      | none => rw [Descriptor.openFile, hcreat (hnone rfl) rfl, if_pos rfl]
      | some content => simp [Descriptor.openFile]
    exact ⟨_, _, rfl, ⟨rfl, rfl, hwritable, rfl, rfl, rfl, Nat.two_pow_pos 63, Nat.zero_le _,
      Nat.two_pow_pos 63⟩, hopen⟩

end

/-! ## The descriptors of the ports -/

open Buffer (store)
open Descriptor (Call Layer Runs)

/-- The ported programs. -/
inductive Port
  | bdt
  | tcc
  | doom
  deriving DecidableEq, Repr

def Port.layer : Port → Layer UInt8 Env
  | .bdt => bdtLayer
  | .tcc => tccLayer
  | .doom => fdLayer

/-- `open`; whether the path is below `/temp` matters for Doom only. -/
def Port.openFile (port : Port) (temp : Bool) (old : Option (List UInt8)) (flags : ℕ) (e : OpenEnv) :
    Outcome port.layer.State :=
  match port with
  | .bdt => openStream old flags e
  | .tcc => openStream old flags e
  | .doom =>
    match openFd temp old flags e with
    | some file => .ok file
    | none => .fails

/-- An opening that fails, or one of a descriptor that gives the same answers to these calls, and
leaves the same file. -/
def Refines (port : Port) (temp : Bool) (old : Option (List UInt8)) (flags : ℕ) (e : OpenEnv)
    (calls : List (Call UInt8 × Env)) : Prop :=
  match port.openFile temp old flags e with
  | .fails => True
  | .never => False
  | .ok s => ∃ d, Descriptor.openFile old (hasFlag flags oCreat) (hasFlag flags oTrunc)
        (mayRead flags) (mayWrite flags) (hasFlag flags oAppend) = some d ∧
      Runs 0 d old (port.layer.run s old calls).1 (port.layer.run s old calls).2

def Port.OpenGood : Port → Option (List UInt8) → ℕ → OpenEnv → Prop
  | .bdt => StreamOpenGood
  | .tcc => StreamOpenGood
  | .doom => FdOpenGood

def Port.Good (port : Port) (flags : ℕ) : port.layer.State → Option (List UInt8) → Call UInt8 →
    Env → Prop :=
  match port with
  | .bdt => StreamGood (· = 0) flags
  | .tcc => StreamGood (· = 2 ^ 64 - 1) flags
  | .doom => FdGood flags

variable {port : Port} {temp : Bool} {old : Option (List UInt8)} {flags : ℕ} {e : OpenEnv}
  {calls : List (Call UInt8 × Env)}

theorem exists_runs_of_stream {failed : ℕ → Bool} (hopen : StreamOpenGood old flags e)
    (hgood : ∀ s, openStream old flags e = .ok s →
      (streamLayer failed).GoodRun (StreamGood failed flags) s old calls) :
    openStream old flags e = .fails ∨ ∃ s, openStream old flags e = .ok s ∧
      ∃ d, Descriptor.openFile old (hasFlag flags oCreat) (hasFlag flags oTrunc)
        (mayRead flags) (mayWrite flags) (hasFlag flags oAppend) = some d ∧
      Runs 0 d old ((streamLayer failed).run s old calls).1
        ((streamLayer failed).run s old calls).2 := by
  rcases openStream_repr hopen with hfails | ⟨s, d, hok, hrepr, hmodel⟩
  · exact .inl hfails
  · exact .inr ⟨s, hok, d, hmodel, Descriptor.runs_of_simulates
      (fun s disk d c e hrepr hgood => streamLayer_simulates hrepr c hgood) hrepr (hgood s hok)⟩

/-- With a good opening, and calls that are good in the state in front of them, the descriptors of
the ports are descriptors of a byte file. -/
theorem refines_of_good (port : Port) (temp : Bool) (old : Option (List UInt8)) (flags : ℕ)
    (e : OpenEnv) (calls : List (Call UInt8 × Env)) (hopen : port.OpenGood old flags e)
    (hgood : ∀ s, port.openFile temp old flags e = .ok s →
      port.layer.GoodRun (port.Good flags) s old calls) :
    Refines port temp old flags e calls := by
  cases port with
  | bdt =>
    rw [Refines, Port.openFile]
    rcases exists_runs_of_stream hopen hgood with hfails | ⟨s, hok, hruns⟩
    · rw [hfails]
      trivial
    · rw [hok]
      exact hruns
  | tcc =>
    rw [Refines, Port.openFile]
    rcases exists_runs_of_stream hopen hgood with hfails | ⟨s, hok, hruns⟩
    · rw [hfails]
      trivial
    · rw [hok]
      exact hruns
  | doom =>
    rw [Refines, Port.openFile]
    rcases openFd_repr temp hopen with hfails | ⟨file, d, hok, hrepr, hmodel⟩
    · rw [hfails]
      trivial
    · have hrun := hgood file (by rw [Port.openFile, hok])
      rw [hok]
      exact ⟨d, hmodel, Descriptor.runs_of_simulates
        (fun s disk d c e hrepr hgood => fdLayer_simulates hrepr c hgood) hrepr hrun⟩

/-- An opening in which everything is granted. -/
def granted : OpenEnv := ⟨true, true, true, some fun _ => 0, true, true⟩

/-- A call in which everything is granted. -/
def granting : Env := ⟨some fun _ => 0, true, none⟩

/-- A byte written over the first one, and the file read from its start. -/
theorem refines_overwrite : Refines .tcc false (some [1, 2]) oRdwr granted
    [(.write [7], granting), (.lseek 0 0, granting), (.read 2, granting), (.close, granting)] := by
  refine refines_of_good .tcc false (some [1, 2]) oRdwr granted _ ⟨rfl, fun content h => ?_⟩ ?_
  · obtain rfl := Option.some.inj h
    exact ⟨by decide, .inr (.inr (.inl rfl))⟩
  · intro s hs
    obtain rfl : (⟨true, store (grown (fun _ => 0) 0 fun _ => 0) 0 [1, 2], 2, 256, true, true, false,
      0⟩ : Stream) = s := Outcome.ok.inj hs
    refine ⟨⟨rfl, by decide, fun h => ?_, by decide⟩, ⟨by decide, by decide, fun _ => by decide,
      fun _ => by decide⟩, rfl, ?_, trivial⟩
    · exact absurd h (by decide)
    · exact .inr rfl

/-- A file that is created and closed at once is not on the disk. -/
theorem not_refines : ¬ ∀ (port : Port) (temp : Bool) (old : Option (List UInt8)) (flags : ℕ)
    (e : OpenEnv) (calls : List (Call UInt8 × Env)), Refines port temp old flags e calls := by
  intro hall
  obtain ⟨d, -, hruns⟩ := hall .bdt false none (oWronly ||| oCreat) granted [(.close, granting)]
  have hrun : Runs 0 d none [(.close, .value 0)] none := hruns
  cases hrun with
  | call hdoes _ => cases hdoes

end Cleonos.Compat
