import Cleonos.Partctl.Model
import Cleonos.Lib.Extent
import Cleonos.Lib.Run

/-!
# Well-formed partition tables

The entries of the first sector as a family of extents.
-/

namespace Cleonos.Partctl

open List
open Buffer (store store_of_ge store_of_lt store_of_mem)

/-! ## The table -/

/-- The range of an entry; none when it is empty. -/
def extent (s : Sector) (i : ℕ) : Option Extent :=
  if entrySectors s i = 0 then none
  else some ⟨entryStart s i, entryStart s i + entrySectors s i⟩

/-- The ranges of the entries. -/
def extents (s : Sector) (i : Fin mbrEntryCount) : Option Extent := extent s i

/-- The sectors that partitions may use: all of the disk but the first. -/
def usable (sectorCount : ℕ) : Extent := ⟨1, sectorCount⟩

/-- The sector has its signature, its entries are ranges of the disk apart from each
other, and at most one has the boot flag. -/
structure WellFormed (sectorCount : ℕ) (s : Sector) : Prop where
  signature : s mbrSigOffset = 0x55 ∧ s (mbrSigOffset + 1) = 0xAA
  inside : ∀ i x, extents s i = some x → x.Within (usable sectorCount)
  separate : Extent.Separate (extents s)
  one_boot : ∀ i j : Fin mbrEntryCount, entryBoot s i = 0x80 → entryBoot s j = 0x80 → i = j

def InEntry (i k : ℕ) : Prop := entryOffset i ≤ k ∧ k < entryOffset i + mbrEntrySize

/-- The boot flag of some entry. -/
def IsBootFlag (k : ℕ) : Prop := ∃ i < mbrEntryCount, k = entryOffset i

/-- What an edit of entry `i` that makes its extent `o` does to a sector. -/
structure Edited (i : ℕ) (o : Option Extent) (s t : Sector) : Prop where
  extent_eq : extent t i = o
  same : ∀ k, ¬ InEntry i k → ¬ IsBootFlag k → t k = s k
  boot_other : ∀ j < mbrEntryCount, j ≠ i → entryBoot t j = 0x80 → entryBoot s j = 0x80
  boot_self : entryBoot t i = 0x80 → ∀ j < mbrEntryCount, j ≠ i → entryBoot t j ≠ 0x80

variable {k : ℕ}

theorem readU32Le_congr {s t : Sector} (h : ∀ j, k ≤ j → j < k + 4 → s j = t j) :
    readU32Le s k = readU32Le t k := by
  simp only [readU32Le]
  rw [h k (by omega) (by omega), h (k + 1) (by omega) (by omega), h (k + 2) (by omega) (by omega),
    h (k + 3) (by omega) (by omega)]

theorem or_bytes {a b c : ℕ} (d : ℕ) (ha : a < 2 ^ 8) (hb : b < 2 ^ 8) (hc : c < 2 ^ 8) :
    a ||| b <<< 8 ||| c <<< 16 ||| d <<< 24 = a + 2 ^ 8 * b + 2 ^ 16 * c + 2 ^ 24 * d := by
  have hor : ∀ {n x : ℕ} (y : ℕ), x < 2 ^ n → x ||| y <<< n = x + 2 ^ n * y := by
    intro n x y hx
    rw [Nat.or_comm, ← Nat.shiftLeft_add_eq_or_of_lt hx, Nat.shiftLeft_eq, Nat.mul_comm, Nat.add_comm]
  rw [hor b ha, hor (n := 16) c (by omega), hor (n := 24) d (by omega)]

theorem readU32Le_writeU32Le (s : Sector) (k : ℕ) {value : ℕ} (hv : value < 2 ^ 32) :
    readU32Le (writeU32Le s k value) k = value := by
  have hbyte : ∀ n : ℕ, (UInt8.ofNat (n &&& 0xFF)).toNat = n % 2 ^ 8 := by
    intro n
    rw [UInt8.toNat_ofNat', Nat.and_two_pow_sub_one_eq_mod n 8]
    omega
  have hcell : ∀ j (hj : j < 4), writeU32Le s k value (k + j) = [UInt8.ofNat (value &&& 0xFF),
      UInt8.ofNat (value >>> 8 &&& 0xFF), UInt8.ofNat (value >>> 16 &&& 0xFF),
      UInt8.ofNat (value >>> 24 &&& 0xFF)][j] := by
    intro j hj
    rw [writeU32Le, store_of_mem (by omega) (by simpa using hj)]
    simp only [Nat.add_sub_cancel_left]
  have h0 := hcell 0 (by omega)
  rw [Nat.add_zero] at h0
  simp only [readU32Le]
  rw [h0, hcell 1 (by omega), hcell 2 (by omega), hcell 3 (by omega)]
  simp only [getElem_cons_zero, getElem_cons_succ, hbyte]
  rw [or_bytes _ (by omega) (by omega) (by omega)]
  simp only [Nat.shiftRight_eq_div_pow]
  omega

theorem readU32Le_writeU32Le_behind (s : Sector) (i value : ℕ) :
    readU32Le (writeU32Le s (entryOffset i + 12) value) (entryOffset i + 8) =
      readU32Le s (entryOffset i + 8) :=
  readU32Le_congr fun _ _ hj => store_of_lt (by omega)

theorem extent_congr {s t : Sector} {i : ℕ}
    (h : ∀ k, entryOffset i + 8 ≤ k → k < entryOffset i + 16 → s k = t k) :
    extent s i = extent t i := by
  have hstart : entryStart s i = entryStart t i :=
    readU32Le_congr fun j hj hj' => h j (by omega) (by omega)
  have hsectors : entrySectors s i = entrySectors t i :=
    readU32Le_congr fun j hj hj' => h j (by omega) (by omega)
  rw [extent, extent, hstart, hsectors]

theorem not_inEntry_of_ne {i j : ℕ} (hij : i ≠ j) (hk : InEntry j k) : ¬ InEntry i k := by
  simp only [InEntry, entryOffset, mbrEntrySize] at *
  omega

theorem not_isBootFlag_of_inEntry {i : ℕ} (hk : InEntry i k) (hne : k ≠ entryOffset i) :
    ¬ IsBootFlag k := by
  rintro ⟨j, -, rfl⟩
  simp only [InEntry, entryOffset, mbrEntrySize] at *
  omega

theorem lt_mbrSigOffset_of_inEntry {i : ℕ} (hi : i < mbrEntryCount) (hk : InEntry i k) :
    k < mbrSigOffset := by
  simp only [InEntry, entryOffset, mbrEntrySize, mbrEntryOffset, mbrEntryCount, mbrSigOffset] at *
  omega

theorem inEntry_self (i : ℕ) : InEntry i (entryOffset i) := by
  simp [InEntry, mbrEntrySize]

theorem mbrEnsureSignature_of_lt (s : Sector) (hk : k < mbrSigOffset) :
    mbrEnsureSignature s k = s k := store_of_lt hk

theorem clearBoots_loop (cond : ℕ → Bool) (s : Sector) (is : List ℕ) (k : ℕ) :
    is.foldl (fun s i => if cond i then store s (entryOffset i) [0x00] else s) s k =
      if ∃ i ∈ is, cond i = true ∧ k = entryOffset i then 0 else s k := by
  induction is generalizing s with
  | nil => simp
  | cons i is ih =>
    have hstep : (if cond i then store s (entryOffset i) [0x00] else s) k =
        if cond i = true ∧ k = entryOffset i then 0 else s k := by
      by_cases hc : cond i = true
      · rw [if_pos hc]
        by_cases hk : k = entryOffset i
        · rw [if_pos ⟨hc, hk⟩, hk, store_of_mem le_rfl (by simp)]
          simp
        · rw [if_neg fun h => hk h.2]
          by_cases hlt : k < entryOffset i
          · exact store_of_lt hlt
          · exact store_of_ge (by simp; omega)
      · rw [if_neg hc, if_neg fun h => hc h.1]
    rw [foldl_cons, ih, hstep]
    simp only [mem_cons, exists_eq_or_imp]
    by_cases htail : ∃ j ∈ is, cond j = true ∧ k = entryOffset j
    · rw [if_pos htail, if_pos (.inr htail)]
    · rw [if_neg htail]
      by_cases hhead : cond i = true ∧ k = entryOffset i
      · rw [if_pos hhead, if_pos (.inl hhead)]
      · rw [if_neg hhead, if_neg (not_or.2 ⟨hhead, htail⟩)]

theorem clearBoots_apply (cond : ℕ → Bool) (s : Sector) (k : ℕ) :
    clearBoots cond s k =
      if ∃ i < mbrEntryCount, cond i = true ∧ k = entryOffset i then 0 else s k := by
  simp only [clearBoots, clearBoots_loop, mem_range]

theorem clearBoots_of_not_isBootFlag {cond : ℕ → Bool} {s : Sector} (hk : ¬ IsBootFlag k) :
    clearBoots cond s k = s k := by
  rw [clearBoots_apply, if_neg]
  rintro ⟨i, hi, -, hki⟩
  exact hk ⟨i, hi, hki⟩

theorem entryBoot_clearBoots {cond : ℕ → Bool} {s : Sector} {i : ℕ} (hi : i < mbrEntryCount) :
    entryBoot (clearBoots cond s) i = if cond i then 0 else entryBoot s i := by
  have hinj : ∀ j, entryOffset i = entryOffset j → i = j := by
    intro j hj
    simp only [entryOffset, mbrEntrySize] at hj
    omega
  rw [entryBoot, clearBoots_apply]
  by_cases hc : cond i = true
  · rw [if_pos ⟨i, hi, hc, rfl⟩, if_pos hc]
  · rw [if_neg hc, if_neg]
    · rfl
    · rintro ⟨j, -, hcj, hj⟩
      exact hc (hinj j hj ▸ hcj)

theorem Edited.of_entry {s t : Sector} {i : ℕ} {o : Option Extent} (hextent : extent t i = o)
    (hsame : ∀ k, ¬ InEntry i k → t k = s k) (hboot : entryBoot t i ≠ 0x80) : Edited i o s t where
  extent_eq := hextent
  same k hk _ := hsame k hk
  boot_other j _ hj h := by
    rw [entryBoot, hsame _ (not_inEntry_of_ne (Ne.symm hj) (inEntry_self j))] at h
    exact h
  boot_self h := absurd h hboot

theorem edited_zeroEntry (s : Sector) (i : ℕ) : Edited i none s (zeroEntry s i) := by
  have hzero : ∀ k, InEntry i k → zeroEntry s i k = 0 := by
    intro k hk
    rw [zeroEntry, store_of_mem hk.1 (by simpa [InEntry] using hk.2)]
    simp
  refine Edited.of_entry ?_ (fun k hk => ?_) ?_
  · have hsectors : entrySectors (zeroEntry s i) i = 0 := by
      have hcongr : readU32Le (zeroEntry s i) (entryOffset i + 12) =
          readU32Le (fun _ => 0) (entryOffset i + 12) :=
        readU32Le_congr fun j hj hj' => hzero j ⟨by omega, by simp only [mbrEntrySize]; omega⟩
      rw [entrySectors, hcongr]
      simp [readU32Le]
    rw [extent, if_pos hsectors]
  · by_cases hlt : k < entryOffset i
    · exact store_of_lt hlt
    · refine store_of_ge ?_
      simp only [InEntry, length_replicate] at *
      omega
  · rw [entryBoot, hzero _ (inEntry_self i)]
    decide

theorem store_flag_apply (s : Sector) (i : ℕ) (flag : UInt8) (k : ℕ) :
    store s (entryOffset i) [flag] k = if k = entryOffset i then flag else s k := by
  by_cases hk : k = entryOffset i
  · rw [if_pos hk, hk, store_of_mem le_rfl (by simp)]
    simp
  · rw [if_neg hk]
    by_cases hlt : k < entryOffset i
    · exact store_of_lt hlt
    · exact store_of_ge (by simp; omega)

theorem edited_setBoot (s : Sector) (i value : ℕ) :
    Edited i (extent s i) s (store (clearBoots (fun j => decide (value ≠ 0 ∧ j + 1 ≠ i + 1)) s)
      (entryOffset i) [if value ≠ 0 then 0x80 else 0x00]) where
  extent_eq := by
    refine extent_congr fun k hk hk' => ?_
    have hin : InEntry i k := ⟨by omega, by simp only [mbrEntrySize]; omega⟩
    rw [store_flag_apply, if_neg (by omega),
      clearBoots_of_not_isBootFlag (not_isBootFlag_of_inEntry hin (by omega))]
  same k hk hflag := by
    rw [store_flag_apply, if_neg, clearBoots_of_not_isBootFlag hflag]
    rintro rfl
    exact hk (inEntry_self i)
  boot_other j hj hne h := by
    have hoff : entryOffset j ≠ entryOffset i := by
      simp only [entryOffset, mbrEntrySize]
      omega
    rw [entryBoot, store_flag_apply, if_neg hoff] at h
    have h' : entryBoot (clearBoots _ s) j = 0x80 := h
    rw [entryBoot_clearBoots hj] at h'
    by_cases hc : decide (value ≠ 0 ∧ j + 1 ≠ i + 1) = true
    · rw [if_pos hc] at h'
      exact absurd h' (by decide)
    · rwa [if_neg hc] at h'
  boot_self h j hj hne h' := by
    have hoff : entryOffset j ≠ entryOffset i := by
      simp only [entryOffset, mbrEntrySize]
      omega
    have hvalue : value ≠ 0 := by
      rintro rfl
      rw [entryBoot, store_flag_apply, if_pos rfl] at h
      exact absurd h (by decide)
    rw [entryBoot, store_flag_apply, if_neg hoff] at h'
    have h'' : entryBoot (clearBoots _ s) j = 0x80 := h'
    rw [entryBoot_clearBoots hj, if_pos (by simp [hvalue, hne])] at h''
    exact absurd h'' (by decide)

section WriteEntry

variable (s : Sector) (i start sectors type boot : ℕ)

/-- The sector before the entry is written. -/
private def unflagged : Sector := if boot ≠ 0 then clearBoots (fun _ => true) s else s

private theorem writeEntry_outside {k : ℕ} (hk : ¬ InEntry i k) :
    writeEntry s i start sectors type boot k = unflagged s boot k := by
  simp only [InEntry, mbrEntrySize] at hk
  simp only [writeEntry, writeU32Le, zeroEntry, unflagged]
  by_cases hlt : k < entryOffset i
  · rw [store_of_lt (by omega), store_of_lt (by omega), store_of_lt hlt,
      store_of_lt hlt]
  · rw [store_of_ge (by simp; omega), store_of_ge (by simp; omega),
      store_of_ge (by simp; omega), store_of_ge (by simp [mbrEntrySize]; omega)]

private theorem entryBoot_writeEntry :
    entryBoot (writeEntry s i start sectors type boot) i = if boot ≠ 0 then 0x80 else 0x00 := by
  simp only [entryBoot, writeEntry, writeU32Le]
  rw [store_of_lt (by omega), store_of_lt (by omega),
    store_of_mem le_rfl (by simp)]
  simp

private theorem extent_writeEntry (hstart : start < 2 ^ 32) (hsectors : sectors < 2 ^ 32)
    (h0 : sectors ≠ 0) :
    extent (writeEntry s i start sectors type boot) i = some ⟨start, start + sectors⟩ := by
  have h2 : entrySectors (writeEntry s i start sectors type boot) i = sectors := by
    simp only [entrySectors, writeEntry]
    exact readU32Le_writeU32Le _ _ hsectors
  have h1 : entryStart (writeEntry s i start sectors type boot) i = start := by
    simp only [entryStart, writeEntry]
    rw [readU32Le_writeU32Le_behind, readU32Le_writeU32Le _ _ hstart]
  rw [extent, h1, h2, if_neg h0]

theorem edited_writeEntry (hstart : start < 2 ^ 32) (hsectors : sectors < 2 ^ 32)
    (h0 : sectors ≠ 0) : Edited i (some ⟨start, start + sectors⟩) s
      (writeEntry s i start sectors type boot) where
  extent_eq := extent_writeEntry s i start sectors type boot hstart hsectors h0
  same k hk hflag := by
    rw [writeEntry_outside s i start sectors type boot hk, unflagged]
    split_ifs
    · exact clearBoots_of_not_isBootFlag hflag
    · rfl
  boot_other j hj hne h := by
    have hout := writeEntry_outside s i start sectors type boot
      (not_inEntry_of_ne (Ne.symm hne) (inEntry_self j))
    rw [entryBoot, hout, unflagged] at h
    by_cases hb : boot ≠ 0
    · rw [if_pos hb] at h
      have h' : entryBoot (clearBoots (fun _ => true) s) j = 0x80 := h
      rw [entryBoot_clearBoots hj, if_pos rfl] at h'
      exact absurd h' (by decide)
    · rwa [if_neg hb] at h
  boot_self h j hj hne h' := by
    have hout := writeEntry_outside s i start sectors type boot
      (not_inEntry_of_ne (Ne.symm hne) (inEntry_self j))
    have hb : boot ≠ 0 := by
      rintro rfl
      rw [entryBoot_writeEntry] at h
      exact absurd h (by decide)
    rw [entryBoot, hout, unflagged, if_pos hb] at h'
    have h'' : entryBoot (clearBoots (fun _ => true) s) j = 0x80 := h'
    rw [entryBoot_clearBoots hj, if_pos rfl] at h''
    exact absurd h'' (by decide)

end WriteEntry

/-! ## The invariant -/

variable {n : ℕ} {s t : Sector}

theorem wellFormed_init (n : ℕ) : WellFormed n (mbrEnsureSignature fun _ => 0) := by
  have hzero : ∀ i < mbrEntryCount, ∀ k, InEntry i k → mbrEnsureSignature (fun _ => 0) k = 0 :=
    fun i hi k hk => mbrEnsureSignature_of_lt _ (lt_mbrSigOffset_of_inEntry hi hk)
  have hnone : extents (mbrEnsureSignature fun _ => 0) = fun _ => none := by
    funext i
    have hcongr : extent (mbrEnsureSignature fun _ => 0) i = extent (fun _ => 0) i :=
      extent_congr fun k hk hk' => hzero i i.isLt k ⟨by omega, by simp only [mbrEntrySize]; omega⟩
    rw [extents, hcongr]
    simp [extent, entrySectors, readU32Le]
  refine ⟨⟨rfl, rfl⟩, ?_, ?_, ?_⟩
  · rw [hnone]
    simp
  · rw [hnone]
    exact Extent.separate_none
  · intro i j hi _
    rw [entryBoot, hzero i i.isLt _ (inEntry_self _)] at hi
    exact absurd hi (by decide)

theorem WellFormed.edited (h : WellFormed n s) {i : Fin mbrEntryCount} {o : Option Extent}
    (he : Edited i o s t) (ho : ∀ x, o = some x → x.Within (usable n) ∧
      ∀ j, j ≠ i → ∀ y, extents s j = some y → x.Apart y) :
    WellFormed n (mbrEnsureSignature t) := by
  have hbytes : ∀ j : Fin mbrEntryCount, ∀ k, InEntry j k → mbrEnsureSignature t k = t k :=
    fun j k hk => mbrEnsureSignature_of_lt t (lt_mbrSigOffset_of_inEntry j.isLt hk)
  have hboot : ∀ j : Fin mbrEntryCount, entryBoot (mbrEnsureSignature t) j = entryBoot t j :=
    fun j => hbytes j _ (inEntry_self j)
  have hextents : extents (mbrEnsureSignature t) = Function.update (extents s) i o := by
    funext j
    have hcongr : extent (mbrEnsureSignature t) j = extent t j :=
      extent_congr fun k hk hk' => hbytes j k ⟨by omega, by simp only [mbrEntrySize]; omega⟩
    rw [extents, hcongr]
    by_cases hj : j = i
    · rw [hj, Function.update_self]
      exact he.extent_eq
    · rw [Function.update_of_ne hj]
      refine extent_congr fun k hk hk' => ?_
      have hin : InEntry j k := ⟨by omega, by simp only [mbrEntrySize]; omega⟩
      have hne : (i : ℕ) ≠ j := fun h => hj (Fin.ext h.symm)
      exact he.same k (not_inEntry_of_ne hne hin) (not_isBootFlag_of_inEntry hin (by omega))
  refine ⟨⟨rfl, rfl⟩, fun j x hx => ?_, ?_, fun j k hj hk => ?_⟩
  · rw [hextents] at hx
    by_cases hj : j = i
    · rw [hj, Function.update_self] at hx
      exact (ho x hx).1
    · rw [Function.update_of_ne hj] at hx
      exact h.inside j x hx
  · rw [hextents]
    exact h.separate.update fun x hx => (ho x hx).2
  · rw [hboot] at hj hk
    have hself : ∀ {a b : Fin mbrEntryCount}, a = i → b ≠ i → entryBoot t a = 0x80 →
        entryBoot t b ≠ 0x80 := by
      rintro a b rfl hb ha
      exact he.boot_self ha b b.isLt fun hab => hb (Fin.ext hab)
    by_cases hji : j = i
    · by_contra hjk
      exact hself hji (fun hki => hjk (hji.trans hki.symm)) hj hk
    · by_cases hki : k = i
      · exact absurd hj (hself hki hji hk)
      · exact h.one_boot j k (he.boot_other j j.isLt (fun h => hji (Fin.ext h)) hj)
          (he.boot_other k k.isLt (fun h => hki (Fin.ext h)) hk)

theorem apart_of_checkOverlap {skip start sectors : ℕ} (hsum : start + sectors < 2 ^ 64)
    (h : checkOverlap s skip start sectors = true) {j : Fin mbrEntryCount} (hj : (j : ℕ) ≠ skip)
    {y : Extent} (hy : extents s j = some y) : Extent.Apart ⟨start, start + sectors⟩ y := by
  have hcheck := all_eq_true.1 h j (mem_range.2 j.isLt)
  rw [extents, extent] at hy
  by_cases hzero : entrySectors s j = 0
  · rw [if_pos hzero] at hy
    exact absurd hy (by simp)
  · rw [if_neg hzero, Option.some.injEq] at hy
    subst hy
    rw [Nat.mod_eq_of_lt hsum] at hcheck
    have hor : start + sectors ≤ entryStart s j ∨
        entryStart s j + entrySectors s j ≤ start := by simpa [hj, hzero] using hcheck
    exact hor

/-- The command word of a line, and what it names: an entry, or the whole sector. -/
inductive Names : List UInt8 → Option ℕ → Prop
  /-- `create`, `delete` and `set-boot` name an entry. -/
  | entry {arg : List UInt8} {cmd index : List UInt8} {args : List (List UInt8)} {i : ℕ}
      (htokens : tokenize 8 (cstr arg) = cmd :: index :: args)
      (hcmd : cmd = lit "create" ∨ cmd = lit "delete" ∨ cmd = lit "set-boot")
      (hindex : parseIndex index = some (i + 1)) : Names arg (some i)
  | table {arg : List UInt8} {args : List (List UInt8)}
      (htokens : tokenize 8 (cstr arg) = lit "init-mbr" :: args) : Names arg none

/-- What one command does to a disk: it fails and the disk is as before, or it writes
nothing, or it writes an edit that keeps the table well formed, or a new table. -/
inductive Step (arg : List UInt8) (d : Disk) : Result → Prop
  | failed (e : PartctlError) : Step arg d (.error e, d)
  | looked : Step arg d (.ok (), d)
  | edited {i : Fin mbrEntryCount} {o : Option Extent} {t : Sector} (hnames : Names arg (some i))
      (he : Edited i o d.sector0 t)
      (ho : ∀ x, o = some x → extents d.sector0 i = some x ∨
        x.Within (usable d.sectorCount) ∧ ∀ j, j ≠ i → ∀ y, extents d.sector0 j = some y →
          x.Apart y) :
      Step arg d (.ok (), { d with sector0 := mbrEnsureSignature t })
  | initialised (hnames : Names arg none) :
      Step arg d (.ok (), { d with sector0 := mbrEnsureSignature fun _ => 0 })

theorem step_writeSector0 {arg : List UInt8} {a : Answers} {d : Disk} {t : Sector}
    (h : Step arg d (.ok (), { d with sector0 := t })) : Step arg d (writeSector0 a d t) := by
  rw [writeSector0]
  by_cases hp : a.presentToWrite = false
  · rw [if_pos hp]
    exact .failed _
  rw [if_neg hp]
  by_cases hw : a.writeSector = false
  · rw [if_pos hw]
    exact .failed _
  rw [if_neg hw]
  exact h

theorem step_edit {arg : List UInt8} {a : Answers} {d : Disk} {f : Sector → Except PartctlError Sector}
    (h : ∀ t, f d.sector0 = .ok t →
      Step arg d (.ok (), { d with sector0 := mbrEnsureSignature t })) : Step arg d (edit a d f) := by
  rw [edit, readSector0]
  by_cases hp : a.presentToRead = false
  · rw [if_pos hp]
    exact .failed _
  rw [if_neg hp]
  by_cases hr : a.readSector = false
  · rw [if_pos hr]
    exact .failed _
  rw [if_neg hr]
  dsimp only
  cases hf : f d.sector0 with
  | error e => exact .failed e
  | ok t =>
    exact step_writeSector0 (h t hf)

theorem exists_entry_of_parseIndex {text : List UInt8} {index : ℕ} (h : parseIndex text = some index) :
    ∃ i : Fin mbrEntryCount, index = i + 1 := by
  obtain ⟨-, hrange⟩ := Option.filter_eq_some_iff.1 h
  have hrange : 1 ≤ index ∧ index ≤ mbrEntryCount := by simpa using hrange
  exact ⟨⟨index - 1, by omega⟩, by simp only; omega⟩

section Steps

variable {arg cmd indexText : List UInt8} {args : List (List UInt8)} {a : Answers} {d : Disk}

theorem step_cmdDelete (htokens : tokenize 8 (cstr arg) = lit "delete" :: indexText :: args) :
    Step arg d (cmdDelete a d indexText) := by
  rw [cmdDelete]
  cases hindex : parseIndex indexText with
  | none => exact .failed _
  | some index =>
    obtain ⟨i, rfl⟩ := exists_entry_of_parseIndex hindex
    refine step_edit fun t ht => ?_
    obtain rfl := Except.ok.inj ht
    exact .edited (.entry htokens (by simp) hindex) (edited_zeroEntry d.sector0 i) (by simp)

theorem step_cmdSetBoot {valueText : List UInt8}
    (htokens : tokenize 8 (cstr arg) = lit "set-boot" :: indexText :: args) :
    Step arg d (cmdSetBoot a d indexText valueText) := by
  rw [cmdSetBoot]
  cases hindex : parseIndex indexText with
  | none => exact .failed _
  | some index =>
    obtain ⟨i, rfl⟩ := exists_entry_of_parseIndex hindex
    cases parseFlag valueText with
    | none => exact .failed _
    | some value =>
      refine step_edit fun t ht => ?_
      obtain rfl := Except.ok.inj ht
      exact .edited (.entry htokens (by simp) hindex) (edited_setBoot d.sector0 i value)
        fun x hx => .inl hx

theorem step_cmdCreate {startText sectorsText typeText bootText : List UInt8}
    (htokens : tokenize 8 (cstr arg) = lit "create" :: indexText :: args) :
    Step arg d (cmdCreate a d indexText startText sectorsText typeText bootText) := by
  rw [cmdCreate]
  cases hindex : parseIndex indexText with
  | none => exact .failed _
  | some index =>
    obtain ⟨i, rfl⟩ := exists_entry_of_parseIndex hindex
    cases parseU64 startText with
    | none => exact .failed _
    | some start =>
    cases parseU64 sectorsText with
    | none => exact .failed _
    | some sectors =>
    cases parseU64 typeText with
    | none => exact .failed _
    | some type =>
    cases (if bootText ≠ [] then parseFlag bootText else some 0) with
    | none => exact .failed _
    | some boot =>
    dsimp only
    by_cases hzero : start = 0 ∨ sectors = 0
    · rw [if_pos hzero]
      exact .failed _
    rw [if_neg hzero]
    by_cases hwide : type > 0xFF ∨ start > 0xFFFFFFFF ∨ sectors > 0xFFFFFFFF
    · rw [if_pos hwide]
      exact .failed _
    rw [if_neg hwide]
    have hsum : (start + sectors) % 2 ^ 64 = start + sectors := Nat.mod_eq_of_lt (by omega)
    rw [hsum]
    by_cases hdisk : start ≥ d.sectorCount ∨ sectors > d.sectorCount ∨
        start + sectors > d.sectorCount ∨ start + sectors < start
    · rw [if_pos hdisk]
      exact .failed _
    rw [if_neg hdisk]
    refine step_edit fun t ht => ?_
    by_cases hoverlap : checkOverlap d.sector0 (i + 1 - 1) start sectors = false
    · rw [if_pos hoverlap] at ht
      exact absurd ht (by simp)
    rw [if_neg hoverlap] at ht
    obtain rfl := Except.ok.inj ht
    refine .edited (.entry htokens (by simp) hindex)
      (edited_writeEntry d.sector0 i start sectors type boot (by omega) (by omega) (by omega)) ?_
    rintro x hx
    obtain rfl := Option.some.inj hx
    refine .inr ⟨⟨?_, ?_⟩, fun j hj y hy => ?_⟩
    · simp only [usable]
      omega
    · simp only [usable]
      omega
    · exact apart_of_checkOverlap (by omega) (by simpa using hoverlap)
        (fun h => hj (Fin.ext h)) hy

theorem cmdInitMbr_of_ok {a : Answers} {d : Disk} (h : (cmdInitMbr a d).1 = .ok ()) :
    (cmdInitMbr a d).2 = { d with sector0 := mbrEnsureSignature fun _ => 0 } := by
  rw [cmdInitMbr, writeSector0] at *
  split_ifs at *
  rfl

theorem step_partctlRun (a : Answers) (d : Disk) (arg : List UInt8) :
    Step arg d (partctlRun a d arg) := by
  rw [partctlRun]
  cases htokens : tokenize 8 (cstr arg) with
  | nil => exact .looked
  | cons cmd args =>
    dsimp only
    by_cases hhelp : cmd = lit "help"
    · rw [if_pos hhelp]
      exact .looked
    rw [if_neg hhelp]
    by_cases hlist : cmd = lit "list"
    · rw [if_pos hlist, cmdList]
      cases readSector0 a d with
      | error e => exact .failed e
      | ok s => exact .looked
    rw [if_neg hlist]
    by_cases hinit : cmd = lit "init-mbr"
    · rw [if_pos hinit, cmdInitMbr]
      by_cases hp : a.presentToRead = false
      · rw [if_pos hp]
        exact .failed _
      rw [if_neg hp]
      refine step_writeSector0 ?_
      exact .initialised (.table (hinit ▸ htokens))
    rw [if_neg hinit]
    by_cases hdelete : cmd = lit "delete"
    · rw [if_pos hdelete]
      subst hdelete
      match args, htokens with
      | [index], htokens => exact step_cmdDelete htokens
      | [], _ | _ :: _ :: _, _ => exact .failed _
    rw [if_neg hdelete]
    by_cases hboot : cmd = lit "set-boot"
    · rw [if_pos hboot]
      subst hboot
      match args, htokens with
      | [index, value], htokens => exact step_cmdSetBoot htokens
      | [], _ | [_], _ | _ :: _ :: _ :: _, _ => exact .failed _
    rw [if_neg hboot]
    by_cases hcreate : cmd = lit "create"
    · rw [if_pos hcreate]
      subst hcreate
      match args, htokens with
      | [index, start, sectors, type], htokens => exact step_cmdCreate htokens
      | [index, start, sectors, type, boot], htokens => exact step_cmdCreate htokens
      | [], _ | [_], _ | [_, _], _ | [_, _, _], _ | _ :: _ :: _ :: _ :: _ :: _ :: _, _ =>
        exact .failed _
    rw [if_neg hcreate]
    exact .failed _

end Steps

/-- The disks that `init-mbr` leaves when it succeeds, and what commands make of them. -/
def Reached (sectorCount : ℕ) : Disk → Prop :=
  Reachable
    (fun d => ∃ a s, cmdInitMbr a ⟨sectorCount, s⟩ = (.ok (), d))
    (fun d d' => ∃ a arg, (partctlRun a d arg).2 = d')

theorem Step.wellFormed {arg : List UInt8} {d : Disk} {r : Result} (hs : Step arg d r)
    (h : WellFormed d.sectorCount d.sector0) :
    r.2.sectorCount = d.sectorCount ∧ WellFormed d.sectorCount r.2.sector0 := by
  cases hs with
  | failed e => exact ⟨rfl, h⟩
  | looked => exact ⟨rfl, h⟩
  | initialised _ => exact ⟨rfl, wellFormed_init d.sectorCount⟩
  | edited _ he ho =>
    refine ⟨rfl, h.edited he fun x hx => ?_⟩
    rcases ho x hx with hold | hnew
    · exact ⟨h.inside _ x hold, fun j hj y hy => h.separate _ j x y (Ne.symm hj) hold hy⟩
    · exact hnew

theorem Reached.wellFormed {sectorCount : ℕ} {d : Disk} (h : Reached sectorCount d) :
    d.sectorCount = sectorCount ∧ WellFormed sectorCount d.sector0 := by
  refine Reachable.invariant
    (I := fun d : Disk => d.sectorCount = sectorCount ∧ WellFormed sectorCount d.sector0) ?_ ?_ h
  · rintro d ⟨a, s, hinit⟩
    obtain rfl := (congrArg Prod.snd hinit).symm.trans (cmdInitMbr_of_ok (congrArg Prod.fst hinit))
    exact ⟨rfl, wellFormed_init sectorCount⟩
  · rintro d d' ⟨hcount, hwf⟩ ⟨a, arg, rfl⟩
    obtain ⟨hcount', hwf'⟩ := (step_partctlRun a d arg).wellFormed (hcount ▸ hwf)
    exact ⟨hcount'.trans hcount, hcount ▸ hwf'⟩

/-- The bytes that a command may change: those of the entry it names, boot flags, and
all of them for `init-mbr`. -/
def MayChange (arg : List UInt8) (k : ℕ) : Prop :=
  Names arg none ∨ ∃ i, Names arg (some i) ∧ (InEntry i k ∨ IsBootFlag k)

theorem Step.frame {arg : List UInt8} {d : Disk} {r : Result} (hs : Step arg d r)
    (h : WellFormed d.sectorCount d.sector0) {k : ℕ} (hk : ¬ MayChange arg k) :
    r.2.sector0 k = d.sector0 k := by
  cases hs with
  | failed e => rfl
  | looked => rfl
  | initialised hnames => exact absurd (.inl hnames) hk
  | @edited i o t hnames he ho =>
    have hsame : t k = d.sector0 k := he.same k (fun hin => hk (.inr ⟨i, hnames, .inl hin⟩))
      fun hflag => hk (.inr ⟨i, hnames, .inr hflag⟩)
    -- the signature was there before
    by_cases h0 : k = mbrSigOffset
    · rw [h0]
      exact h.signature.1.symm
    by_cases h1 : k = mbrSigOffset + 1
    · rw [h1]
      exact h.signature.2.symm
    rw [← hsame]
    by_cases hlt : k < mbrSigOffset
    · exact mbrEnsureSignature_of_lt t hlt
    · exact store_of_ge (by simp; omega)

theorem Step.unchanged_of_error {arg : List UInt8} {d : Disk} {r : Result} (hs : Step arg d r)
    {e : PartctlError} (he : r.1 = .error e) : r.2 = d := by
  cases hs with
  | failed _ => rfl
  | looked | edited | initialised => exact absurd he (by simp)

end Cleonos.Partctl
