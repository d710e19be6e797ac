import Cleonos.Boot.Segments

/-!
# Every access of the loader is inside

The loader checks where the bytes of a segment end in the file, in a sum that may wrap, and
nothing else: not where the program headers are, not where the image of a segment ends.
-/

namespace Cleonos.Boot

open List

section

open Align

variable {file : LoadedFile} {data : List UInt8} {mapStart : UInt64} {size : ℕ} {seg : Segment}
  {segs : List Segment} {image : ℕ → UInt8}

/-- All that is read of the segment is in the file, and all that is written lies in front of
`stop`. -/
structure Segment.Fits (data : List UInt8) (stop : ℕ) (seg : Segment) : Prop where
  file : seg.offset.toNat + seg.filesz.toNat ≤ data.length
  memory : seg.vaddr.toNat + seg.memsz.toNat ≤ stop
  bytes : seg.vaddr.toNat + seg.filesz.toNat ≤ stop

def imageStop (segs : List Segment) : ℕ := (imageStart segs).toNat + (imageSize segs).toNat

/-- A file that is refused at its header; or one whose program headers lie in the file, whose
image is no larger than what can be asked for, and where the segments fit, up to the first
one that is refused. -/
def Harmless (data : List UInt8) (memory : PageSource) : Prop :=
  Accepted data → TableInside data ∧
    (Spanning (segments data) → (memory.allocPages (imagePages (segments data))).isSome →
      (imageSize (segments data)).toNat + 2 ^ 21 < 2 ^ 64 ∧
        ∀ front seg back, segments data = front ++ seg :: back →
          (∀ s ∈ front ++ [seg], s.Passes data) → seg.Fits data (imageStop (segments data)))

/-! ### The copy -/

/-- A fault is no result. -/
theorem not_exists_ok {α : Type} (e : Fault) : ¬ ∃ r : α, (.error e : Except Fault α) = .ok r := by
  rintro ⟨_, h⟩
  exact absurd h (by simp)

theorem zeroImage_ok_iff {offset n : ℕ} :
    (∃ image', zeroImage size image offset n = .ok image') ↔ offset + n ≤ size := by
  rw [zeroImage]
  split
  · exact iff_of_true ⟨_, rfl⟩ ‹_›
  · exact iff_of_false (not_exists_ok _) ‹_›

theorem writeImage_ok_iff {offset : ℕ} {bytes : List UInt8} :
    (∃ image', writeImage size image offset bytes = .ok image') ↔
      offset + bytes.length ≤ size := by
  rw [writeImage]
  split
  · exact iff_of_true ⟨_, rfl⟩ ‹_›
  · exact iff_of_false (not_exists_ok _) ‹_›

def Segment.bytesIn (data : List UInt8) (seg : Segment) : List UInt8 :=
  (data.drop seg.offset.toNat).take seg.filesz.toNat

theorem Segment.length_bytesIn (h : seg.offset.toNat + seg.filesz.toNat ≤ data.length) :
    (seg.bytesIn data).length = seg.filesz.toNat := by
  rw [bytesIn, length_take, length_drop]
  omega

theorem copySource_eq (hpass : seg.Passes file.data) :
    copySource file seg.offset seg.filesz =
      if seg.offset.toNat + seg.filesz.toNat ≤ file.data.length then .ok (seg.bytesIn file.data)
      else .error .read := by
  rw [copySource]
  by_cases hempty : seg.filesz = 0
  · have hin : seg.offset.toNat + seg.filesz.toNat ≤ file.data.length := by
      rw [Segment.Passes, hempty, UInt64.add_zero] at hpass
      rw [hempty]
      exact hpass
    rw [if_pos hempty, if_pos hin, Segment.bytesIn, hempty]
    rfl
  · rw [if_neg hempty]
    rfl

theorem copyOne_ok_iff (hstart : mapStart.toNat ≤ seg.vaddr.toNat)
    (hpass : seg.Passes file.data) :
    (∃ image', copyOne file mapStart size seg image = .ok image') ↔
      seg.Fits file.data (mapStart.toNat + size) := by
  have hdst : (seg.vaddr - mapStart).toNat = seg.vaddr.toNat - mapStart.toNat :=
    UInt64.toNat_sub_of_le _ _ (UInt64.le_iff_toNat_le.2 hstart)
  rw [copyOne, copySource_eq hpass]
  simp only [bind, Except.bind]
  by_cases hmem : (seg.vaddr - mapStart).toNat + seg.memsz.toNat ≤ size
  · obtain ⟨image', himage⟩ := (@zeroImage_ok_iff size image _ _).2 hmem
    rw [himage]
    by_cases hfile : seg.offset.toNat + seg.filesz.toNat ≤ file.data.length
    · simp only [if_pos hfile]
      rw [writeImage_ok_iff, Segment.length_bytesIn hfile]
      constructor
      · intro h
        exact ⟨hfile, by omega, by omega⟩
      · intro h
        have hbytes := h.bytes
        omega
    · simp only [if_neg hfile]
      exact iff_of_false (not_exists_ok _) fun h => hfile h.file
  · have hout : zeroImage size image (seg.vaddr - mapStart).toNat seg.memsz.toNat =
        .error .write := if_neg hmem
    rw [hout]
    refine iff_of_false (not_exists_ok _) fun h => hmem ?_
    have hmemory := h.memory
    omega

theorem copyAll_ok_iff (hstart : ∀ seg ∈ segs, mapStart.toNat ≤ seg.vaddr.toNat) :
    (∃ r, copyAll file mapStart size segs image = .ok r) ↔
      ∀ front seg back, segs = front ++ seg :: back →
        (∀ s ∈ front ++ [seg], s.Passes file.data) →
          seg.Fits file.data (mapStart.toNat + size) := by
  induction segs generalizing image with
  | nil => exact iff_of_true ⟨_, rfl⟩ fun front seg back h => by simp at h
  | cons seg rest ih =>
    have hseg := hstart seg mem_cons_self
    have hrest : ∀ s ∈ rest, mapStart.toNat ≤ s.vaddr.toNat :=
      fun s hs => hstart s (mem_cons_of_mem seg hs)
    refine Iff.trans ?_ (@Collect.forall_split_cons Segment rest seg fun front s =>
      (∀ t ∈ front ++ [s], t.Passes file.data) → s.Fits file.data (mapStart.toNat + size)).symm
    rw [copyAll]
    by_cases hpass : seg.Passes file.data
    · have hone := @copyOne_ok_iff file mapStart size seg image hseg hpass
      have hall : ∀ front (s : Segment), (∀ t ∈ (seg :: front) ++ [s], t.Passes file.data) ↔
          ∀ t ∈ front ++ [s], t.Passes file.data := by
        intro front s
        rw [cons_append, forall_mem_cons]
        exact and_iff_right hpass
      simp only [hall, nil_append, forall_mem_singleton, hpass, true_implies, if_true]
      rw [← hone]
      cases hcopy : copyOne file mapStart size seg image with
      | error e => simp [bind, Except.bind]
      | ok image' =>
        simp only [bind, Except.bind, Except.ok.injEq, exists_eq', true_and]
        exact ih hrest
    · have hnot : ∀ front (s : Segment), ¬ ∀ t ∈ (seg :: front) ++ [s], t.Passes file.data :=
        fun front s h => hpass (h seg mem_cons_self)
      rw [if_neg hpass]
      exact iff_of_true ⟨_, rfl⟩ ⟨fun h => absurd (h seg mem_cons_self) hpass,
        fun front s back _ h => absurd h (hnot front s)⟩

theorem toNat_imageStart : (imageStart segs).toNat = cutDown 12 (span segs).1.toNat :=
  toNat_down rfl

theorem toNat_imageEnd : (imageEnd segs).toNat = cutUp 12 (span segs).2.toNat % 2 ^ 64 :=
  toNat_up rfl

theorem widen_le_left {bounds : UInt64 × UInt64} : (widen bounds seg).1 ≤ bounds.1 := by
  rw [widen]
  split
  · exact UInt64.le_of_lt ‹_›
  · exact UInt64.le_refl _

theorem widen_le_right {bounds : UInt64 × UInt64} : (widen bounds seg).1 ≤ seg.vaddr := by
  rw [widen]
  split
  · exact UInt64.le_refl _
  · exact UInt64.not_lt.1 ‹_›

theorem foldl_widen_le {bounds : UInt64 × UInt64} : (segs.foldl widen bounds).1 ≤ bounds.1 := by
  induction segs generalizing bounds with
  | nil => exact UInt64.le_refl _
  | cons s rest ih => exact UInt64.le_trans ih widen_le_left

theorem foldl_widen_le_of_mem {bounds : UInt64 × UInt64} (hseg : seg ∈ segs) :
    (segs.foldl widen bounds).1 ≤ seg.vaddr := by
  induction segs generalizing bounds with
  | nil => exact absurd hseg not_mem_nil
  | cons s rest ih =>
    rw [foldl_cons]
    rcases mem_cons.1 hseg with rfl | hrest
    · exact UInt64.le_trans foldl_widen_le widen_le_right
    · exact ih hrest

theorem span_le_of_mem (hseg : seg ∈ segs) : (span segs).1 ≤ seg.vaddr :=
  foldl_widen_le_of_mem hseg

theorem imageStart_le (hseg : seg ∈ segs) : (imageStart segs).toNat ≤ seg.vaddr.toNat := by
  rw [toNat_imageStart]
  exact Nat.le_trans (cutDown_le 12 _) (UInt64.le_iff_toNat_le.1 (span_le_of_mem hseg))

theorem dvd_imageSize : 2 ^ 12 ∣ (imageSize segs).toNat := by
  have hstart := dvd_cutDown 12 (span segs).1.toNat
  have hend := dvd_cutUp 12 (span segs).2.toNat
  rw [imageSize, UInt64.toNat_sub, toNat_imageStart, toNat_imageEnd]
  omega

theorem toNat_imagePages : (imagePages segs).toNat * 4096 =
    ((imageSize segs).toNat + 2 ^ 21) % 2 ^ 64 := by
  have hdvd := @dvd_imageSize segs
  rw [imagePages, sizeToPages, UInt64.toNat_shiftRight, UInt64.toNat_add, UInt64.toNat_add,
    Nat.shiftRight_eq_div_pow]
  simp only [largePage, UInt64.reduceToNat, Nat.reduceMod, Nat.reducePow]
  omega

theorem roomy_iff {memory : PageSource} {rawPhys : UInt64}
    (hpages : memory.allocPages (imagePages segs) = some rawPhys) :
    Roomy segs rawPhys ↔ (imageSize segs).toNat + 2 ^ 21 < 2 ^ 64 := by
  have hin := memory.inside _ _ hpages
  have hphys : (alignUp rawPhys largePage).toNat = cutUp 21 rawPhys.toNat % 2 ^ 64 := toNat_up rfl
  have hle := le_cutUp 21 rawPhys.toNat
  have hlt := cutUp_lt 21 rawPhys.toNat
  have hsize := (imageSize segs).toNat_lt
  rw [toNat_imagePages] at hin
  rw [Roomy, toNat_imagePages, hphys]
  omega

theorem place_ok_iff {memory : PageSource} :
    (∃ r, place file memory segs = .ok r) ↔
      (Spanning segs → (memory.allocPages (imagePages segs)).isSome →
        (imageSize segs).toNat + 2 ^ 21 < 2 ^ 64 ∧
          ∀ front seg back, segs = front ++ seg :: back →
            (∀ s ∈ front ++ [seg], s.Passes file.data) →
              seg.Fits file.data (imageStop segs)) := by
  rw [place]
  by_cases hspan : Spanning segs
  · rw [if_pos hspan]
    simp only [hspan, true_implies]
    cases hpages : memory.allocPages (imagePages segs) with
    | none => exact iff_of_true ⟨_, rfl⟩ fun h => absurd h (by simp)
    | some rawPhys =>
      simp only [Option.isSome_some, true_implies]
      rw [← roomy_iff hpages, imageStop,
        ← @copyAll_ok_iff file _ _ segs (fun _ => 0) fun seg hseg => imageStart_le hseg]
      by_cases hroom : Roomy segs rawPhys
      · rw [if_pos hroom]
        cases hcopy : copyAll file (imageStart segs) (imageSize segs).toNat segs
            fun _ => 0 with
        | error e => simp [Except.map]
        | ok image => simp [Except.map, hroom]
      · rw [if_neg hroom]
        exact iff_of_false (not_exists_ok _) fun h => hroom h.1
  · rw [if_neg hspan]
    exact iff_of_true ⟨_, rfl⟩ fun h => absurd h hspan

/-- The loader makes no access outside the file and the image just if the file is harmless. -/
theorem loadElf64_safe_iff (file : LoadedFile) (memory : PageSource) :
    (∃ r, loadElf64 file memory = .ok r) ↔ Harmless file.data memory := by
  rw [loadElf64_eq, Harmless]
  by_cases haccept : Accepted file.data
  · rw [if_pos haccept]
    simp only [haccept, true_implies]
    by_cases htable : TableInside file.data
    · rw [if_pos htable, place_ok_iff]
      simp only [htable, true_and]
    · rw [if_neg htable]
      exact iff_of_false (fun ⟨_, h⟩ => absurd h (by simp)) fun h => htable h.1
  · rw [if_neg haccept]
    exact iff_of_true ⟨_, rfl⟩ fun h => absurd h haccept

/-- A file of one header whose program headers are behind its end. -/
def headerOnly : LoadedFile where
  data := [0x7F, 69, 76, 70, 2] ++ List.replicate 13 0 ++ [0x3E] ++ List.replicate 13 0 ++ [64] ++
    List.replicate 21 0 ++ [56, 0, 1] ++ List.replicate 7 0
  size_lt := by decide

def noPages : PageSource where
  allocPages := fun _ => none
  inside := fun _ _ h => by cases h

theorem headerOnly_not_safe : ¬ ∀ (file : LoadedFile) (memory : PageSource),
    ∃ r, loadElf64 file memory = .ok r := by
  intro h
  have hfault : loadElf64 headerOnly noPages = .error .read := by rfl
  obtain ⟨r, hr⟩ := h headerOnly noPages
  rw [hfault] at hr
  exact absurd hr (by simp)

end

open Align

variable {file : LoadedFile} {data : List UInt8} {mapStart : UInt64} {size : ℕ} {seg : Segment}
  {segs : List Segment} {image image' : ℕ → UInt8} {v : ℕ}

/-- The address is one of the segment. -/
def Segment.Has (seg : Segment) (v : ℕ) : Prop :=
  seg.vaddr.toNat ≤ v ∧ v < seg.vaddr.toNat + seg.memsz.toNat

instance (seg : Segment) (v : ℕ) : Decidable (seg.Has v) := by
  unfold Segment.Has
  infer_instance

/-- The byte of the file for an address of the segment, or zero past `p_filesz`. -/
def Segment.own (data : List UInt8) (seg : Segment) (v : ℕ) : UInt8 :=
  if v < seg.vaddr.toNat + seg.filesz.toNat then
    data.getD (seg.offset.toNat + (v - seg.vaddr.toNat)) 0
  else 0

/-- What a segment leaves at an address where a byte was. -/
def lay (data : List UInt8) (v : ℕ) (byte : UInt8) (seg : Segment) : UInt8 :=
  if seg.vaddr.toNat ≤ v ∧ (v < seg.vaddr.toNat + seg.filesz.toNat ∨ seg.Has v) then
    seg.own data v
  else byte

/-- What the segments leave at an address. -/
def laid (data : List UInt8) (segs : List Segment) (v : ℕ) : UInt8 :=
  segs.foldl (lay data v) 0

/-- No address belongs to two segments. -/
def Apart (segs : List Segment) : Prop :=
  segs.Pairwise fun a b => a.vaddr.toNat + a.memsz.toNat ≤ b.vaddr.toNat ∨
    b.vaddr.toNat + b.memsz.toNat ≤ a.vaddr.toNat

theorem lay_of_has (h : seg.Has v) (byte : UInt8) : lay data v byte seg = seg.own data v :=
  if_pos ⟨h.1, .inr h⟩

theorem lay_of_not_has (hkeeps : seg.filesz ≤ seg.memsz) (h : ¬ seg.Has v) (byte : UInt8) :
    lay data v byte seg = byte := by
  have hle := UInt64.le_iff_toNat_le.1 hkeeps
  refine if_neg fun hin => h ⟨hin.1, ?_⟩
  rcases hin.2 with hfile | hhas
  · omega
  · exact hhas.2

theorem foldl_lay_of_not_has (hkeeps : ∀ s ∈ segs, s.filesz ≤ s.memsz)
    (h : ∀ s ∈ segs, ¬ s.Has v) (byte : UInt8) : segs.foldl (lay data v) byte = byte := by
  induction segs generalizing byte with
  | nil => rfl
  | cons s rest ih =>
    rw [foldl_cons, lay_of_not_has (hkeeps s mem_cons_self) (h s mem_cons_self)]
    exact ih (fun t ht => hkeeps t (mem_cons_of_mem s ht))
      (fun t ht => h t (mem_cons_of_mem s ht)) byte

theorem laid_eq_own (hapart : Apart segs) (hkeeps : ∀ s ∈ segs, s.filesz ≤ s.memsz)
    (hseg : seg ∈ segs) (hv : seg.Has v) : laid data segs v = seg.own data v := by
  obtain ⟨front, back, rfl⟩ := append_of_mem hseg
  have hback : ∀ s ∈ back, ¬ s.Has v := by
    intro s hs hin
    have hpair := (pairwise_cons.1 (pairwise_append.1 hapart).2.1).1 s hs
    rw [Segment.Has] at hv hin
    omega
  rw [laid, foldl_append, foldl_cons, lay_of_has hv]
  exact foldl_lay_of_not_has (fun s hs => hkeeps s (by simp [hs])) hback _

/-! ### The copy -/

theorem copyOne_image (hstart : mapStart.toNat ≤ seg.vaddr.toNat)
    (hpass : seg.Passes file.data)
    (h : copyOne file mapStart size seg image = .ok image') (x : ℕ) :
    image' x = lay file.data (mapStart.toNat + x) (image x) seg := by
  have hfits := (copyOne_ok_iff hstart hpass).1 ⟨image', h⟩
  have hdst : (seg.vaddr - mapStart).toNat = seg.vaddr.toNat - mapStart.toNat :=
    UInt64.toNat_sub_of_le _ _ (UInt64.le_iff_toNat_le.2 hstart)
  have hmemory := hfits.memory
  have hbytes := hfits.bytes
  have hlen := Segment.length_bytesIn hfits.file
  rw [copyOne, copySource_eq hpass, if_pos hfits.file] at h
  simp only [bind, Except.bind, zeroImage, writeImage, hdst] at h
  rw [if_pos (by omega)] at h
  dsimp only at h
  rw [if_pos (by omega)] at h
  cases h
  dsimp only
  rw [hlen]
  by_cases hfile : seg.vaddr.toNat - mapStart.toNat ≤ x ∧
      x < seg.vaddr.toNat - mapStart.toNat + seg.filesz.toNat
  · have hin : seg.vaddr.toNat ≤ mapStart.toNat + x ∧
        (mapStart.toNat + x < seg.vaddr.toNat + seg.filesz.toNat ∨
          seg.Has (mapStart.toNat + x)) := ⟨by omega, .inl (by omega)⟩
    have hx : mapStart.toNat + x - seg.vaddr.toNat =
        x - (seg.vaddr.toNat - mapStart.toNat) := by omega
    rw [if_pos hfile, lay, if_pos hin, Segment.own, if_pos (by omega), Segment.bytesIn, hx,
      getD_eq_getElem?_getD, getD_eq_getElem?_getD,
      List.getElem?_take_of_lt (by omega), List.getElem?_drop]
  · rw [if_neg hfile]
    by_cases hmem : seg.vaddr.toNat - mapStart.toNat ≤ x ∧
        x < seg.vaddr.toNat - mapStart.toNat + seg.memsz.toNat
    · have hhas : seg.Has (mapStart.toNat + x) := ⟨by omega, by omega⟩
      rw [if_pos hmem, lay_of_has hhas, Segment.own, if_neg (by omega)]
    · have hnot : ¬ seg.Has (mapStart.toNat + x) := by
        intro hhas
        have hlow := hhas.1
        have hhigh := hhas.2
        omega
      rw [if_neg hmem, lay, if_neg]
      intro hin
      rcases hin.2 with hlt | hhas
      · omega
      · exact hnot hhas

theorem copyAll_some (hstart : ∀ seg ∈ segs, mapStart.toNat ≤ seg.vaddr.toNat)
    (h : copyAll file mapStart size segs image = .ok (some image')) :
    (∀ seg ∈ segs, seg.Fits file.data (mapStart.toNat + size)) ∧
      ∀ x, image' x = segs.foldl (lay file.data (mapStart.toNat + x)) (image x) := by
  induction segs generalizing image with
  | nil =>
    cases h
    exact ⟨fun s hs => absurd hs not_mem_nil, fun _ => rfl⟩
  | cons seg rest ih =>
    have hseg := hstart seg mem_cons_self
    rw [copyAll] at h
    by_cases hpass : seg.Passes file.data
    · rw [if_pos hpass] at h
      cases hcopy : copyOne file mapStart size seg image with
      | error e =>
        rw [hcopy] at h
        exact absurd h (by simp [bind, Except.bind])
      | ok image₁ =>
        rw [hcopy] at h
        obtain ⟨hfits, himage⟩ := ih (fun s hs => hstart s (mem_cons_of_mem seg hs)) h
        refine ⟨forall_mem_cons.2 ⟨(copyOne_ok_iff hseg hpass).1 ⟨image₁, hcopy⟩, hfits⟩,
          fun x => ?_⟩
        rw [himage x, copyOne_image hseg hpass hcopy x]
        rfl
    · rw [if_neg hpass] at h
      exact absurd h (by simp)

theorem dvd_alignUp_large (v : UInt64) : 2 ^ 21 ∣ (alignUp v largePage).toNat := by
  have hup : (alignUp v largePage).toNat = cutUp 21 v.toNat % 2 ^ 64 := toNat_up rfl
  rw [hup]
  exact (Nat.dvd_mod_iff (by decide)).2 (dvd_cutUp 21 _)

/-- A kernel that was loaded from a file: where its image is and what it holds. -/
structure Loaded (data : List UInt8) (kernel : KernelImage) (image : ℕ → UInt8) : Prop where
  spanning : Spanning (segments data)
  start : kernel.mapStart = imageStart (segments data)
  stop : kernel.mapEnd = imageEnd (segments data)
  base : 2 ^ 21 ∣ kernel.physBase.toNat
  fits : ∀ seg ∈ segments data, seg.Fits data (imageStop (segments data))
  image : ∀ x, image x = laid data (segments data) (kernel.mapStart.toNat + x)

/-- The pages of a firmware whose addresses have 52 bits, as those of the processor have. -/
structure RamSource extends PageSource where
  below : ∀ pages raw, allocPages pages = some raw → raw.toNat + pages.toNat * 4096 ≤ 2 ^ 52

theorem loadElf64_loaded {memory : RamSource} {kernel : KernelImage}
    (h : loadElf64 file memory.toPageSource = .ok (some (kernel, image))) :
    Loaded file.data kernel image ∧
      kernel.physBase.toNat + (imageSize (segments file.data)).toNat ≤ 2 ^ 52 := by
  rw [loadElf64_eq] at h
  by_cases haccept : Accepted file.data
  · rw [if_pos haccept] at h
    by_cases htable : TableInside file.data
    · rw [if_pos htable, place] at h
      by_cases hspan : Spanning (segments file.data)
      · rw [if_pos hspan] at h
        cases hpages : memory.allocPages (imagePages (segments file.data)) with
        | none =>
          rw [hpages] at h
          exact absurd h (by simp)
        | some rawPhys =>
          rw [hpages] at h
          dsimp only at h
          by_cases hroom : Roomy (segments file.data) rawPhys
          · rw [if_pos hroom] at h
            cases hcopy : copyAll file (imageStart (segments file.data))
                (imageSize (segments file.data)).toNat (segments file.data) fun _ => 0 with
            | error e =>
              rw [hcopy] at h
              exact absurd h (by simp [Except.map])
            | ok copied =>
              rw [hcopy] at h
              cases copied with
              | none => exact absurd h (by simp [Except.map])
              | some image₁ =>
                obtain ⟨hfits, himage⟩ := copyAll_some
                  (fun seg hseg => imageStart_le hseg) hcopy
                cases h
                refine ⟨⟨hspan, rfl, rfl, dvd_alignUp_large rawPhys, hfits, himage⟩, ?_⟩
                have hbelow := memory.below _ _ hpages
                exact Nat.le_trans hroom.2 hbelow
          · rw [if_neg hroom] at h
            exact absurd h (by simp)
      · rw [if_neg hspan] at h
        exact absurd h (by simp)
    · rw [if_neg htable] at h
      exact absurd h (by simp)
  · rw [if_neg haccept] at h
    exact absurd h (by simp)

end Cleonos.Boot
