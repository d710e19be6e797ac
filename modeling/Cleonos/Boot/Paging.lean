import Cleonos.Boot.Loader
import Cleonos.Lib.Extent
import Cleonos.Lib.Radix

/-!
# The page tables of the loader

`clboot_map_2m` and `clboot_build_page_tables`: large pages of 2 MiB are mapped in tables of
four levels, of which the last is never used.
-/

namespace Cleonos.Boot

open Option

section

/-- `clboot_alloc_pages(1, ...)`: the answers of the firmware, one after another.  It gives no
page twice, and no address of more than 52 bits. -/
structure TableSource where
  allocPage : ℕ → Option UInt64
  aligned : ∀ k page, allocPage k = some page → 2 ^ 12 ∣ page.toNat
  below : ∀ k page, allocPage k = some page → page.toNat < 2 ^ 52
  distinct : ∀ j k page, allocPage j = some page → allocPage k = some page → j = k

/-- An address or a size that is a multiple of a large page. -/
def Large : Type := { v : UInt64 // 2 ^ 21 ∣ v.toNat }

def Large.down (v : UInt64) : Large := ⟨alignDown v largePage, by
  rw [alignDown, Align.toNat_down (k := 21) rfl]
  exact Align.dvd_cutDown 21 _⟩

def Large.up (v : UInt64) : Large := ⟨alignUp v largePage, by
  rw [alignUp, Align.toNat_up (k := 21) rfl]
  exact (Nat.dvd_mod_iff (by decide)).2 (Align.dvd_cutUp 21 _)⟩

instance : Add Large := ⟨fun a b => ⟨a.1 + b.1, by
  rw [UInt64.toNat_add]
  exact (Nat.dvd_mod_iff (by decide)).2 (Nat.dvd_add a.2 b.2)⟩⟩

def Large.one : Large := ⟨largePage, ⟨1, rfl⟩⟩

theorem Large.toNat_add_one {virt stop : Large} (h : virt.1 < stop.1) :
    (virt + one).1.toNat = virt.1.toNat + 2 ^ 21 ∧ virt.1.toNat + 2 ^ 21 ≤ stop.1.toNat := by
  have hlt := UInt64.lt_iff_toNat_lt.1 h
  have hstop := stop.1.toNat_lt
  have hle : virt.1.toNat + 2 ^ 21 ≤ stop.1.toNat := by
    obtain ⟨a, ha⟩ := virt.2
    obtain ⟨b, hb⟩ := stop.2
    omega
  refine ⟨?_, hle⟩
  change (virt.1 + largePage).toNat = _
  rw [UInt64.toNat_add]
  exact Nat.mod_eq_of_lt (Nat.lt_of_le_of_lt hle hstop)

def ptPresent : UInt64 := 1
def ptWrite : UInt64 := 2
def ptPs : UInt64 := 0x80
def addressMask : UInt64 := 0x000FFFFFFFFFF000

/-- `CLBOOT_BOOT_PHYS_MAP_SIZE` and `CLBOOT_HHDM_OFFSET`. -/
def physMapSize : Large := ⟨0x100000000, ⟨2048, rfl⟩⟩
def hhdmOffset : Large := ⟨0xFFFF800000000000, ⟨0x7FFFC000000, rfl⟩⟩

/-- An entry is present, and the table that it leads to. -/
def isPresent (entry : UInt64) : Bool := entry &&& ptPresent != 0
def tableOf (entry : UInt64) : UInt64 := entry &&& addressMask

/-- The memory of the tables, by page and index, and how many pages were taken for them. -/
structure Tables where
  mem : UInt64 → UInt64 → UInt64
  used : ℕ

/-- A new table without entries; without memory the boot halts. -/
def allocTable (source : TableSource) (st : Tables) : Option (UInt64 × Tables) :=
  (source.allocPage st.used).map fun page => (page, ⟨Radix.clear 0 st.mem page, st.used + 1⟩)

/-- One level of `clboot_map_2m`: the table of an entry, which is made where it is missing. -/
def nextTable (source : TableSource) (st : Tables) (table index : UInt64) :
    Option (UInt64 × Tables) :=
  if st.mem table index &&& ptPresent = 0 then
    (allocTable source st).map fun (page, st) =>
      let mem := Radix.store st.mem table index (page ||| ptPresent ||| ptWrite)
      (mem table index &&& addressMask, ⟨mem, st.used⟩)
  else some (st.mem table index &&& addressMask, st)

/-- The body of the loop of `clboot_map_2m`. -/
def mapPage (source : TableSource) (pml4 virt phys : UInt64) (st : Tables) : Option Tables := do
  let (pdpt, st) ← nextTable source st pml4 ((virt >>> 39) &&& 0x1FF)
  let (pd, st) ← nextTable source st pdpt ((virt >>> 30) &&& 0x1FF)
  return ⟨Radix.store st.mem pd ((virt >>> 21) &&& 0x1FF)
    ((phys &&& addressMask) ||| ptPresent ||| ptWrite ||| ptPs), st.used⟩

/-- The loop of `clboot_map_2m`. -/
def mapLoop (source : TableSource) (pml4 : UInt64) (stop virt : Large) (phys : UInt64)
    (st : Tables) : Option Tables :=
  if virt.1 < stop.1 then
    (mapPage source pml4 virt.1 phys st).bind fun st =>
      mapLoop source pml4 stop (virt + Large.one) (phys + largePage) st
  else some st
termination_by stop.1.toNat - virt.1.toNat
decreasing_by
  have h := @Large.toNat_add_one virt stop ‹_›
  omega

/-- `clboot_map_2m`; all its callers map whole large pages. -/
def map2m (source : TableSource) (pml4 : UInt64) (virt : Large) (phys : UInt64) (size : Large)
    (st : Tables) : Option Tables :=
  mapLoop source pml4 (virt + size) virt phys st

/-- The framebuffer, if there is one, in the direct map and at its own address. -/
def mapFramebuffer (source : TableSource) (pml4 fbBase fbSize : UInt64) (st : Tables) :
    Option Tables :=
  if fbBase ≠ 0 ∧ fbSize ≠ 0 then do
    let fbPhys := Large.down fbBase
    let fbMapSize := Large.up (fbBase - fbPhys.1 + fbSize)
    let st ← map2m source pml4 (hhdmOffset + fbPhys) fbPhys.1 fbMapSize st
    map2m source pml4 fbPhys fbPhys.1 fbMapSize st
  else some st

/-- `clboot_build_page_tables`. -/
def buildPageTables (source : TableSource) (kernel : KernelImage) (fbBase fbSize : UInt64) :
    Option (UInt64 × Tables) := do
  let kernelPhys := Large.down kernel.physBase
  let kernelVirt := Large.down kernel.mapStart
  let kernelSize := Large.up (kernel.physBase - kernelPhys.1 + (kernel.mapEnd - kernel.mapStart))
  let (pml4, st) ← allocTable source ⟨fun _ _ => 0, 0⟩
  let st ← map2m source pml4 ⟨0, ⟨0, rfl⟩⟩ 0 physMapSize st
  let st ← map2m source pml4 hhdmOffset 0 physMapSize st
  let st ← map2m source pml4 kernelVirt kernelPhys.1 kernelSize st
  let st ← mapFramebuffer source pml4 fbBase fbSize st
  return (pml4, st)

end

/-! ## What the page tables translate -/

open Align

/-- The upper 17 bits of the address are all equal. -/
def Canonical (v : UInt64) : Prop := v.toNat < 2 ^ 47 ∨ 2 ^ 64 - 2 ^ 47 ≤ v.toNat

instance (v : UInt64) : Decidable (Canonical v) := by
  unfold Canonical
  infer_instance

/-- The path to the last table used, and the index in it. -/
def pathOf (virt : UInt64) : List UInt64 := [(virt >>> 39) &&& 0x1FF, (virt >>> 30) &&& 0x1FF]
def indexOf (virt : UInt64) : UInt64 := (virt >>> 21) &&& 0x1FF

/-- The processor's walk to a large page.  Pages of 4 KiB would need tables of one more level;
an entry that leads to one counts as no translation. -/
def translate (mem : UInt64 → UInt64 → UInt64) (cr3 v : UInt64) : Option UInt64 :=
  if Canonical v then
    (Radix.lookup isPresent tableOf mem cr3 (pathOf v) (indexOf v)).bind fun entry =>
      if entry &&& ptPs ≠ 0 then some ((entry &&& 0x000FFFFFFFE00000) ||| (v &&& 0x1FFFFF))
      else none
  else none

variable {source : TableSource} {st st' : Tables} {root table index page : UInt64}
  {path path' : List UInt64} {virt phys v p : UInt64}

theorem toNat_or_flags {x flags : UInt64} (hx : 2 ^ 12 ∣ x.toNat) (hflags : flags.toNat < 2 ^ 12) :
    (x ||| flags).toNat = x.toNat + flags.toNat := by
  obtain ⟨q, hq⟩ := hx
  rw [UInt64.toNat_or, hq, Nat.two_pow_add_eq_or_of_lt hflags]

theorem isPresent_iff {e : UInt64} : isPresent e = true ↔ e.toNat % 2 = 1 := by
  have hand : (e &&& ptPresent).toNat = e.toNat % 2 := by
    rw [UInt64.toNat_and]
    exact Nat.and_one_is_mod _
  rw [isPresent, bne_iff_ne, ne_eq, ← UInt64.toNat_inj, hand]
  change ¬ e.toNat % 2 = 0 ↔ _
  omega

theorem toNat_tableOf {e : UInt64} (he : e.toNat < 2 ^ 52) :
    (tableOf e).toNat = cutDown 12 e.toNat := by
  have hmask : e.toNat &&& (2 ^ 52 - 2 ^ 12) = cutDown 12 e.toNat :=
    and_two_pow_sub he (by decide)
  rw [tableOf, UInt64.toNat_and]
  exact hmask

theorem tableEntry (haligned : 2 ^ 12 ∣ page.toNat) (hbelow : page.toNat < 2 ^ 52) :
    isPresent (page ||| ptPresent ||| ptWrite) = true ∧
      tableOf (page ||| ptPresent ||| ptWrite) = page := by
  have hentry : (page ||| ptPresent ||| ptWrite).toNat = page.toNat + 3 := by
    rw [UInt64.or_assoc]
    exact toNat_or_flags haligned (by decide)
  obtain ⟨q, hq⟩ := haligned
  constructor
  · rw [isPresent_iff, hentry]
    omega
  · rw [← UInt64.toNat_inj, toNat_tableOf (by omega), hentry, cutDown]
    omega

/-- The entry of a large page. -/
def pageEntry (phys : UInt64) : UInt64 :=
  (phys &&& addressMask) ||| ptPresent ||| ptWrite ||| ptPs

theorem toNat_pageEntry (hphys : 2 ^ 21 ∣ phys.toNat) (hbelow : phys.toNat < 2 ^ 52) :
    (pageEntry phys).toNat = phys.toNat + 0x83 := by
  have hmask : phys &&& addressMask = phys := by
    rw [← UInt64.toNat_inj]
    refine (toNat_tableOf hbelow).trans (cutDown_of_dvd ?_)
    exact Nat.dvd_trans (by decide) hphys
  rw [pageEntry, hmask, UInt64.or_assoc, UInt64.or_assoc]
  exact toNat_or_flags (Nat.dvd_trans (by decide) hphys) (by decide)

theorem isPresent_pageEntry (hphys : 2 ^ 21 ∣ phys.toNat) (hbelow : phys.toNat < 2 ^ 52) :
    isPresent (pageEntry phys) = true := by
  rw [isPresent_iff, toNat_pageEntry hphys hbelow]
  obtain ⟨q, hq⟩ := hphys
  omega

theorem address_pageEntry (hphys : 2 ^ 21 ∣ phys.toNat) (hbelow : phys.toNat < 2 ^ 52) :
    pageEntry phys &&& ptPs ≠ 0 ∧
      ((pageEntry phys &&& 0x000FFFFFFFE00000) ||| (v &&& 0x1FFFFF)).toNat =
        phys.toNat + v.toNat % 2 ^ 21 := by
  have hentry := toNat_pageEntry hphys hbelow
  constructor
  · have hbit : (pageEntry phys).toNat.testBit 7 = true := by
      rw [hentry, Nat.testBit_eq_decide_div_mod_eq]
      obtain ⟨q, hq⟩ := hphys
      rw [decide_eq_true_eq]
      omega
    intro h
    have hzero : (pageEntry phys).toNat &&& 2 ^ 7 = 0 := by
      rw [← UInt64.toNat_inj, UInt64.toNat_and] at h
      exact h
    have hfalse : ((pageEntry phys).toNat &&& 2 ^ 7).testBit 7 = false := by
      rw [hzero, Nat.zero_testBit]
    rw [Nat.testBit_and, hbit, Nat.testBit_two_pow_self] at hfalse
    exact absurd hfalse (by decide)
  · have hmask : (pageEntry phys).toNat &&& (2 ^ 52 - 2 ^ 21) = phys.toNat := by
      rw [and_two_pow_sub (by omega) (by decide), hentry, cutDown]
      obtain ⟨q, hq⟩ := hphys
      omega
    have hlow : v.toNat &&& (2 ^ 21 - 1) = v.toNat % 2 ^ 21 := Nat.and_two_pow_sub_one_eq_mod _ 21
    obtain ⟨q, hq⟩ := hphys
    rw [UInt64.toNat_or, UInt64.toNat_and, UInt64.toNat_and]
    change (pageEntry phys).toNat &&& (2 ^ 52 - 2 ^ 21) ||| v.toNat &&& (2 ^ 21 - 1) = _
    rw [hmask, hlow, hq, Nat.two_pow_add_eq_or_of_lt (Nat.mod_lt _ (by decide))]

theorem translate_mod {mem : UInt64 → UInt64 → UInt64} (h : translate mem root v = some p) :
    p.toNat % 2 ^ 21 = v.toNat % 2 ^ 21 := by
  rw [translate] at h
  split at h
  · obtain ⟨entry, -, hentry⟩ := bind_eq_some_iff.1 h
    split at hentry
    · cases hentry
      rw [UInt64.toNat_or, UInt64.toNat_and, UInt64.toNat_and]
      have hlow : v.toNat &&& (2 ^ 21 - 1) = v.toNat % 2 ^ 21 :=
        Nat.and_two_pow_sub_one_eq_mod _ 21
      change (entry.toNat &&& 0x000FFFFFFFE00000 ||| v.toNat &&& (2 ^ 21 - 1)) % 2 ^ 21 = _
      rw [Nat.or_mod_two_pow, Nat.and_mod_two_pow, hlow, Nat.mod_mod,
        show 0x000FFFFFFFE00000 % 2 ^ 21 = 0 from rfl, Nat.and_zero, Nat.zero_or]
    · exact absurd hentry (by simp)
  · exact absurd h (by simp)

theorem toNat_field (v : UInt64) (k : UInt64) (hk : k.toNat < 64) :
    ((v >>> k) &&& 0x1FF).toNat = v.toNat / 2 ^ k.toNat % 512 := by
  rw [UInt64.toNat_and, UInt64.toNat_shiftRight, Nat.mod_eq_of_lt hk, Nat.shiftRight_eq_div_pow]
  exact Nat.and_two_pow_sub_one_eq_mod _ 9

theorem path_eq_iff (hv : Canonical v) (hvirt : Canonical virt) :
    (pathOf v = pathOf virt ∧ indexOf v = indexOf virt) ↔
      v.toNat / 2 ^ 21 = virt.toNat / 2 ^ 21 := by
  have hlt := v.toNat_lt
  have hlt' := virt.toNat_lt
  simp only [pathOf, indexOf, List.cons.injEq, and_true, ← UInt64.toNat_inj,
    toNat_field _ _ (show (39 : UInt64).toNat < 64 by decide),
    toNat_field _ _ (show (30 : UInt64).toNat < 64 by decide),
    toNat_field _ _ (show (21 : UInt64).toNat < 64 by decide), UInt64.reduceToNat]
  rw [Canonical] at hv hvirt
  omega

/-- The tables are a tree, and the firmware gave each of them. -/
structure Built (source : TableSource) (st : Tables) (root : UInt64) : Prop where
  tree : Radix.Tree isPresent tableOf st.mem 3 root
  taken : ∀ path t, path.length < 3 → Radix.descend isPresent tableOf st.mem root path = some t →
    ∃ k < st.used, source.allocPage k = some t

section

variable (hbuilt : Built source st root)
include hbuilt

theorem Built.fresh (hpage : source.allocPage st.used = some page)
    (path : List UInt64) (hpath : path.length < 3) :
    Radix.descend isPresent tableOf st.mem root path ≠ some page := by
  intro h
  obtain ⟨k, hk, htaken⟩ := hbuilt.taken path page hpath h
  have hsame := source.distinct k st.used page htaken hpage
  omega

theorem nextTable_spec (hpath : path.length + 1 < 3)
    (hd : Radix.descend isPresent tableOf st.mem root path = some table)
    (h : nextTable source st table index = some (page, st')) :
    Built source st' root ∧
      (∀ path i, path.length + 1 = 3 → Radix.lookup isPresent tableOf st'.mem root path i =
        Radix.lookup isPresent tableOf st.mem root path i) ∧
      Radix.descend isPresent tableOf st'.mem root (path ++ [index]) = some page := by
  rw [nextTable] at h
  split at h
  · rename_i hzero
    rw [allocTable, map_map] at h
    obtain ⟨new, hnew, hst⟩ := map_eq_some_iff.1 h
    have habsent : isPresent (st.mem table index) = false := by
      rw [isPresent, hzero]
      rfl
    have hfresh := hbuilt.fresh hnew
    obtain ⟨hpresent, hnext⟩ := tableEntry (source.aligned _ _ hnew) (source.below _ _ hnew)
    have hgrow : ∀ path' : List UInt64, path'.length < 3 → Radix.descend isPresent tableOf
        (Radix.store (Radix.clear 0 st.mem new) table index (new ||| ptPresent ||| ptWrite))
          root path' = if path' = path ++ [index] then some new
            else Radix.descend isPresent tableOf st.mem root path' :=
      fun path' hpath' => Radix.descend_grow hbuilt.tree hd hpath habsent rfl hfresh hpresent
        hnext hpath'
    have hpage : page = new := by
      have hfst := congrArg Prod.fst hst
      simp only [Function.comp_apply, Radix.store_self] at hfst
      rw [← hfst]
      exact hnext
    have hst' : st' = ⟨Radix.store (Radix.clear 0 st.mem new) table index
        (new ||| ptPresent ||| ptWrite), st.used + 1⟩ := (congrArg Prod.snd hst).symm
    subst hpage hst'
    refine ⟨⟨?_, ?_⟩, ?_, ?_⟩
    · exact Radix.Tree.grow hbuilt.tree hd hpath habsent rfl hfresh hpresent hnext
    · intro path' t hpath' ht
      rw [hgrow path' hpath'] at ht
      split at ht
      · cases ht
        exact ⟨st.used, Nat.lt_succ_self _, hnew⟩
      · obtain ⟨k, hk, htaken⟩ := hbuilt.taken path' t hpath' ht
        exact ⟨k, Nat.lt_succ_of_lt hk, htaken⟩
    · intro path' i hpath'
      exact Radix.lookup_grow hbuilt.tree hd hpath habsent rfl hfresh hpresent hnext hpath'
    · rw [hgrow _ (by rw [List.length_append, List.length_singleton]; omega), if_pos rfl]
  · rename_i hset
    cases h
    refine ⟨hbuilt, fun _ _ _ => rfl, ?_⟩
    have hpresent : isPresent (st.mem table index) = true := by
      rw [isPresent, bne_iff_ne]
      exact hset
    rw [Radix.descend_snoc, hd, bind_some, Radix.child, if_pos hpresent]
    rfl

theorem mapPage_spec (hphys : 2 ^ 21 ∣ phys.toNat)
    (hbelow : phys.toNat < 2 ^ 52) (h : mapPage source root virt phys st = some st') :
    Built source st' root ∧ ∀ path i, path.length + 1 = 3 →
      Radix.lookup isPresent tableOf st'.mem root path i =
        if path = pathOf virt ∧ i = indexOf virt then some (pageEntry phys)
        else Radix.lookup isPresent tableOf st.mem root path i := by
  rw [mapPage] at h
  obtain ⟨⟨pdpt, st₁⟩, hpdpt, h⟩ := bind_eq_some_iff.1 h
  obtain ⟨⟨pd, st₂⟩, hpd, h⟩ := bind_eq_some_iff.1 h
  cases h
  obtain ⟨hbuilt₁, hfound₁, hd₁⟩ := @nextTable_spec source st st₁ root root _ pdpt [] hbuilt
    (by decide) Radix.descend_nil hpdpt
  obtain ⟨hbuilt₂, hfound₂, hd₂⟩ := nextTable_spec hbuilt₁ (by simp) hd₁ hpd
  have hlen : (pathOf virt).length + 1 = 3 := rfl
  have hd : Radix.descend isPresent tableOf st₂.mem root (pathOf virt) = some pd := hd₂
  refine ⟨⟨Radix.Tree.store hbuilt₂.tree hd hlen, ?_⟩, ?_⟩
  · intro path t hpath ht
    rw [Radix.descend_store hbuilt₂.tree hd hlen hpath] at ht
    exact hbuilt₂.taken path t hpath ht
  · intro path i hpath
    have hstore := @Radix.lookup_store _ _ _ _ _ isPresent tableOf 3 st₂.mem root pd (pathOf virt)
      path (indexOf virt) i (pageEntry phys) hbuilt₂.tree hd hlen
      (isPresent_pageEntry hphys hbelow) hpath
    rw [← hfound₁ path i hpath, ← hfound₂ path i hpath]
    exact hstore

theorem translate_mapPage (hphys : 2 ^ 21 ∣ phys.toNat)
    (hbelow : phys.toNat < 2 ^ 52) (hvirt : Canonical virt) (hv : Canonical v)
    (h : mapPage source root virt phys st = some st') :
    (translate st'.mem root v).map UInt64.toNat =
      if v.toNat / 2 ^ 21 = virt.toNat / 2 ^ 21 then some (phys.toNat + v.toNat % 2 ^ 21)
      else (translate st.mem root v).map UInt64.toNat := by
  rw [translate, translate, if_pos hv, if_pos hv,
    (mapPage_spec hbuilt hphys hbelow h).2 (pathOf v) (indexOf v) rfl]
  by_cases hpage : v.toNat / 2 ^ 21 = virt.toNat / 2 ^ 21
  · obtain ⟨hps, haddress⟩ := @address_pageEntry phys v hphys hbelow
    rw [if_pos ((path_eq_iff hv hvirt).2 hpage), if_pos hpage, bind_some, if_pos hps,
      map_some, haddress]
  · rw [if_neg fun h => hpage ((path_eq_iff hv hvirt).1 h), if_neg hpage]

theorem translate_mapLoop {stop virt : Large}
    (hle : virt.1.toNat ≤ stop.1.toNat)
    (hcanonical : ∀ v : UInt64, virt.1.toNat ≤ v.toNat → v.toNat < stop.1.toNat → Canonical v)
    (hphys : 2 ^ 21 ∣ phys.toNat)
    (hbelow : phys.toNat + (stop.1.toNat - virt.1.toNat) ≤ 2 ^ 52)
    (h : mapLoop source root stop virt phys st = some st') :
    Built source st' root ∧ ∀ v, Canonical v → (translate st'.mem root v).map UInt64.toNat =
      if virt.1.toNat ≤ v.toNat ∧ v.toNat < stop.1.toNat then
        some (phys.toNat + (v.toNat - virt.1.toNat))
      else (translate st.mem root v).map UInt64.toNat := by
  induction hn : stop.1.toNat - virt.1.toNat using Nat.strong_induction_on
    generalizing virt phys st with
  | _ n ih =>
    rw [mapLoop] at h
    by_cases hlt : virt.1 < stop.1
    · rw [if_pos hlt] at h
      obtain ⟨st₁, hpage, hloop⟩ := bind_eq_some_iff.1 h
      obtain ⟨hnext, hnextle⟩ := Large.toNat_add_one hlt
      have hfits : phys.toNat < 2 ^ 52 := by omega
      have hvirt : Canonical virt.1 := hcanonical virt.1 le_rfl (by omega)
      have hphysnext : (phys + largePage).toNat = phys.toNat + 2 ^ 21 := by
        rw [UInt64.toNat_add]
        exact Nat.mod_eq_of_lt (show phys.toNat + 2 ^ 21 < 2 ^ 64 by omega)
      have hbuilt₁ := (mapPage_spec hbuilt hphys hfits hpage).1
      obtain ⟨hbuilt', hrest⟩ := ih (stop.1.toNat - (virt + Large.one).1.toNat) (by omega)
        hbuilt₁ (by omega) (fun v hv hv' => hcanonical v (by omega) hv')
        (by rw [hphysnext]; exact Nat.dvd_add hphys ⟨1, rfl⟩) (by omega) hloop rfl
      refine ⟨hbuilt', fun v hv => ?_⟩
      rw [hrest v hv, translate_mapPage hbuilt hphys hfits hvirt hv hpage, hnext, hphysnext]
      obtain ⟨a, ha⟩ := virt.2
      obtain ⟨b, hb⟩ := stop.2
      by_cases hlater : virt.1.toNat + 2 ^ 21 ≤ v.toNat ∧ v.toNat < stop.1.toNat
      · rw [if_pos hlater, if_pos (by omega)]
        refine congrArg some ?_
        omega
      · rw [if_neg hlater]
        by_cases hhere : v.toNat / 2 ^ 21 = virt.1.toNat / 2 ^ 21
        · rw [if_pos hhere, if_pos (by omega)]
          refine congrArg some ?_
          omega
        · rw [if_neg hhere, if_neg (by omega)]
    · rw [if_neg hlt] at h
      cases h
      have hstop := Nat.not_lt.1 fun h => hlt (UInt64.lt_iff_toNat_lt.2 h)
      refine ⟨hbuilt, fun v hv => ?_⟩
      rw [if_neg (by omega)]

end

end Cleonos.Boot
