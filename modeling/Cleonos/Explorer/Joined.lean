import Cleonos.Explorer.Model

/-!
# A path that is put together

The path of a child is the folder, a slash and the name.
-/

namespace Cleonos.Explorer

open List
open Function (update update_of_ne update_self)
open Buffer (slice store store_of_ge store_of_lt store_of_mem)
open Kernel (pathMax)
open LexicalPath (slash)

/-- The path of a child: no slash is put behind one that is there. -/
def childPath (folder name : List UInt8) : List UInt8 :=
  if folder.getLast? = some slash then folder ++ name else folder ++ slash :: name

/-- `entries[k].path` with other bytes in it. -/
def FxApp.setPath (app : FxApp) (k : ℕ) (path : ℕ → UInt8) : FxApp :=
  app.setEntry k { app.entries k with path := path }

variable {app : FxApp} {dir : PathRef} {out p k : ℕ} {name folder s xs : List UInt8}
  {b b' : ℕ → UInt8} {c : UInt8}

@[simp] theorem setPath_setPath : (app.setPath k b).setPath k b' = app.setPath k b' := by
  simp [FxApp.setPath, FxApp.setEntry]

@[simp] theorem setPath_self : app.setPath k (app.entries k).path = app := by
  simp [FxApp.setPath, FxApp.setEntry]

@[simp] theorem path_setPath : ((app.setPath k b).entries k).path = b := by
  simp [FxApp.setPath, FxApp.setEntry]

theorem setChar_eq : app.setChar k p c =
    app.setPath k (Function.update (app.entries k).path p c) := rfl

/-! ## Bytes in a buffer -/

theorem store_nil : store b p [] = b := by
  funext j
  exact ite_self _

theorem store_update : store (Function.update b p c) (p + 1) xs = store b p (c :: xs) := by
  funext j
  by_cases hlt : j < p
  · rw [store_of_lt (by omega), store_of_lt hlt, update_of_ne (by omega)]
  by_cases hself : j = p
  · subst hself
    rw [store_of_lt (by omega), update_self,
      store_of_mem le_rfl (by simp)]
    simp
  by_cases hin : j < p + 1 + xs.length
  · rw [store_of_mem (by omega) hin,
      store_of_mem (by omega) (by rw [length_cons]; omega)]
    have hsub : j - p = (j - (p + 1)) + 1 := by omega
    simp [hsub]
  · rw [store_of_ge (by omega), store_of_ge (by rw [length_cons]; omega),
      update_of_ne hself]

theorem update_store : Function.update (store b 0 xs) xs.length c = store b 0 (xs ++ [c]) := by
  funext j
  by_cases hself : j = xs.length
  · subst hself
    rw [update_self, store_of_mem (Nat.zero_le _) (by simp)]
    simp
  · rw [update_of_ne hself]
    by_cases hlt : j < xs.length
    · rw [store_of_mem (Nat.zero_le _) (by omega),
        store_of_mem (Nat.zero_le _) (by simp; omega)]
      simp [getElem_append_left hlt]
    · rw [store_of_ge (by omega), store_of_ge (by simp; omega)]

theorem store_store {ys : List UInt8} :
    store (store b 0 xs) xs.length ys = store b 0 (xs ++ ys) := by
  induction ys generalizing xs with
  | nil => rw [store_nil, append_nil]
  | cons c ys ih =>
    have hlen : (xs ++ [c]).length = xs.length + 1 := by simp
    rw [← store_update, update_store, ← hlen, ih, append_assoc]
    rfl

theorem cstr_store_zero (hnul : (0 : UInt8) ∉ xs) (hlen : xs.length < pathMax) :
    cstr (slice (store b 0 (xs ++ [0])) 0 pathMax) = xs := by
  obtain ⟨m, hm⟩ : ∃ m, pathMax = (xs ++ [0]).length + m :=
    ⟨pathMax - (xs.length + 1), by rw [length_append, length_singleton]; omega⟩
  rw [hm, Buffer.slice_add, Buffer.slice_store_self, append_assoc, cstr_append_nul,
    cstr_of_notMem hnul]

theorem cstr_store_full (hnul : (0 : UInt8) ∉ xs) (hlen : xs.length + 1 = pathMax)
    (hend : b 191 = 0) : cstr (slice (store b 0 xs) 0 pathMax) = xs := by
  have hlast : store b 0 xs (0 + xs.length) = 0 := by
    rw [store_of_ge le_rfl, Nat.zero_add, ← hend]
    congr 1
    rw [pathMax] at hlen
    omega
  rw [← hlen, Buffer.slice_succ, Buffer.slice_store_self, hlast, ← append_nil (xs ++ [0]),
    append_assoc, cstr_append_nul, cstr_of_notMem hnul]

theorem getD_cstr (hp : p ≤ (cstr s).length) : s.getD p 0 = (cstr s).getD p 0 := by
  induction s generalizing p with
  | nil => rfl
  | cons a s ih =>
    by_cases ha : a = 0
    · subst ha
      have hnil : cstr (0 :: s) = [] := by simp [cstr]
      rw [hnil] at hp ⊢
      rw [Nat.le_zero.1 hp]
      rfl
    · have hcons : cstr (a :: s) = a :: cstr s := by simp [cstr, ha]
      rw [hcons] at hp ⊢
      cases p with
      | zero => rfl
      | succ p => exact ih (Nat.le_of_succ_le_succ hp)

/-- A pointer to a path that ends in time. -/
structure Points (app : FxApp) (dir : PathRef) (folder : List UInt8) : Prop where
  str : app.str dir = folder
  short : folder.length < pathMax

section

variable (h : Points app dir folder)
include h

theorem Points.no_nul : (0 : UInt8) ∉ folder := by
  rw [← h.str]
  cases dir <;> exact notMem_cstr _

theorem Points.charAt (hp : p ≤ folder.length) :
    app.charAt dir p = folder.getD p 0 := by
  have hshort := h.short
  have hstr := h.str
  cases dir with
  | text s =>
    change cstr s = folder at hstr
    subst hstr
    exact getD_cstr hp
  | entry k =>
    change cstr (slice (app.entries k).path 0 pathMax) = folder at hstr
    subst hstr
    rw [← getD_cstr hp, Buffer.getD_slice (by omega)]
    rfl

theorem Points.charAt_copied (hp : p ≤ folder.length) :
    (app.setPath out (store (app.entries out).path 0 (folder.take p))).charAt dir p =
      folder.getD p 0 := by
  rw [← h.charAt hp]
  cases dir with
  | text s => rfl
  | entry k =>
    by_cases hk : k = out
    · subst hk
      change ((app.setPath k _).entries k).path p = (app.entries k).path p
      rw [path_setPath, store_of_ge (by rw [length_take]; omega)]
    · simp [FxApp.charAt, FxApp.setPath, FxApp.setEntry, update_of_ne hk]

theorem fxJoinDir_eq {fuel : ℕ} (hp : p ≤ folder.length)
    (hfuel : folder.length < fuel + p) :
    fxJoinDir dir out fuel p
        (app.setPath out (store (app.entries out).path 0 (folder.take p))) =
      (some folder.length, app.setPath out (store (app.entries out).path 0 folder)) := by
  have hshort := h.short
  induction fuel generalizing p with
  | zero => omega
  | succ fuel ih =>
    rw [fxJoinDir, h.charAt_copied hp]
    by_cases hend : p = folder.length
    · rw [if_pos (by simp [hend]), hend, take_length]
    · have hlt : p < folder.length := by omega
      have hget : folder.getD p 0 = folder[p] := by simp [hlt]
      have hne : folder[p] ≠ 0 := fun h0 => h.no_nul (h0 ▸ getElem_mem hlt)
      have hlen : (folder.take p).length = p := by rw [length_take]; omega
      have hstep := @update_store (folder.take p) (app.entries out).path folder[p]
      rw [hlen, take_append_getElem hlt] at hstep
      rw [hget, if_neg hne, if_neg (by omega), setChar_eq, path_setPath, setPath_setPath, hstep]
      exact ih (by omega) (by omega)

end

theorem fxJoinName_eq (hp : p < pathMax) : fxJoinName out p name app =
    (decide (p + name.length < pathMax),
      app.setPath out (store (app.entries out).path p
        (if p + name.length < pathMax then name ++ [0] else name.take (pathMax - 1 - p)))) := by
  induction name generalizing p app with
  | nil =>
    rw [fxJoinName, setChar_eq]
    have hfits : p + ([] : List UInt8).length < pathMax := hp
    rw [if_pos hfits, decide_eq_true hfits, nil_append, ← store_update, store_nil]
  | cons c name ih =>
    rw [fxJoinName]
    by_cases hfull : p + 1 ≥ pathMax
    · have hlong : ¬ p + (c :: name).length < pathMax := by rw [length_cons]; omega
      have hnone : pathMax - 1 - p = 0 := by omega
      rw [if_pos hfull, if_neg hlong, decide_eq_false hlong, hnone, take_zero, store_nil,
        setPath_self]
    · have hsum : p + (c :: name).length = p + 1 + name.length := by rw [length_cons]; omega
      have hroom : pathMax - 1 - p = pathMax - 1 - (p + 1) + 1 := by omega
      rw [if_neg hfull, ih (by omega), setChar_eq, path_setPath, setPath_setPath, hsum, hroom,
        take_succ_cons, store_update]
      by_cases hfits : p + 1 + name.length < pathMax
      · rw [if_pos hfits, if_pos hfits, cons_append]
      · rw [if_neg hfits, if_neg hfits]

theorem fxJoinName_behind (hxs : xs.length < pathMax) :
    fxJoinName out xs.length name (app.setPath out (store b 0 xs)) =
      (decide ((xs ++ name).length < pathMax), app.setPath out (store b 0
        (if (xs ++ name).length < pathMax then xs ++ name ++ [0]
          else (xs ++ name).take (pathMax - 1)))) := by
  rw [fxJoinName_eq hxs, path_setPath, setPath_setPath, store_store, length_append]
  by_cases hfits : xs.length + name.length < pathMax
  · rw [if_pos hfits, if_pos hfits, append_assoc]
  · have htake : xs.take (pathMax - 1) = xs := take_of_length_le (by omega)
    rw [if_neg hfits, if_neg hfits, take_append, htake]

theorem fxJoinPath_eq (h : Points app dir folder) (hne : folder ≠ []) :
    fxJoinPath dir name out app =
      (decide ((childPath folder name).length < pathMax),
        app.setPath out (store (app.entries out).path 0
          (if (childPath folder name).length < pathMax then childPath folder name ++ [0]
            else (childPath folder name).take (pathMax - 1)))) := by
  have hshort := h.short
  have hpos := length_pos_of_ne_nil hne
  have hroot : app.charAt dir 0 = slash ∧ app.charAt dir 1 = 0 ↔ folder = [slash] := by
    rw [h.charAt (Nat.zero_le _), h.charAt hpos]
    cases folder with
    | nil => exact absurd rfl hne
    | cons a rest =>
      cases rest with
      | nil => simp
      | cons c rest =>
        have hc : c ≠ 0 := fun h0 => h.no_nul (h0 ▸ by simp)
        simp [hc]
  rw [fxJoinPath]
  by_cases hslash : folder = [slash]
  · have hchild : childPath folder name = [slash] ++ name := by
      rw [childPath, hslash, if_pos (show [slash].getLast? = some slash from rfl)]
    have hone : update (app.entries out).path 0 slash =
        store (app.entries out).path 0 [slash] := by
      rw [← store_update, store_nil]
    rw [if_pos (hroot.2 hslash), setChar_eq, hone, hchild]
    exact fxJoinName_behind (show [slash].length < pathMax by decide)
  have hcopy : fxJoinDir dir out pathMax 0
      (app.setPath out (store (app.entries out).path 0 (folder.take 0))) =
        (some folder.length, app.setPath out (store (app.entries out).path 0 folder)) :=
    fxJoinDir_eq h (Nat.zero_le _) hshort
  rw [take_zero, store_nil, setPath_self] at hcopy
  have hlast : (store (app.entries out).path 0 folder) (folder.length - 1) = slash ↔
      folder.getLast? = some slash := by
    rw [store_of_mem (Nat.zero_le _) (by omega), List.getLast?_eq_getElem?,
      List.getElem?_eq_getElem (by omega), Option.some.injEq]
    rfl
  rw [if_neg fun hs => hslash (hroot.1 hs), hcopy]
  dsimp only
  rw [path_setPath, childPath]
  by_cases hends : folder.getLast? = some slash
  · rw [if_neg fun hs => hs.2 (hlast.2 hends), if_pos hends]
    exact fxJoinName_behind hshort
  rw [if_pos ⟨hpos, fun he => hends (hlast.1 he)⟩, if_neg hends]
  by_cases hfull : folder.length + 1 ≥ pathMax
  · -- there is no room for the slash
    have hlong : ¬ (folder ++ slash :: name).length < pathMax := by
      rw [length_append, length_cons]
      omega
    have hlen : folder.length = pathMax - 1 := by omega
    rw [if_pos hfull, if_neg hlong, decide_eq_false hlong, take_left' hlen]
  · have hlen : (folder ++ [slash]).length = folder.length + 1 := by simp
    have hassoc : folder ++ slash :: name = folder ++ [slash] ++ name := by simp
    rw [if_neg hfull, setChar_eq, path_setPath, setPath_setPath, update_store, hassoc, ← hlen]
    exact fxJoinName_behind (by omega)

theorem fxJoinPath_spec (h : Points app dir folder) (hne : folder ≠ [])
    (hname : (0 : UInt8) ∉ name) (hend : (app.entries out).path 191 = 0) :
    ∃ b, fxJoinPath dir name out app =
        (decide ((childPath folder name).length < pathMax), app.setPath out b) ∧
      b 191 = 0 ∧ cstr (slice b 0 pathMax) = (childPath folder name).take (pathMax - 1) := by
  have hnul : (0 : UInt8) ∉ childPath folder name := by
    have hfolder := h.no_nul
    rw [childPath]
    split
    · rw [mem_append, not_or]
      exact ⟨hfolder, hname⟩
    · rw [mem_append, mem_cons, not_or, not_or]
      exact ⟨hfolder, by decide, hname⟩
  refine ⟨_, fxJoinPath_eq h hne, ?_⟩
  generalize childPath folder name = full at hnul ⊢
  by_cases hfits : full.length < pathMax
  · rw [if_pos hfits, cstr_store_zero hnul hfits, take_of_length_le (by omega)]
    refine ⟨?_, rfl⟩
    by_cases hexact : full.length = 191
    · rw [store_of_mem (Nat.zero_le _) (by simp [hexact])]
      simp [hexact]
    · rw [store_of_ge, hend]
      rw [pathMax] at hfits
      rw [length_append, length_singleton]
      omega
  · have hlen : (full.take (pathMax - 1)).length = 191 := by
      rw [length_take, pathMax] at *
      omega
    rw [if_neg hfits, cstr_store_full (fun h0 => hnul (mem_of_mem_take h0))
      (by rw [hlen]; rfl) hend]
    refine ⟨?_, rfl⟩
    rw [store_of_ge (by rw [hlen]), hend]

end Cleonos.Explorer
