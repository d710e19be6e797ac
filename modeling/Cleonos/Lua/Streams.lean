import Cleonos.Lua.Files

/-!
# Streams as byte files

A stream has the bytes that were written to it, and the bytes that are still to be read.
-/

namespace Cleonos.Lua

open List Option
open Function (update update_apply update_eq_self update_idem update_of_ne update_self)
open Buffer (slice)
open Stdio (Memory emit formatLoop initFd intMax noMemory printed stored vdprintf writeAll writeAllFd)

/-! ## Streams -/

/-- The bytes written to a stream since it was opened, and those that can still be read. -/
structure Stream where
  sent : List UInt8
  rest : List UInt8

section

variable {M : Type} (mem : Memory M)

/-- The stream that a call writes to, and the bytes. -/
def written : Call M → Option (Name × List UInt8)
  | .fwrite data _ _ n => some (n, data)
  | .fputs text n => some (n, text)
  | .fputc ch n => some (n, [ch])
  | .fprintf n fmt args memory _ => some (n, printed mem fmt args memory)
  | _ => none

/-- The stream that a call reads from. -/
def source : Call M → Option Name
  | .fread _ _ n => some n
  | .fgets _ n => some n
  | _ => none

/-- A call that writes reports that everything is written. -/
def Succeeds : Call M → ℤ → Prop
  | .fwrite _ _ nmemb _, v => v = nmemb
  | _, v => 0 ≤ v

/-- What a call does to the streams that are open. -/
inductive Does : (Name → Option Stream) → Call M → Answer → (Name → Option Stream) → Prop
  | fopen {σ : Name → Option Stream} {path mode : List UInt8} {o : Opened} {n : Name}
      (h : σ n = none) : Does σ (.fopen path mode (some o)) (.stream (some n))
        (update σ n (some ⟨[], o.fd.rest⟩))
  | fopenFails {σ : Name → Option Stream} {path mode : List UInt8} {o : Option Opened} :
      Does σ (.fopen path mode o) (.stream none) σ
  | freopen {σ : Name → Option Stream} {path mode : List UInt8} {o : Opened} {n : Name}
      {closes : Bool} (h : σ n ≠ none) :
      Does σ (.freopen path mode n (some o) closes) (.stream (some n))
        (update σ n (some ⟨[], o.fd.rest⟩))
  | freopenFails {σ : Name → Option Stream} {path mode : List UInt8} {o : Option Opened} {n : Name}
      {closes : Bool} : Does σ (.freopen path mode n o closes) (.stream none) σ
  | fclose {σ : Name → Option Stream} {n : Name} {closes : Bool} :
      Does σ (.fclose n closes) (.value 0) (update σ n none)
  | fcloseKept {σ : Name → Option Stream} {n : Name} {closes : Bool} {v : ℤ} :
      Does σ (.fclose n closes) (.value v) σ
  | write {σ : Name → Option Stream} {c : Call M} {n : Name} {text taken : List UInt8} {s : Stream}
      {v : ℤ} (hc : written mem c = some (n, text)) (hn : σ n = some s) (htaken : taken <+: text)
      (hall : Succeeds c v → taken = text) :
      Does σ c (.value v) (update σ n (some { s with sent := s.sent ++ taken }))
  | writeClosed {σ : Name → Option Stream} {c : Call M} {n : Name} {text : List UInt8} {v : ℤ}
      (hc : written mem c = some (n, text)) (hn : σ n = none) : Does σ c (.value v) σ
  | read {σ : Name → Option Stream} {c : Call M} {n : Name} {bytes rest : List UInt8} {s : Stream}
      (hc : source c = some n) (hn : σ n = some s) (hrest : s.rest = bytes ++ rest) :
      Does σ c (.bytes bytes) (update σ n (some { s with rest := rest }))
  | readClosed {σ : Name → Option Stream} {c : Call M} {n : Name} (hc : source c = some n)
      (hn : σ n = none) : Does σ c (.bytes []) σ

/-- What a sequence of calls does. -/
inductive Runs : (Name → Option Stream) → List (Call M) → List Answer →
    (Name → Option Stream) → Prop
  | nil {σ : Name → Option Stream} : Runs σ [] [] σ
  | call {σ σ' σ'' : Name → Option Stream} {c : Call M} {a : Answer} {calls : List (Call M)}
      {answers : List Answer} (h : Does mem σ c a σ') (hrest : Runs σ' calls answers σ'') :
      Runs σ (c :: calls) (a :: answers) σ''

end

/-- The streams that are open. -/
def view (w : World) (n : Name) : Option Stream :=
  if (w.files n).magic then
    some ⟨(w.fds (w.files n).fd).out.sent, (w.fds (w.files n).fd).rest⟩
  else none

/-- The descriptors of open streams are open, and no two streams have one of them. -/
structure Safe (w : World) : Prop where
  isOpen : ∀ n, (w.files n).magic = true → w.isOpen (w.files n).fd = true
  distinct : ∀ n m, (w.files n).magic = true → (w.files m).magic = true →
    (w.files n).fd = (w.files m).fd → n = m
  ungot : ∀ n, (w.files n).ungot = none

/-- A descriptor that an opening may return: it was not open, and has taken nothing. -/
def FreshFd (w : World) (o : Opened) : Prop := w.isOpen o.number = false ∧ o.fd.out.sent = []

/-- A call on which the world and the streams agree: an opening returns a fresh descriptor, a block
of memory has the size that it is said to have, a formatted text is written to a standard stream
that is open and still the standard one, or is shorter than the buffer. -/
def Good {M : Type} (mem : Memory M) (w : World) : Call M → Prop
  | .fopen _ _ o => ∀ o', o = some o' → FreshFd w o'
  | .freopen _ _ _ o _ => ∀ o', o = some o' → FreshFd w o'
  | .fwrite data size nmemb _ => data.length = size * nmemb ∧ data.length < 2 ^ 64
  | .fputs text _ => text.length < 2 ^ 64
  | .fprintf n fmt args memory _ =>
    if n = .stdout then (w.files n).magic = true ∧ (w.files n).fd = 1
    else if n = .stderr then (w.files n).magic = true ∧ (w.files n).fd = 2
    else (printed mem fmt args memory).length < bufSize
  | _ => True

/-- A run whose calls are good in the world in front of them. -/
def GoodRun {M : Type} (mem : Memory M) : World → List (Call M) → Prop
  | _, [] => True
  | w, c :: calls => Good mem w c ∧ GoodRun mem (step mem w c).2 calls

variable {w : World} {n m : Name} {f : ℤ} {fd : Fd} {file : LuaFile}

theorem view_of_magic (h : (w.files n).magic = true) :
    view w n = some ⟨(w.fds (w.files n).fd).out.sent, (w.fds (w.files n).fd).rest⟩ := if_pos h

theorem view_of_not_magic (h : (w.files n).magic = false) : view w n = none :=
  if_neg (by simp [h])

variable (fd file) in
theorem view_setFd (hw : Safe w) (hn : (w.files n).magic = true) (hmagic : file.magic = true)
    (hfd : file.fd = (w.files n).fd) : view ((w.setFd (w.files n).fd fd).setFile n file) =
      update (view w) n (some ⟨fd.out.sent, fd.rest⟩) := by
  funext m
  by_cases hm : m = n
  · subst hm
    rw [update_self, view, World.setFile, World.setFd]
    simp only [update_self, hmagic, hfd, if_true]
  · rw [update_of_ne hm, view, view, World.setFile, World.setFd]
    simp only [update_of_ne hm]
    by_cases hlive : (w.files m).magic = true
    · have hne : (w.files m).fd ≠ (w.files n).fd := fun heq => hm (hw.distinct m n hlive hn heq)
      rw [if_pos hlive, if_pos hlive, update_of_ne hne]
    · rw [if_neg hlive, if_neg hlive]

theorem Safe.setFd (hw : Safe w) (hn : (w.files n).magic = true) (hfd : file.fd = (w.files n).fd)
    (hungot : file.ungot = none) : Safe ((w.setFd f fd).setFile n file) := by
  have hfiles : ∀ m, ((w.setFd f fd).setFile n file).files m =
      if m = n then file else w.files m := fun m => by
    rw [World.setFile, World.setFd]
    exact update_apply _ _ _ _
  have hfdOf : ∀ m, (((w.setFd f fd).setFile n file).files m).fd = (w.files m).fd := fun m => by
    rw [hfiles]
    split
    case isTrue hm => rw [hm, hfd]
    case isFalse => rfl
  have hmagicOf : ∀ m, (((w.setFd f fd).setFile n file).files m).magic = true →
      (w.files m).magic = true := fun m h => by
    by_cases hm : m = n
    · rw [hm]
      exact hn
    · rw [hfiles, if_neg hm] at h
      exact h
  refine ⟨fun m hm => ?_, fun m m' hm hm' heq => ?_, fun m => ?_⟩
  · rw [hfdOf]
    exact hw.isOpen m (hmagicOf m hm)
  · rw [hfdOf, hfdOf] at heq
    exact hw.distinct m m' (hmagicOf m hm) (hmagicOf m' hm') heq
  · rw [hfiles]
    split
    · exact hungot
    · exact hw.ungot m

theorem freadLoop_spec (need : ℕ) (fd : Fd) :
    fd.rest = (freadLoop need fd).1 ++ (freadLoop need fd).2.2.2.rest ∧
      (freadLoop need fd).2.2.2.out = fd.out ∧ (freadLoop need fd).1.length ≤ need := by
  induction need using Nat.strong_induction_on generalizing fd with
  | _ need ih =>
    cases need with
    | zero =>
      rw [freadLoop]
      exact ⟨rfl, rfl, Nat.le_refl 0⟩
    | succ need =>
      rw [freadLoop]
      have hread : (∃ fd', fdRead fd (need + 1) = (none, fd') ∧ fd'.rest = fd.rest ∧
          fd'.out = fd.out) ∨ ∃ bytes fd', fdRead fd (need + 1) = (some bytes, fd') ∧
            fd.rest = bytes ++ fd'.rest ∧ fd'.out = fd.out ∧ bytes.length ≤ need + 1 := by
        rw [fdRead]
        cases fd.grants fd.reads with
        | none => exact .inl ⟨_, rfl, rfl, rfl⟩
        | some grant =>
          refine .inr ⟨_, _, rfl, (take_append_drop _ _).symm, rfl, ?_⟩
          exact Nat.le_trans (length_take_le _ _) (Nat.min_le_right _ _)
      rcases hread with ⟨fd', hread, hrest, hout⟩ | ⟨bytes, fd', hread, hrest, hout, hlen⟩
      · rw [hread]
        exact ⟨hrest.symm, hout, Nat.zero_le _⟩
      · rw [hread]
        cases bytes with
        | nil => exact ⟨hrest, hout, Nat.zero_le _⟩
        | cons b bytes =>
          obtain ⟨hrest', hout', hlen'⟩ := ih (need - bytes.length) (by omega) fd'
          rw [length_cons] at hlen
          refine ⟨?_, hout'.trans hout, ?_⟩
          · rw [hrest, append_assoc, ← hrest']
          · rw [length_append, length_cons]
            omega

theorem luaFread_spec (hw : Safe w) (hn : (w.files n).magic = true) (size nmemb : ℕ) :
    Safe (luaFread w size nmemb n).2 ∧ ∃ s rest, view w n = some s ∧
      s.rest = (luaFread w size nmemb n).1 ++ rest ∧
      view (luaFread w size nmemb n).2 =
        update (view w) n (some { s with rest := rest }) := by
  have hview := view_of_magic hn
  rw [luaFread, if_neg (by simp [hn])]
  by_cases hzero : size = 0 ∨ nmemb = 0
  · rw [if_pos hzero]
    refine ⟨hw, _, _, hview, rfl, ?_⟩
    rw [← hview, update_eq_self]
  · rw [if_neg hzero]
    have hnone : (if size * nmemb % 2 ^ 64 > 0 then (w.files n).ungot else none) = none := by
      rw [hw.ungot n, ite_self]
    dsimp only
    rw [hnone]
    obtain ⟨hrest, hout, -⟩ := freadLoop_spec (size * nmemb % 2 ^ 64) (w.fds (w.files n).fd)
    refine ⟨hw.setFd hn rfl (hw.ungot n), _, _, hview, hrest, ?_⟩
    rw [← hout]
    exact view_setFd _ _ hw hn hn rfl

theorem luaFread_closed (hn : (w.files n).magic = false) (size nmemb : ℕ) :
    luaFread w size nmemb n = ([], w) := by
  rw [luaFread, if_pos hn]

theorem fgetsLoop_spec (room : ℕ) (hw : Safe w) {s : Stream} (hs : view w n = some s) :
    Safe (fgetsLoop room w n).2 ∧ ∃ rest, s.rest = (fgetsLoop room w n).1 ++ rest ∧
      view (fgetsLoop room w n).2 =
        update (view w) n (some { s with rest := rest }) := by
  induction room generalizing w s with
  | zero =>
    refine ⟨hw, s.rest, rfl, ?_⟩
    rw [fgetsLoop, ← hs, update_eq_self]
  | succ room ih =>
    have hn : (w.files n).magic = true := by
      by_contra hnot
      rw [view_of_not_magic (by simpa using hnot)] at hs
      cases hs
    obtain ⟨hsafe, s', rest, hs', hrest, hview⟩ := luaFread_spec hw hn 1 1
    obtain rfl : s = s' := Option.some.inj (hs.symm.trans hs')
    have hone : (luaFread w 1 1 n).1.length ≤ 1 := by
      have hnone : (if 1 * 1 % 2 ^ 64 > 0 then (w.files n).ungot else none) = none := by
        rw [hw.ungot n, ite_self]
      rw [luaFread, if_neg (by simp [hn]), if_neg (by simp)]
      dsimp only
      rw [hnone]
      exact (freadLoop_spec 1 (w.fds (w.files n).fd)).2.2
    rw [fgetsLoop, luaFgetc]
    rcases hbytes : (luaFread w 1 1 n).1 with _ | ⟨ch, _ | ⟨_, _⟩⟩
    · rw [hbytes] at hrest
      exact ⟨hsafe, rest, hrest, hview⟩
    · rw [hbytes] at hrest
      dsimp only [List.head?_cons]
      split
      · exact ⟨hsafe, rest, hrest, hview⟩
      · have hview' : view (luaFread w 1 1 n).2 n = some { s with rest := rest } := by
          rw [hview, update_self]
        obtain ⟨hsafe', rest', hrest', hview''⟩ := ih hsafe hview'
        refine ⟨hsafe', rest', ?_, ?_⟩
        · rw [hrest]
          exact congrArg (ch :: ·) hrest'
        · rw [hview'', hview, update_idem]
    · rw [hbytes] at hone
      simp at hone

theorem luaFwrite_spec (hw : Safe w) (hn : (w.files n).magic = true) (data : List UInt8)
    (size nmemb : ℕ) (hlen : data.length = size * nmemb) (hbound : data.length < 2 ^ 64) :
    Safe (luaFwrite w data size nmemb n).2 ∧ ∃ s taken, view w n = some s ∧ taken <+: data ∧
      ((luaFwrite w data size nmemb n).1 = nmemb → taken = data) ∧
      view (luaFwrite w data size nmemb n).2 =
        update (view w) n (some { s with sent := s.sent ++ taken }) := by
  have hview := view_of_magic hn
  rw [luaFwrite, if_neg (by simp [hn])]
  by_cases hzero : size = 0 ∨ nmemb = 0
  · rw [if_pos hzero]
    have hnil : data = [] := by
      apply length_eq_zero_iff.1
      rw [hlen]
      rcases hzero with h | h <;> simp [h]
    refine ⟨hw, _, [], hview, nil_prefix, fun _ => hnil.symm, ?_⟩
    rw [append_nil, ← hview, update_eq_self]
  · rw [if_neg hzero]
    have hmod : size * nmemb % 2 ^ 64 = data.length := by
      rw [← hlen]
      exact Nat.mod_eq_of_lt hbound
    dsimp only
    rw [hmod, take_length]
    obtain ⟨taken, rest, hsplit, hsent, -, -, -, -⟩ :=
      Stdio.writeAll_sends (w.fds (w.files n).fd).out data
    refine ⟨hw.setFd hn rfl (hw.ungot n), _, taken, hview, ⟨rest, hsplit.symm⟩, fun hdone => ?_, ?_⟩
    · rw [hsent, length_append, Nat.add_sub_cancel_left] at hdone
      have hpos : 0 < size := by omega
      have hle : nmemb * size ≤ taken.length := by
        rw [← hdone]
        exact Nat.div_mul_le_self _ _
      have hprefix : taken <+: data := ⟨rest, hsplit.symm⟩
      refine hprefix.eq_of_length (Nat.le_antisymm hprefix.length_le ?_)
      rw [hlen, Nat.mul_comm]
      exact hle
    · rw [view_setFd { w.fds (w.files n).fd with
          out := (writeAll (w.fds (w.files n).fd).out data).1 }
        { w.files n with
          err := (w.files n).err || !(writeAll (w.fds (w.files n).fd).out data).2 }
        hw hn hn rfl, hsent]

theorem luaFwrite_closed (hn : (w.files n).magic = false) (data : List UInt8) (size nmemb : ℕ) :
    luaFwrite w data size nmemb n = (0, w) := by
  rw [luaFwrite, if_pos hn]

section

variable {M : Type} {mem : Memory M} {fmt : List UInt8} {args : List UInt64} {memory : M}

variable (mem fmt args memory) in
theorem dprintfTo_spec (hw : Safe w) (hn : (w.files n).magic = true) (hf : (w.files n).fd = f) :
    Safe (dprintfTo mem w f fmt args memory).2 ∧ ∃ s taken, view w n = some s ∧
      taken <+: printed mem fmt args memory ∧
      ((dprintfTo mem w f fmt args memory).1 ≠ -1 → taken = printed mem fmt args memory) ∧
      view (dprintfTo mem w f fmt args memory).2 =
        update (view w) n (some { s with sent := s.sent ++ taken }) := by
  subst hf
  obtain ⟨taken, hsent, htaken, hall⟩ :=
    @Stdio.vdprintf_sends M mem fmt args { (w.fds (w.files n).fd).out with fd := (w.files n).fd } memory
  have hself : ∀ fd, w.setFd (w.files n).fd fd = (w.setFd (w.files n).fd fd).setFile n (w.files n) :=
    fun fd => by rw [World.setFile, World.setFd, update_eq_self]
  rw [dprintfTo]
  rw [hself]
  refine ⟨hw.setFd hn rfl (hw.ungot n), _, taken, view_of_magic hn, htaken,
    fun h => hall (.inl h), ?_⟩
  rw [view_setFd _ _ hw hn hn rfl]
  rw [hsent]

theorem luaVfprintf_spec (hstdout : n ≠ .stdout) (hstderr : n ≠ .stderr)
    (hlen : (printed mem fmt args memory).length < bufSize) (stack : ℕ → UInt8) :
    luaVfprintf mem w n fmt args memory stack =
      (if (luaFwrite w (printed mem fmt args memory) 1 (printed mem fmt args memory).length n).1 ≠
          (printed mem fmt args memory).length then (-1 : ℤ)
        else ((printed mem fmt args memory).length : ℤ),
        (luaFwrite w (printed mem fmt args memory) 1 (printed mem fmt args memory).length n).2) := by
  rw [bufSize] at hlen
  obtain ⟨hrc, hbuffer⟩ := @Stdio.bounded_of_lt M mem fmt args memory
    (by omega) (some stack) bufSize (by decide)
  have hmin : min (printed mem fmt args memory).length intMax =
      (printed mem fmt args memory).length := Nat.min_eq_left (by rw [intMax]; omega)
  rw [hmin] at hrc
  have hslice : slice ((some stack).map (stored bufSize (printed mem fmt args memory)) |>.getD
      stack) 0 (printed mem fmt args memory).length = printed mem fmt args memory := by
    have htake : (printed mem fmt args memory).take (bufSize - 1) = printed mem fmt args memory :=
      take_of_length_le (by rw [bufSize]; omega)
    rw [map_some, getD_some, stored, if_neg (by decide), htake]
    have hself := Buffer.slice_store_self stack (printed mem fmt args memory ++ [0])
    rw [Buffer.take_slice hself (by simp), take_left]
  rw [luaVfprintf, if_neg hstdout, if_neg hstderr]
  dsimp only
  rw [hrc, if_neg (by omega), hbuffer, Int.toNat_natCast, hslice]

end

theorem install {w' : World} {o : Opened} (hw : Safe w) (hfresh : FreshFd w o)
    (hmagic : (w'.files n).magic = true) (hnumber : (w'.files n).fd = o.number)
    (hmagicOf : ∀ m ≠ n, (w'.files m).magic = (w.files m).magic)
    (hfile : ∀ m ≠ n, (w.files m).magic = true → w'.files m = w.files m)
    (hungot : ∀ m, (w'.files m).ungot = none) (hfds : w'.fds = update w.fds o.number o.fd)
    (hopen : w'.isOpen o.number = true)
    (hkeep : ∀ m ≠ n, (w.files m).magic = true → w'.isOpen (w.files m).fd = true) :
    Safe w' ∧ view w' = update (view w) n (some ⟨[], o.fd.rest⟩) := by
  have hne : ∀ m, (w.files m).magic = true → (w.files m).fd ≠ o.number := by
    intro m hm heq
    have := hw.isOpen m hm
    rw [heq, hfresh.1] at this
    cases this
  have hlive : ∀ m ≠ n, (w'.files m).magic = true → (w.files m).magic = true :=
    fun m hm h => (hmagicOf m hm).symm.trans h
  refine ⟨⟨fun m hm => ?_, fun m m' hm hm' heq => ?_, hungot⟩, ?_⟩
  · by_cases hmn : m = n
    · rw [hmn, hnumber]
      exact hopen
    · have h := hlive m hmn hm
      rw [hfile m hmn h]
      exact hkeep m hmn h
  · by_cases hmn : m = n
    · by_cases hmn' : m' = n
      · exact hmn.trans hmn'.symm
      · have h := hlive m' hmn' hm'
        rw [hmn, hnumber, hfile m' hmn' h] at heq
        exact absurd heq.symm (hne m' h)
    · have h := hlive m hmn hm
      rw [hfile m hmn h] at heq
      by_cases hmn' : m' = n
      · rw [hmn', hnumber] at heq
        exact absurd heq (hne m h)
      · have h' := hlive m' hmn' hm'
        rw [hfile m' hmn' h'] at heq
        exact hw.distinct m m' h h' heq
  · funext m
    by_cases hmn : m = n
    · subst hmn
      rw [update_self, view_of_magic hmagic, hnumber, hfds, update_self, hfresh.2]
    · rw [update_of_ne hmn]
      by_cases h : (w.files m).magic = true
      · rw [view_of_magic h, view_of_magic ((hmagicOf m hmn).trans h), hfile m hmn h, hfds,
          update_of_ne (hne m h)]
      · have hnot : (w.files m).magic = false := by simpa using h
        rw [view_of_not_magic hnot, view_of_not_magic ((hmagicOf m hmn).trans hnot)]

theorem luaFopen_cases (w : World) (path mode : List UInt8) (opened : Option Opened) :
    luaFopen w path mode opened = (none, w) ∨ ∃ o n, opened = some o ∧
      (w.files n).magic = false ∧ luaFopen w path mode opened =
        (some n, { w.setFile n ⟨true, o.number, false, false, false, none⟩ with
          fds := update w.fds o.number o.fd
          isOpen := update w.isOpen o.number true }) := by
  unfold luaFopen
  split
  · exact .inl rfl
  cases opened with
  | none => exact .inl rfl
  | some o =>
    cases halloc : allocFile w with
    | none => exact .inl rfl
    | some n =>
      refine .inr ⟨o, n, rfl, ?_, rfl⟩
      obtain ⟨i, hi, rfl⟩ := map_eq_some_iff.1 halloc
      simpa using List.find?_some hi

theorem luaFopen_spec (hw : Safe w) (path mode : List UInt8) {opened : Option Opened}
    (hfresh : ∀ o, opened = some o → FreshFd w o) :
    luaFopen w path mode opened = (none, w) ∨ ∃ o n w', opened = some o ∧
      luaFopen w path mode opened = (some n, w') ∧ view w n = none ∧ Safe w' ∧
      view w' = update (view w) n (some ⟨[], o.fd.rest⟩) := by
  rcases luaFopen_cases w path mode opened with h | ⟨o, n, rfl, hn, h⟩
  · exact .inl h
  · refine .inr ⟨o, n, _, rfl, h, view_of_not_magic hn, ?_⟩
    have hfiles : ∀ m, update w.files n ⟨true, o.number, false, false, false, none⟩ m =
        if m = n then ⟨true, o.number, false, false, false, none⟩ else w.files m :=
      fun m => update_apply _ _ _ _
    refine install hw (hfresh o rfl) ?_ ?_ (fun m hm => ?_) (fun m hm _ => ?_) (fun m => ?_) rfl ?_
      (fun m hm h => ?_)
    · simp [World.setFile]
    · simp [World.setFile]
    · simp [World.setFile, update_of_ne hm]
    · simp [World.setFile, update_of_ne hm]
    · dsimp only [World.setFile]
      rw [hfiles]
      split
      · rfl
      · exact hw.ungot m
    · exact update_self _ _ _
    · dsimp only
      rw [update_apply]
      split
      · rfl
      · exact hw.isOpen m h

theorem luaFreopen_spec (hw : Safe w) (path mode : List UInt8) (n : Name) {opened : Option Opened}
    (closes : Bool) (hfresh : ∀ o, opened = some o → FreshFd w o) :
    luaFreopen w path mode n opened closes = (none, w) ∨ ∃ o w', opened = some o ∧
      luaFreopen w path mode n opened closes = (some n, w') ∧ view w n ≠ none ∧ Safe w' ∧
      view w' = update (view w) n (some ⟨[], o.fd.rest⟩) := by
  rw [luaFreopen]
  cases hn : (w.files n).magic
  · exact .inl rfl
  rw [if_neg (by simp)]
  rcases luaFopen_cases w path mode opened with h | ⟨o, next, rfl, hnext, h⟩
  · rw [h]
    exact .inl rfl
  · rw [h]
    right
    have hne : n ≠ next := fun heq => by
      rw [heq, hnext] at hn
      cases hn
    refine ⟨o, _, rfl, rfl, by rw [view_of_magic hn]; simp, ?_⟩
    -- the world with the new stream, and the old descriptor closed or not
    generalize hw₁ : ({ w.setFile next ⟨true, o.number, false, false, false, none⟩ with
      fds := update w.fds o.number o.fd
      isOpen := update w.isOpen o.number true } : World) = w₁
    have hfiles₁ : w₁.files = update w.files next
        ⟨true, o.number, false, false, false, none⟩ := by rw [← hw₁, World.setFile]
    have hfile₁ : w₁.files n = w.files n := by rw [hfiles₁, update_of_ne hne]
    rw [hfile₁]
    generalize hw₂ : (if (w.files n).stdio = false ∧ (w.files n).fd ≥ 0 ∧ closes = true then
      { w₁ with isOpen := update w₁.isOpen (w.files n).fd false } else w₁) = w₂
    have hfiles₂ : w₂.files = w₁.files := by rw [← hw₂]; split <;> rfl
    have hfds₂ : w₂.fds = w₁.fds := by rw [← hw₂]; split <;> rfl
    have hopen₂ : ∀ f, f ≠ (w.files n).fd → w₂.isOpen f = w₁.isOpen f := by
      intro f hf
      rw [← hw₂]
      split
      · exact update_of_ne hf _ _
      · rfl
    have hopen₁ : ∀ f, w₁.isOpen f = if f = o.number then true else w.isOpen f := fun f => by
      rw [← hw₁]
      exact update_apply _ _ _ _
    have hnumber : o.number ≠ (w.files n).fd := fun heq => by
      have := hw.isOpen n hn
      rw [← heq, (hfresh o rfl).1] at this
      cases this
    have hfiles : ∀ m, ((w₂.setFile n (w₂.files next)).setFile next LuaFile.zero).files m =
        if m = next then LuaFile.zero else if m = n then ⟨true, o.number, false, false, false, none⟩
          else w.files m := by
      intro m
      dsimp only [World.setFile]
      rw [update_apply, update_apply, hfiles₂, hfiles₁, update_self]
      split
      · rfl
      split
      · rfl
      · exact update_of_ne ‹_› _ _
    refine install hw (hfresh o rfl) ?_ ?_ (fun m hm => ?_) (fun m hm h => ?_) (fun m => ?_) ?_ ?_
      (fun m hm h => ?_)
    · rw [hfiles, if_neg hne, if_pos rfl]
    · rw [hfiles, if_neg hne, if_pos rfl]
    · rw [hfiles, if_neg hm]
      split
      case isTrue heq => rw [heq, hnext]; rfl
      case isFalse => rfl
    · rw [hfiles, if_neg hm, if_neg]
      intro heq
      rw [heq, hnext] at h
      cases h
    · rw [hfiles]
      split
      · rfl
      split
      · rfl
      · exact hw.ungot m
    · dsimp only [World.setFile]
      rw [hfds₂, ← hw₁]
    · dsimp only [World.setFile]
      rw [hopen₂ _ hnumber, hopen₁, if_pos rfl]
    · dsimp only [World.setFile]
      have hfd : (w.files m).fd ≠ (w.files n).fd := fun heq => hm (hw.distinct m n h hn heq)
      rw [hopen₂ _ hfd, hopen₁]
      split
      · rfl
      · exact hw.isOpen m h

theorem luaFclose_spec (hw : Safe w) (n : Name) (closes : Bool) :
    Safe (luaFclose w n closes).2 ∧
      (view (luaFclose w n closes).2 = view w ∨ (luaFclose w n closes).1 = true ∧
        view (luaFclose w n closes).2 = update (view w) n none) := by
  rw [luaFclose]
  cases hn : (w.files n).magic
  · exact ⟨hw, .inl rfl⟩
  rw [if_neg (by simp)]
  have hself : ∀ file, w.setFile n file =
      (w.setFd (w.files n).fd (w.fds (w.files n).fd)).setFile n file := fun file => by
    rw [World.setFile, World.setFile, World.setFd, update_eq_self]
  split
  · split
    · rw [hself]
      refine ⟨hw.setFd hn rfl (hw.ungot n), .inl ?_⟩
      refine (view_setFd _ { w.files n with magic := true, err := true } hw hn rfl rfl).trans ?_
      rw [← view_of_magic hn, update_eq_self]
    · generalize hw₁ : (if (w.files n).fd ≥ 0 then
        { w with isOpen := update w.isOpen (w.files n).fd false } else w) = w₁
      have hfiles₁ : w₁.files = w.files := by rw [← hw₁]; split <;> rfl
      have hfds₁ : w₁.fds = w.fds := by rw [← hw₁]; split <;> rfl
      have hopen₁ : ∀ f, f ≠ (w.files n).fd → w₁.isOpen f = w.isOpen f := by
        intro f hf
        rw [← hw₁]
        split
        · exact update_of_ne hf _ _
        · rfl
      have hfiles : ∀ m, (w₁.setFile n LuaFile.zero).files m =
          if m = n then LuaFile.zero else w.files m := fun m => by
        rw [World.setFile, ← hfiles₁]
        exact update_apply _ _ _ _
      have hlive : ∀ m, ((w₁.setFile n LuaFile.zero).files m).magic = true →
          m ≠ n ∧ (w.files m).magic = true ∧
            ((w₁.setFile n LuaFile.zero).files m).fd = (w.files m).fd := by
        intro m hm
        rw [hfiles] at hm ⊢
        split at hm
        · cases hm
        case isFalse hmn => exact ⟨hmn, hm, by rw [if_neg hmn]⟩
      refine ⟨⟨fun m hm => ?_, fun m m' hm hm' heq => ?_, fun m => ?_⟩, .inr ⟨rfl, ?_⟩⟩
      · obtain ⟨hmn, h, hfd⟩ := hlive m hm
        rw [hfd]
        exact (hopen₁ _ fun heq => hmn (hw.distinct m n h hn heq)).trans (hw.isOpen m h)
      · obtain ⟨-, h, hfd⟩ := hlive m hm
        obtain ⟨-, h', hfd'⟩ := hlive m' hm'
        exact hw.distinct m m' h h' (hfd.symm.trans (heq.trans hfd'))
      · rw [hfiles]
        split
        · rfl
        · exact hw.ungot m
      · funext m
        have hfds : (w₁.setFile n LuaFile.zero).fds = w.fds := hfds₁
        rw [view, hfiles, hfds, update_apply]
        split
        · rfl
        · rfl
  · exact ⟨hw, .inl rfl⟩

/-! ## Runs -/

variable {M : Type} {mem : Memory M}

theorem does_of_fwrite {c : Call M} {data : List UInt8} {size nmemb : ℕ} {v : ℤ} (hw : Safe w)
    (hc : written mem c = some (n, data)) (hlen : data.length = size * nmemb)
    (hbound : data.length < 2 ^ 64)
    (hall : Succeeds c v → (luaFwrite w data size nmemb n).1 = nmemb) :
    Safe (luaFwrite w data size nmemb n).2 ∧
      Does mem (view w) c (.value v) (view (luaFwrite w data size nmemb n).2) := by
  cases hn : (w.files n).magic
  · rw [luaFwrite_closed hn]
    exact ⟨hw, .writeClosed hc (view_of_not_magic hn)⟩
  · obtain ⟨hsafe, s, taken, hs, htaken, hsame, hview⟩ :=
      luaFwrite_spec hw hn data size nmemb hlen hbound
    rw [hview]
    exact ⟨hsafe, .write hc hs htaken fun h => hsame (hall h)⟩

theorem of_nonneg_ite {p : Prop} [Decidable p] {v : ℤ} (h : 0 ≤ if p then v else -1) : p := by
  by_contra hp
  rw [if_neg hp] at h
  exact absurd h (by decide)

theorem step_does (hw : Safe w) (c : Call M) (hgood : Good mem w c) :
    Safe (step mem w c).2 ∧ Does mem (view w) c (step mem w c).1 (view (step mem w c).2) := by
  cases c with
  | fopen path mode opened =>
    rw [step]
    rcases luaFopen_spec hw path mode hgood with h | ⟨o, n, w', rfl, h, hn, hsafe, hview⟩
    · rw [h]
      exact ⟨hw, .fopenFails⟩
    · rw [h]
      rw [hview]
      exact ⟨hsafe, .fopen hn⟩
  | freopen path mode n opened closes =>
    rw [step]
    rcases luaFreopen_spec hw path mode n closes hgood with h | ⟨o, w', rfl, h, hn, hsafe, hview⟩
    · rw [h]
      exact ⟨hw, .freopenFails⟩
    · rw [h]
      rw [hview]
      exact ⟨hsafe, .freopen hn⟩
  | fclose n closes =>
    obtain ⟨hsafe, hview | ⟨hok, hview⟩⟩ := luaFclose_spec hw n closes
    · refine ⟨hsafe, ?_⟩
      rw [step]
      rw [hview]
      exact .fcloseKept
    · refine ⟨hsafe, ?_⟩
      rw [step]
      rw [hview, hok]
      exact .fclose
  | fread size nmemb n =>
    rw [step]
    cases hn : (w.files n).magic
    · rw [luaFread_closed hn]
      exact ⟨hw, .readClosed rfl (view_of_not_magic hn)⟩
    · obtain ⟨hsafe, s, rest, hs, hrest, hview⟩ := luaFread_spec hw hn size nmemb
      rw [hview]
      exact ⟨hsafe, .read rfl hs hrest⟩
  | fgets size n =>
    rw [step, luaFgets]
    cases hn : (w.files n).magic
    · have hclosed : ∀ room, fgetsLoop room w n = ([], w) := fun room => by
        cases room with
        | zero => rfl
        | succ room =>
          rw [fgetsLoop, luaFgetc, luaFread_closed hn]
          rfl
      rw [hclosed]
      split <;> exact ⟨hw, .readClosed rfl (view_of_not_magic hn)⟩
    · split
      · have hnothing : Does mem (view w) (.fgets size n) (.bytes [])
            (update (view w) n
              (some ⟨(w.fds (w.files n).fd).out.sent, (w.fds (w.files n).fd).rest⟩)) :=
          .read rfl (view_of_magic hn) rfl
        rw [← view_of_magic hn, update_eq_self] at hnothing
        exact ⟨hw, hnothing⟩
      · obtain ⟨hsafe, rest, hrest, hview⟩ :=
          fgetsLoop_spec (size.toNat - 1) hw (view_of_magic hn)
        have hbytes : (if (fgetsLoop (size.toNat - 1) w n).1 = [] then none
            else some (fgetsLoop (size.toNat - 1) w n).1).getD [] =
              (fgetsLoop (size.toNat - 1) w n).1 := by
          split
          case isTrue h => exact h.symm
          case isFalse => rfl
        rw [hbytes, hview]
        exact ⟨hsafe, .read rfl (view_of_magic hn) hrest⟩
  | fwrite data size nmemb n =>
    rw [step]
    exact does_of_fwrite hw rfl hgood.1 hgood.2 Int.ofNat_inj.1
  | fputs text n =>
    rw [step, luaFputs]
    exact does_of_fwrite hw rfl (Nat.one_mul _).symm hgood of_nonneg_ite
  | fputc ch n =>
    rw [step, luaFputc]
    exact does_of_fwrite hw rfl rfl (by simp) of_nonneg_ite
  | fprintf n fmt args memory stack =>
    have hdirect (f : ℤ) (hf : (w.files n).magic = true ∧ (w.files n).fd = f)
        (h : luaVfprintf mem w n fmt args memory stack = dprintfTo mem w f fmt args memory) :
        Safe (step mem w (.fprintf n fmt args memory stack)).2 ∧
          Does mem (view w) (.fprintf n fmt args memory stack)
            (step mem w (.fprintf n fmt args memory stack)).1
            (view (step mem w (.fprintf n fmt args memory stack)).2) := by
      obtain ⟨hsafe, s, taken, hs, htaken, hall, hview⟩ :=
        dprintfTo_spec mem fmt args memory hw hf.1 hf.2
      rw [step, h]
      rw [hview]
      refine ⟨hsafe, .write rfl hs htaken fun hok => hall fun hfails => ?_⟩
      rw [hfails] at hok
      exact absurd (show (0 : ℤ) ≤ -1 from hok) (by decide)
    rw [Good] at hgood
    by_cases hstdout : n = .stdout
    · rw [if_pos hstdout] at hgood
      exact hdirect 1 hgood (by rw [luaVfprintf, if_pos hstdout])
    by_cases hstderr : n = .stderr
    · rw [if_neg hstdout, if_pos hstderr] at hgood
      exact hdirect 2 hgood (by rw [luaVfprintf, if_neg hstdout, if_pos hstderr])
    · rw [if_neg hstdout, if_neg hstderr] at hgood
      rw [step, luaVfprintf_spec hstdout hstderr hgood]
      refine does_of_fwrite hw rfl (Nat.one_mul _).symm (Nat.lt_trans hgood (by decide)) fun h => ?_
      rw [← ite_not] at h
      exact not_not.1 (of_nonneg_ite h)

theorem runs_of_safe (hw : Safe w) (calls : List (Call M)) (hgood : GoodRun mem w calls) :
    Runs mem (view w) calls (run mem w calls).1 (view (run mem w calls).2) := by
  induction calls generalizing w with
  | nil => exact .nil
  | cons c calls ih =>
    obtain ⟨hc, hcalls⟩ := hgood
    obtain ⟨hsafe, hdoes⟩ := step_does hw c hc
    exact .call hdoes (ih hsafe hcalls)

/-- The streams at the start. -/
def startFiles : Name → LuaFile
  | .stdin => ⟨true, 0, true, false, false, none⟩
  | .stdout => ⟨true, 1, true, false, false, none⟩
  | .stderr => ⟨true, 2, true, false, false, none⟩
  | .file _ => LuaFile.zero

/-- The start of a program, with these descriptors, of which the three standard ones are open. -/
def World.start (fds : ℤ → Fd) : World := ⟨startFiles, fds, fun f => f = 0 || f = 1 || f = 2⟩

theorem safe_start (fds : ℤ → Fd) : Safe (World.start fds) := by
  refine ⟨fun n hn => ?_, fun n m hn hm heq => ?_, fun n => by cases n <;> rfl⟩
  · cases n with
    | file i => cases hn
    | _ => rfl
  · cases n with
    | file i => cases hn
    | _ =>
      cases m with
      | file i => cases hm
      | _ => first | rfl | simp [World.start, startFiles] at heq

/-- In every run whose calls are good, from the start on, each stream has taken what was written to
it, in order, and what was read from it is the front of what there was to read. -/
theorem runs_of_good (mem : Memory M) (fds : ℤ → Fd) (calls : List (Call M))
    (hgood : GoodRun mem (World.start fds) calls) :
    Runs mem (view (World.start fds)) calls (run mem (World.start fds) calls).1
      (view (run mem (World.start fds) calls).2) :=
  runs_of_safe (safe_start fds) calls hgood

/-- A descriptor that takes a byte at a time, and has nothing to be read. -/
def blank (f : ℤ) : Fd := ⟨⟨f, fun _ => 1, 0, []⟩, [], fun _ => none, 0⟩

/-- A file is opened, two bytes are written to it and a letter to the standard output, and it is
closed. -/
theorem runs_ab :
    Runs noMemory (view (World.start blank))
      [.fopen [97] [119] (some ⟨3, blank 3⟩), .fputs [97, 98] (.file 0),
        .fprintf .stdout [120] [] () fun _ => 0, .fclose (.file 0) true]
      (run noMemory (World.start blank)
        [.fopen [97] [119] (some ⟨3, blank 3⟩), .fputs [97, 98] (.file 0),
          .fprintf .stdout [120] [] () fun _ => 0, .fclose (.file 0) true]).1
      (view (run noMemory (World.start blank)
        [.fopen [97] [119] (some ⟨3, blank 3⟩), .fputs [97, 98] (.file 0),
          .fprintf .stdout [120] [] () fun _ => 0, .fclose (.file 0) true]).2) := by
  refine runs_of_good noMemory blank _ ⟨fun o h => ?_, ?_, ?_, trivial, trivial⟩
  · cases h
    exact ⟨rfl, rfl⟩
  · exact (by decide : 2 < 2 ^ 64)
  · rw [Good, if_pos rfl]
    exact ⟨rfl, rfl⟩

theorem printed_letter : printed noMemory [120] [] () = [120] :=
  Stdio.printed_eq (Stdio.writes_plain (by decide) Stdio.writes_nil)

theorem writeAllFd_letter :
    writeAllFd (blank 1).out [120] = (⟨1, fun _ => 1, 1, [120]⟩, true) := by
  have hone : ¬((1 : UInt64) = 0 ∨ (1 : UInt64) = UInt64.ofNat (2 ^ 64 - 1)) := by decide
  rw [writeAllFd, if_neg (by decide), writeAll, dif_neg (by simp)]
  dsimp only [blank]
  rw [dif_neg hone, writeAll]
  rfl

theorem vdprintf_letter :
    vdprintf noMemory (blank 1).out [120] [] () =
      ⟨1, ⟨.fd, ⟨1, fun _ => 1, 1, [120]⟩, none, 0, 1, false⟩, some ()⟩ := by
  have hemit : emit (initFd (blank 1).out) [120] =
      .ok ⟨.fd, ⟨1, fun _ => 1, 1, [120]⟩, none, 0, 1, false⟩ := by
    rw [emit, if_neg (by simp)]
    dsimp only [initFd]
    rw [writeAllFd_letter]
    rfl
  rw [vdprintf, Stdio.vformat, formatLoop, if_pos (by decide), hemit]
  dsimp only [bind, Except.bind]
  rw [formatLoop]
  rfl

theorem step_letter (w : World) (hw : w.fds 1 = blank 1) (stack : ℕ → UInt8) :
    step noMemory w (.fprintf .stdout [120] [] () stack) =
      (.value 1, w.setFd 1 { blank 1 with out := ⟨1, fun _ => 1, 1, [120]⟩ }) := by
  have hout : { (blank 1).out with fd := 1 } = (blank 1).out := rfl
  rw [step, luaVfprintf, if_pos rfl, dprintfTo, hw]
  rw [hout, vdprintf_letter]

theorem Does.freopen_eq {σ σ' : Name → Option Stream} {path mode : List UInt8} {o : Option Opened}
    {closes : Bool} (h : Does mem σ (.freopen path mode n o closes) (.stream (some m)) σ') :
    ∃ s, σ' n = some s ∧ s.sent = [] := by
  cases h with
  | freopen => exact ⟨_, update_self .., rfl⟩

theorem Does.fprintf_eq {σ σ' : Name → Option Stream} {fmt : List UInt8} {args : List UInt64}
    {memory : M} {stack : ℕ → UInt8} {v : ℤ} {s : Stream}
    (h : Does mem σ (.fprintf n fmt args memory stack) (.value v) σ') (hs : σ n = some s)
    (hv : 0 ≤ v) : ∃ s', σ' n = some s' ∧ s'.sent = s.sent ++ printed mem fmt args memory := by
  cases h with
  | write hc hn htaken hall =>
    cases hc
    obtain rfl := Option.some.inj (hs.symm.trans hn)
    rw [hall hv]
    exact ⟨_, update_self .., rfl⟩
  | writeClosed hc hn =>
    cases hc
    rw [hs] at hn
    cases hn

/-- The standard output is opened again as a file, and a letter is printed to it: the file has taken
nothing. -/
theorem not_runs :
    FreshFd (World.start blank) ⟨3, blank 3⟩ ∧
      ¬ Runs noMemory (view (World.start blank))
        [.freopen [97] [119] .stdout (some ⟨3, blank 3⟩) true,
          .fprintf .stdout [120] [] () fun _ => 0]
        (run noMemory (World.start blank)
          [.freopen [97] [119] .stdout (some ⟨3, blank 3⟩) true,
            .fprintf .stdout [120] [] () fun _ => 0]).1
        (view (run noMemory (World.start blank)
          [.freopen [97] [119] .stdout (some ⟨3, blank 3⟩) true,
            .fprintf .stdout [120] [] () fun _ => 0]).2) := by
  refine ⟨⟨rfl, rfl⟩, fun hruns => ?_⟩
  rw [run, run, run, step_letter _ rfl] at hruns
  cases hruns with
  | call h₁ hrest =>
    cases hrest with
    | call h₂ hrest =>
      cases hrest
      obtain ⟨s, hs, hsent⟩ := Does.freopen_eq (m := .stdout) h₁
      obtain ⟨s', hs', hsent'⟩ := Does.fprintf_eq h₂ hs (by decide)
      rw [hsent, printed_letter, ← Option.some.inj hs'] at hsent'
      cases hsent'

end Cleonos.Lua
