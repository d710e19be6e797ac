import Cleonos.Vim.Redraw

/-!
# Typing in insert mode

The text in front of the cursor and the text behind it say all about the line that typing depends
on.
-/

namespace Cleonos.Vim

open List Option
open Buffer

variable {ed ed' ed₀ : VimEditor} {c : List UInt8} {cs : List (List UInt8)}

/-! ## Characters -/

/-- The bytes of a printable character. -/
structure Character (c : List UInt8) : Prop where
  length : c.length = utf8LenFromLead (c.headD 0)
  lead : 0x20 ≤ c.headD 0 ∧ c.headD 0 < 0x7F ∨ 0xC2 ≤ c.headD 0 ∧ c.headD 0 ≤ 0xF4
  conts : ∀ d ∈ c.tail, utf8IsCont d = true

/-- A round of the loop reads a character. -/
structure Types (c : List UInt8) (e : KeyEvent) : Prop where
  ch : e.ch = c.headD 0
  input : c.tail <+: e.input

variable (b : UInt8)

theorem utf8LenFromLead_pos : 0 < utf8LenFromLead b := by
  unfold utf8LenFromLead
  split_ifs <;> decide

theorem utf8LenFromLead_le : utf8LenFromLead b ≤ 4 := by
  unfold utf8LenFromLead
  split_ifs <;> decide

theorem Character.eq_cons (h : Character c) : c = c.headD 0 :: c.tail := by
  cases c with
  | nil =>
    have hlen := h.length
    have hpos := utf8LenFromLead_pos (([] : List UInt8).headD 0)
    rw [← hlen] at hpos
    cases hpos
  | cons b c => rfl

theorem Character.range (h : Character c) :
    32 ≤ (c.headD 0).toNat ∧ (c.headD 0).toNat ≤ 255 ∧ (c.headD 0).toNat ≠ 127 := by
  have hle := UInt8.toNat_lt (c.headD 0)
  obtain ⟨hlo, hhi⟩ | ⟨hlo, -⟩ := h.lead
  · have hlo' : 32 ≤ (c.headD 0).toNat := UInt8.le_iff_toNat_le.1 hlo
    have hhi' : (c.headD 0).toNat < 127 := UInt8.lt_iff_toNat_lt.1 hhi
    omega
  · have hlo' : 194 ≤ (c.headD 0).toNat := UInt8.le_iff_toNat_le.1 hlo
    omega

theorem Character.not_isCont (h : Character c) : utf8IsCont (c.headD 0) = false := by
  rw [Bool.eq_false_iff]
  intro hcont
  rw [utf8IsCont, Bool.and_eq_true, decide_eq_true_eq, decide_eq_true_eq] at hcont
  have hcont' : 128 ≤ (c.headD 0).toNat ∧ (c.headD 0).toNat ≤ 191 :=
    ⟨UInt8.le_iff_toNat_le.1 hcont.1, UInt8.le_iff_toNat_le.1 hcont.2⟩
  obtain ⟨-, hhi⟩ | ⟨hlo, -⟩ := h.lead
  · have hhi' : (c.headD 0).toNat < 127 := UInt8.lt_iff_toNat_lt.1 hhi
    omega
  · have hlo' : 194 ≤ (c.headD 0).toNat := UInt8.le_iff_toNat_le.1 hlo
    omega

theorem Character.eq_of_append {d x y : List UInt8} (hc : Character c) (hd : Character d)
    (h : c ++ x = d ++ y) : c = d := by
  have hhead : c.headD 0 = d.headD 0 := by
    rw [hc.eq_cons, hd.eq_cons, cons_append, cons_append] at h
    exact (cons_eq_cons.1 h).1
  have hlen : c.length = d.length := by rw [hc.length, hd.length, hhead]
  exact (append_inj h hlen).1

theorem flatten_append_comm_iff (hc : Character c) (hcs : ∀ d ∈ cs, Character d) :
    cs.flatten ++ c = c ++ cs.flatten ↔ ∀ d ∈ cs, d = c := by
  induction cs with
  | nil => simp
  | cons d cs ih =>
    have ih := ih fun d' hd' => hcs d' (mem_cons_of_mem d hd')
    rw [flatten_cons, append_assoc, forall_mem_cons]
    constructor
    · intro h
      have hdc : d = c := (hcs d mem_cons_self).eq_of_append hc h
      rw [hdc] at h
      exact ⟨hdc, ih.1 (append_cancel_left h)⟩
    · intro h
      rw [h.1, ih.2 h.2]

theorem collectMore_conts {conts more : List UInt8} (h : ∀ d ∈ conts, utf8IsCont d = true) :
    collectMore conts.length (conts ++ more) = some (conts, more) := by
  induction conts with
  | nil => rfl
  | cons d conts ih =>
    have hd := h d mem_cons_self
    rw [length_cons, cons_append, collectMore, if_neg (by simp [hd]),
      ih fun d' hd' => h d' (mem_cons_of_mem d hd')]
    rfl

theorem Character.readKey (h : Character c) : readKey (c.headD 0) = (c.headD 0).toNat := by
  obtain ⟨hlo, -, hdel⟩ := h.range
  generalize c.headD 0 = b at *
  have hne : ∀ d : UInt8, d.toNat < 32 ∨ d.toNat = 127 → b ≠ d := by
    rintro d hd rfl
    omega
  rw [Vim.readKey, if_neg (hne 13 (by decide)),
    if_neg (not_or.2 ⟨hne 8 (by decide), hne 127 (by decide)⟩), if_neg (hne 1 (by decide)),
    if_neg (hne 2 (by decide)), if_neg (hne 3 (by decide)), if_neg (hne 4 (by decide)),
    if_neg (hne 5 (by decide)), if_neg (hne 6 (by decide)), if_neg (hne 7 (by decide))]

theorem Types.collectKey {e : KeyEvent} (h : Types c e) (hc : Character c) :
    ∃ rest, collectKey (c.headD 0).toNat e.input = some (c, rest) := by
  obtain ⟨rest, hinput⟩ := h.input
  have hcons := hc.eq_cons
  unfold Vim.collectKey
  rw [UInt8.ofNat_toNat, ← hinput]
  split
  · refine ⟨rest, ?_⟩
    have hneed : min (utf8LenFromLead (c.headD 0)) 4 - 1 = c.tail.length := by
      rw [Nat.min_eq_left (utf8LenFromLead_le _), ← hc.length, length_tail]
    rw [collectUtf8, hneed, collectMore_conts hc.conts, map_some, ← hcons]
  · next hlow =>
    refine ⟨c.tail ++ rest, ?_⟩
    have hsmall : c.headD 0 < 0x80 := UInt8.lt_iff_toNat_lt.2 (not_le.1 hlow)
    have hlen : c.length = 1 := by rw [hc.length, utf8LenFromLead, if_pos hsmall]
    have htail : c.tail = [] := by
      rw [← length_eq_zero_iff, length_tail, hlen]
    rw [htail] at hcons
    rw [← hcons]

/-- The text in front of the cursor, the text behind it, and whether a `j` is held back. -/
structure Typing where
  before : List UInt8
  after : List UInt8
  pending : Bool

/-- The text behind the cursor starts inside a character. -/
def startsInside (after : List UInt8) : Bool := after.head?.any utf8IsCont

/-- The `j` that is held back. -/
def Typing.heldBack (t : Typing) : List UInt8 := if t.pending then [106] else []

def Typing.type (t : Typing) (c : List UInt8) : Typing :=
  if c = [106] then { t with pending := true }
  else if startsInside t.after then ⟨t.before ++ t.heldBack, c ++ t.after, false⟩
  else ⟨t.before ++ t.heldBack ++ c, t.after, false⟩

/-- The editor is in insert mode, with this text around the cursor. -/
structure Around (ed₀ : VimEditor) (t : Typing) (ed : VimEditor) : Prop where
  sound : Sound ed
  mode : ed.mode = .insert
  running : ed.quitRequested = false
  inLine : InLine ed₀ ed
  bytes : ed.line.bytes = t.before ++ t.after
  col : ed.cursorCol = t.before.length
  pending : ed.pendingJj = t.pending

/-- So it is in front of a round, and the cursor is not inside a character. -/
structure At (ed₀ : VimEditor) (t : Typing) (ed : VimEditor) : Prop extends Around ed₀ t ed where
  placed : t.before = [] ∨ startsInside t.after = false

variable {t : Typing}

section

variable (h : Around ed₀ t ed)
include h

theorem Around.len : ed.line.len = t.before.length + t.after.length := by
  rw [← length_bytes, h.bytes, length_append]

theorem Around.cell {i : ℕ} {b : UInt8} (hb : (t.before ++ t.after)[i]? = some b) :
    ed.line.text i = b := by
  have hi : i < ed.line.len := by
    rw [h.len, ← length_append]
    exact (List.getElem?_eq_some_iff.1 hb).1
  rw [← h.bytes, VimLine.bytes, getElem?_slice hi, Nat.zero_add] at hb
  exact Option.some.inj hb

theorem Around.insert {bytes : List UInt8}
    (hhead : ¬ (bytes.headD 0 < 0x20 ∨ bytes.headD 0 = 10 ∨ bytes.headD 0 = 13))
    (hroom : t.before.length + t.after.length + bytes.length < maxLineLen) :
    Around ed₀ { t with before := t.before ++ bytes } (insertBytes ed bytes) := by
  have hne : ¬ bytes.length = 0 := by
    intro hnil
    rw [length_eq_zero_iff] at hnil
    rw [hnil] at hhead
    exact hhead (.inl (by decide))
  rw [← h.len] at hroom
  have hline : LineOk (ed.line.insertAt ed.cursorCol bytes) := lineOk_insertAt hroom
  have hnew : ed.cursorCol + bytes.length ≤ ed.line.len + bytes.length :=
    Nat.add_le_add_right h.sound.col _
  have hinLine := h.inLine.trans (inLine_insertBytes ed bytes)
  rw [insertBytes, if_neg hne, if_neg hhead, if_neg (not_le.2 hroom)] at hinLine ⊢
  refine ⟨h.sound.replaced hline rfl rfl rfl hnew, h.mode, h.running, hinLine, ?_, ?_, h.pending⟩
  · have hinserted := bytes_insertAt h.sound.col bytes
    rw [h.bytes, h.col, take_left, drop_left, ← append_assoc] at hinserted
    rw [← hinserted, ← h.col]
    exact congrArg VimLine.bytes (Function.update_self _ _ _)
  · rw [length_append, ← h.col]

theorem Around.insertPending
    (hroom : t.before.length + t.after.length + t.heldBack.length < maxLineLen) :
    Around ed₀ ⟨t.before ++ t.heldBack, t.after, false⟩ (insertPending ed) := by
  unfold Typing.heldBack at *
  rw [Vim.insertPending, h.pending]
  cases hpending : t.pending with
  | false =>
    rw [hpending] at hroom
    simp only [Bool.false_eq_true, if_false, append_nil]
    exact ⟨h.sound, h.mode, h.running, h.inLine, h.bytes, h.col, h.pending.trans hpending⟩
  | true =>
    rw [hpending, if_pos rfl] at hroom
    have hput : Around ed₀ { t with before := t.before ++ [106] } (insertBytes ed [106]) :=
      h.insert (by decide) hroom
    obtain ⟨hsound, hmode, hrunning, hinLine, hbytes, hcol, -⟩ := hput
    have hsame : Edits (insertBytes ed [106])
        { insertBytes ed [106] with pendingJj := false } := hsound.untouched ⟨rfl, rfl⟩ rfl rfl
    obtain ⟨hcount, hcursor, hlines, hpath⟩ := hinLine
    exact ⟨hsame.sound, hmode, hrunning, ⟨hcount, hcursor, hlines, hpath⟩, hbytes, hcol, rfl⟩

end

theorem backToChar_eq {line : ℕ → UInt8} {len j n : ℕ} (hlead : utf8IsCont (line j) = false)
    (hconts : ∀ k, j < k → k ≤ j + n → utf8IsCont (line k) = true) (hlen : j + n < len) :
    backToChar line len (j + n) = j := by
  induction n with
  | zero => exact backToChar_of_lead hlead
  | succ n ih =>
    rw [← Nat.add_assoc, backToChar_of_cont (by omega) (hconts _ (by omega) (by omega))]
    exact ih (fun k hk hle => hconts k hk (by omega)) (by omega)

theorem Around.settle (h : Around ed₀ t ed) {t' : Typing} (hpending : t'.pending = t.pending)
    (hbytes : t'.before ++ t'.after = t.before ++ t.after)
    (hback : backToChar ed.line.text ed.line.len ed.cursorCol = t'.before.length) :
    Around ed₀ t' (settle ed) := by
  obtain ⟨top, htop⟩ := settle_frame h.sound
  have hsound := sound_settle h.sound
  have hinLine := h.inLine.settle h.sound
  rw [htop, hback] at hsound hinLine ⊢
  exact ⟨hsound, h.mode, h.running, hinLine, h.bytes.trans hbytes.symm, rfl, h.pending.trans hpending.symm⟩

theorem Around.settle_stay (h : Around ed₀ t ed) (hplaced : t.before = [] ∨ startsInside t.after = false) :
    At ed₀ t (Vim.settle ed) := by
  refine ⟨h.settle rfl rfl ?_, hplaced⟩
  rw [h.col]
  obtain hnil | hlead := hplaced
  · rw [hnil]
    rfl
  · cases hafter : t.after with
    | nil =>
      apply backToChar_of_le
      rw [h.len, hafter]
      exact le_rfl
    | cons b rest =>
      apply backToChar_of_lead
      have hb : (t.before ++ t.after)[t.before.length]? = some b := by simp [hafter]
      rw [h.cell hb]
      simpa [hafter, startsInside] using hlead

theorem Around.settle_back (h : Around ed₀ t ed) {before : List UInt8} (hc : Character c)
    (hbefore : t.before = before ++ c) (hinside : startsInside t.after = true) :
    At ed₀ ⟨before, c ++ t.after, t.pending⟩ (Vim.settle ed) := by
  have hcons := hc.eq_cons
  have hlen : c.length = c.tail.length + 1 := by
    conv_lhs => rw [hcons]
    rfl
  have hstarts : startsInside (c ++ t.after) = false := by
    rw [hcons]
    exact hc.not_isCont
  refine ⟨h.settle rfl ?_ ?_, .inr hstarts⟩
  · rw [hbefore, append_assoc]
  · have hcol : ed.cursorCol = before.length + c.length := by rw [h.col, hbefore, length_append]
    obtain ⟨b, rest, hafter⟩ : ∃ b rest, t.after = b :: rest := by
      cases hafter : t.after with
      | nil =>
        rw [hafter] at hinside
        cases hinside
      | cons b rest => exact ⟨b, rest, rfl⟩
    rw [hafter] at hinside
    have hcells : t.before ++ t.after = before ++ (c.headD 0 :: (c.tail ++ b :: rest)) := by
      rw [hbefore, hafter, append_assoc]
      conv_lhs => rw [hcons]
      rfl
    rw [hcol]
    apply backToChar_eq
    · rw [h.cell (b := c.headD 0) (by rw [hcells]; simp)]
      exact hc.not_isCont
    · intro k hk hle
      obtain ⟨i, rfl⟩ := Nat.exists_eq_add_of_lt hk
      have hi : (t.before ++ t.after)[before.length + i + 1]? = (c.tail ++ b :: rest)[i]? := by
        rw [hcells, List.getElem?_append_right (by omega),
          show before.length + i + 1 - before.length = i + 1 by omega, List.getElem?_cons_succ]
      by_cases hlast : i < c.tail.length
      · rw [List.getElem?_append_left hlast, List.getElem?_eq_getElem hlast] at hi
        rw [h.cell hi]
        exact hc.conts _ (getElem_mem hlast)
      · obtain rfl : i = c.tail.length := by omega
        rw [List.getElem?_append_right le_rfl, Nat.sub_self, List.getElem?_cons_zero] at hi
        rw [h.cell hi]
        simpa [startsInside] using hinside
    · rw [h.len, hbefore, hafter, length_append, length_cons]
      omega

theorem step_eq {cwd : List UInt8} {e : KeyEvent} {r : VimEditor × List UInt8}
    (hrunning : ed.quitRequested = false) (hkey : handleKey cwd ed e = some r)
    (hstill : r.1.quitRequested = false) : step cwd ed e = some (settle r.1) := by
  rw [step, hrunning, if_neg Bool.false_ne_true, hkey, map_some, hstill,
    if_neg Bool.false_ne_true]
  rfl

theorem pressInsert_text {key : ℕ} {input : List UInt8} (hj : key ≠ 106) (hlo : 32 ≤ key)
    (hhi : key ≤ 255) (hdel : key ≠ 127) : pressInsert ed key input =
      (collectKey key input).map fun r => (insertBytes ed r.1, r.2) := by
  have hrange : key ≥ 32 ∧ key ≤ 255 := ⟨hlo, hhi⟩
  have hne : ∀ special, 255 < special → key ≠ special := by
    intro special hspecial
    omega
  have henter : ¬ (key = keyEnter ∨ key = 10) := by
    rw [keyEnter]
    omega
  have hback : ¬ (key = keyBackspace ∨ key = keyDel) := by
    rw [keyBackspace, keyDel]
    omega
  have htab : key ≠ 9 := by omega
  rw [pressInsert, if_neg hj, if_neg (hne keyLeft (by decide)), if_neg (hne keyRight (by decide)),
    if_neg (hne keyUp (by decide)), if_neg (hne keyDown (by decide)),
    if_neg (hne keyHome (by decide)), if_neg (hne keyEnd (by decide)), if_neg henter,
    if_neg hback, if_neg htab, if_pos hrange]

theorem Character.head_ne_j (hc : Character c) (hj : c ≠ [106]) : (c.headD 0).toNat ≠ 106 := by
  intro hhead
  have hb : c.headD 0 = 106 := UInt8.toNat_inj.1 hhead
  have hlen : c.length = 1 := by rw [hc.length, hb]; rfl
  obtain ⟨b, rfl⟩ := length_eq_one_iff.1 hlen
  exact hj (congrArg (fun b => [b]) hb)

theorem At.type (cwd : List UInt8) {e : KeyEvent} (h : At ed₀ t ed) (hc : Character c)
    (htypes : Types c e) (hjj : ¬ (t.pending = true ∧ c = [106]))
    (hroom : t.before.length + t.after.length + t.heldBack.length + c.length < maxLineLen) :
    ∃ ed', step cwd ed e = some ed' ∧ At ed₀ (t.type c) ed' := by
  have hkey : handleKey cwd ed e = handleInsertMode ed (c.headD 0).toNat e.input := by
    rw [handleKey, h.mode, htypes.ch, hc.readKey]
  have hesc : (c.headD 0).toNat ≠ keyEsc := by
    have := hc.range
    rw [keyEsc]
    omega
  rw [handleInsertMode, if_neg hesc] at hkey
  by_cases hj : c = [106]
  · have hpending : t.pending = false := by
      cases hp : t.pending with
      | false => rfl
      | true => exact absurd ⟨hp, hj⟩ hjj
    have hinsert : insertPending ed = ed := by
      rw [insertPending, h.pending, hpending, if_neg Bool.false_ne_true]
    have hhead : (c.headD 0).toNat = 106 := by rw [hj]; rfl
    rw [h.pending, hpending, if_neg (by simp), hinsert, pressInsert, if_pos hhead] at hkey
    refine ⟨_, step_eq h.running hkey h.running, ?_⟩
    rw [Typing.type, if_pos hj]
    have hsame : Edits ed { ed with pendingJj := true } := h.sound.untouched ⟨rfl, rfl⟩ rfl rfl
    obtain ⟨hcount, hcursor, hlines, hpath⟩ := h.inLine
    have haround : Around ed₀ { t with pending := true } { ed with pendingJj := true } :=
      ⟨hsame.sound, h.mode, h.running, ⟨hcount, hcursor, hlines, hpath⟩, h.bytes, h.col, rfl⟩
    exact haround.settle_stay h.placed
  · obtain ⟨hlo, hhi, hdel⟩ := hc.range
    obtain ⟨rest, hcollect⟩ := htypes.collectKey hc
    have hheld := h.toAround.insertPending (by omega)
    have hprintable : ¬ (c.headD 0 < 0x20 ∨ c.headD 0 = 10 ∨ c.headD 0 = 13) := by
      rw [UInt8.lt_iff_toNat_lt, ← UInt8.toNat_inj, ← UInt8.toNat_inj]
      exact fun hlow => by
        obtain hlow | hlow | hlow := hlow
        · exact absurd hlow (not_lt.2 hlo)
        · exact absurd (hlow ▸ hlo) (by decide)
        · exact absurd (hlow ▸ hlo) (by decide)
    have hfits : (t.before ++ t.heldBack).length + t.after.length + c.length < maxLineLen := by
      rw [length_append]
      omega
    have hput := hheld.insert hprintable hfits
    rw [if_neg (fun hboth => hc.head_ne_j hj hboth.2), pressInsert_text (hc.head_ne_j hj) hlo hhi hdel,
      hcollect, map_some] at hkey
    refine ⟨_, step_eq h.running hkey hput.running, ?_⟩
    rw [Typing.type, if_neg hj]
    split
    · next hinside => exact hput.settle_back hc rfl hinside
    · next houtside => exact hput.settle_stay (.inr (by simpa using houtside))

/-- No two characters in a row are a `j`; `held` says that there was one in front. -/
def NoJj : Bool → List (List UInt8) → Prop
  | _, [] => True
  | held, c :: cs => ¬ (held = true ∧ c = [106]) ∧ NoJj (decide (c = [106])) cs

theorem noJj_of_absent (h : ¬ [[106], [106]] <:+: cs) : NoJj false cs := by
  have hgeneral : ∀ (held : Bool) (cs : List (List UInt8)),
      (held = true → cs.head? ≠ some [106]) → ¬ [[106], [106]] <:+: cs → NoJj held cs := by
    intro held cs
    induction cs generalizing held with
    | nil => exact fun _ _ => trivial
    | cons c cs ih =>
      intro hheld hinfix
      refine ⟨fun hboth => hheld hboth.1 (congrArg some hboth.2), ih _ ?_ ?_⟩
      · intro hc hhead
        obtain ⟨rest, rfl⟩ : ∃ rest, cs = [106] :: rest := by
          cases cs with
          | nil => cases hhead
          | cons d rest => exact ⟨rest, congrArg (· :: rest) (Option.some.inj hhead)⟩
        rw [of_decide_eq_true hc] at hinfix
        exact hinfix ⟨[], rest, rfl⟩
      · exact fun hin => hinfix (hin.trans (infix_cons (infix_refl cs)))
  exact hgeneral false cs (by simp) h

/-- The bytes of the line, and the `j` that is held back. -/
def Typing.size (t : Typing) : ℕ := t.before.length + t.after.length + t.heldBack.length

theorem pending_type (t : Typing) (c : List UInt8) : (t.type c).pending = decide (c = [106]) := by
  unfold Typing.type
  split
  · next hj => simp [hj]
  · next hj => split <;> simp [hj]

theorem size_type (h : ¬ (t.pending = true ∧ c = [106])) : (t.type c).size = t.size + c.length := by
  unfold Typing.type
  split
  · next hj =>
    have hpending : t.pending = false := by
      cases hp : t.pending with
      | false => rfl
      | true => exact absurd ⟨hp, hj⟩ h
    simp [Typing.size, Typing.heldBack, hpending, hj]
  · split
    · simp only [Typing.size, Typing.heldBack, length_append, Bool.false_eq_true, if_false,
        length_nil]
      omega
    · simp only [Typing.size, Typing.heldBack, length_append, Bool.false_eq_true, if_false,
        length_nil]
      omega

theorem At.run (cwd : List UInt8) {es : List KeyEvent} (h : At ed₀ t ed)
    (hcs : ∀ c ∈ cs, Character c) (htypes : List.Forall₂ Types cs es) (hjj : NoJj t.pending cs)
    (hroom : t.size + cs.flatten.length < maxLineLen) :
    ∃ ed', es.foldlM (step cwd) ed = some ed' ∧ At ed₀ (cs.foldl Typing.type t) ed' := by
  induction htypes generalizing t ed with
  | nil => exact ⟨ed, rfl, h⟩
  | @cons c e cs es hc htypes ih =>
    obtain ⟨hnot, hjj⟩ := hjj
    rw [flatten_cons, length_append] at hroom
    have hsize := size_type hnot
    obtain ⟨ed₁, hstep, hat⟩ := h.type cwd (hcs c mem_cons_self) hc hnot
      (by unfold Typing.size at hroom; omega)
    obtain ⟨ed', hrun, hat'⟩ := ih hat (fun d hd => hcs d (mem_cons_of_mem c hd))
      (by rwa [pending_type]) (by omega)
    refine ⟨ed', ?_, hat'⟩
    rw [foldlM_cons, hstep]
    exact hrun

theorem At.escape (cwd : List UInt8) {esc : KeyEvent} (h : At ed₀ t ed) (hesc : esc.ch = 27) :
    ∃ ed', step cwd ed esc = some ed' ∧ InLine ed₀ ed' ∧ ed'.line.bytes = t.before ++ t.after ∧
      ed'.mode = .normal ∧ ed'.pendingDd = false ∧ ed'.pendingGg = false ∧ ed'.pendingJj = false := by
  have hkey : handleKey cwd ed esc = some (setStatus { ed with
      mode := .normal, pendingDd := false, pendingGg := false, pendingJj := false }
        (lit "-- NORMAL --"), esc.input) := by
    rw [handleKey, h.mode, hesc]
    rfl
  have hsame : Edits ed (setStatus { ed with
      mode := .normal, pendingDd := false, pendingGg := false, pendingJj := false }
        (lit "-- NORMAL --")) := h.sound.untouched ⟨rfl, rfl⟩ rfl rfl
  obtain ⟨hcount, hcursor, hlines, hpath⟩ := h.inLine
  have hinLine : InLine ed₀ (setStatus { ed with
      mode := .normal, pendingDd := false, pendingGg := false, pendingJj := false }
        (lit "-- NORMAL --")) := ⟨hcount, hcursor, hlines, hpath⟩
  refine ⟨_, step_eq h.running hkey h.running, hinLine.settle hsame.sound, ?_⟩
  obtain ⟨top, htop⟩ := settle_frame hsame.sound
  rw [htop]
  exact ⟨h.bytes, rfl, rfl, rfl, rfl⟩

theorem foldl_type_outside (houtside : startsInside t.after = false) (hjj : NoJj t.pending cs) :
    (cs.foldl Typing.type t).after = t.after ∧
      (cs.foldl Typing.type t).before ++ (cs.foldl Typing.type t).heldBack =
        t.before ++ t.heldBack ++ cs.flatten := by
  induction cs generalizing t with
  | nil => exact ⟨rfl, (append_nil _).symm⟩
  | cons c cs ih =>
    obtain ⟨hnot, hjj⟩ := hjj
    have hafter : (t.type c).after = t.after := by
      unfold Typing.type
      split
      · rfl
      · rw [houtside, if_neg Bool.false_ne_true]
    have hbefore : (t.type c).before ++ (t.type c).heldBack = t.before ++ t.heldBack ++ c := by
      unfold Typing.type
      split
      · next hj =>
        have hpending : t.pending = false := by
          cases hp : t.pending with
          | false => rfl
          | true => exact absurd ⟨hp, hj⟩ hnot
        simp [Typing.heldBack, hpending, hj]
      · rw [houtside, if_neg Bool.false_ne_true]
        simp [Typing.heldBack]
    obtain ⟨hafter', hbefore'⟩ := ih (t := t.type c) (by rw [hafter]; exact houtside)
      (by rwa [pending_type])
    rw [foldl_cons, flatten_cons]
    refine ⟨hafter'.trans hafter, ?_⟩
    rw [hbefore', hbefore, append_assoc]

theorem pending_foldl (cs : List (List UInt8)) (t : Typing) : (cs.foldl Typing.type t).pending =
    (cs.getLast?.map fun c => decide (c = [106])).getD t.pending := by
  induction cs using List.reverseRecOn with
  | nil => rfl
  | append_singleton cs c =>
    rw [foldl_concat, pending_type, List.getLast?_concat]
    rfl

theorem size_foldl (hjj : NoJj t.pending cs) :
    (cs.foldl Typing.type t).size = t.size + cs.flatten.length := by
  induction cs generalizing t with
  | nil => rfl
  | cons c cs ih =>
    obtain ⟨hnot, hjj⟩ := hjj
    have htail := ih (t := t.type c) (by rwa [pending_type])
    rw [foldl_cons, htail, size_type hnot, flatten_cons, length_append]
    omega

/-- All characters are the same one. -/
def AllSame (cs : List (List UInt8)) : Prop := ∀ c ∈ cs, ∀ d ∈ cs, c = d

theorem allSame_cons_iff : AllSame (c :: cs) ↔ ∀ d ∈ cs, d = c := by
  constructor
  · intro h d hd
    exact h d (mem_cons_of_mem c hd) c mem_cons_self
  · intro h x hx y hy
    have hall : ∀ d ∈ c :: cs, d = c := forall_mem_cons.2 ⟨rfl, h⟩
    rw [hall x hx, hall y hy]

theorem foldl_type_inside {after : List UInt8} (held : List UInt8) (hinside : startsInside after = true)
    (hc : Character c) (hj : c ≠ [106]) (hcs : ∀ d ∈ cs, Character d) (hjj : NoJj false cs)
    (ht : t = ⟨[], after, decide (held = [106])⟩) (hheld : held = [] ∨ held = [106])
    (hpending : ((c :: cs).foldl Typing.type t).pending = false) :
    ((c :: cs).foldl Typing.type t).before ++ ((c :: cs).foldl Typing.type t).after =
        held ++ (c :: cs).flatten ++ after ↔ AllSame (c :: cs) := by
  have hfirst : t.type c = ⟨held, c ++ after, false⟩ := by
    unfold Typing.type
    rw [if_neg hj, ht, if_pos hinside]
    obtain rfl | rfl := hheld <;> rfl
  have houtside : startsInside (c ++ after) = false := by
    rw [hc.eq_cons]
    exact hc.not_isCont
  rw [foldl_cons, hfirst] at hpending ⊢
  obtain ⟨hafter, hbefore⟩ := foldl_type_outside (t := ⟨held, c ++ after, false⟩) houtside hjj
  have hnone : (cs.foldl Typing.type ⟨held, c ++ after, false⟩).heldBack = [] := by
    rw [Typing.heldBack, hpending, if_neg Bool.false_ne_true]
  rw [hnone, append_nil] at hbefore
  rw [hafter, hbefore, allSame_cons_iff, ← flatten_append_comm_iff hc hcs]
  simp only [Typing.heldBack, Bool.false_eq_true, if_false, append_nil, flatten_cons,
    append_assoc, append_cancel_left_eq]
  rw [← append_assoc, ← append_assoc, append_cancel_right_eq]

theorem foldl_type_iff {before after : List UInt8} (hplaced : before = [] ∨ startsInside after = false)
    (hcs : ∀ d ∈ cs, Character d) (hjj : NoJj false cs) (ht : t = ⟨before, after, false⟩) :
    (cs.foldl Typing.type t).before ++ (cs.foldl Typing.type t).after =
        before ++ cs.flatten ++ after ↔
      cs.getLast? ≠ some [106] ∧
        (startsInside after = false ∨ AllSame (cs.dropWhile (· = [106]))) := by
  have hpending : t.pending = false := by rw [ht]
  have hsize := size_foldl (t := t) (by rwa [hpending])
  have hlast := pending_foldl cs t
  by_cases hj : cs.getLast? = some [106]
  · -- the last `j` is held back, so a byte is missing
    rw [hj] at hlast
    constructor
    · intro heq
      have hlen := congrArg List.length heq
      rw [ht] at hsize hlast hlen
      simp only [Typing.size, Typing.heldBack, hlast, map_some, getD_some, decide_true,
        if_true, length_singleton, Bool.false_eq_true, if_false, length_nil,
        length_append] at hsize hlen
      omega
    · exact fun h => absurd hj h.1
  have hnone : (cs.foldl Typing.type t).pending = false := by
    rw [hlast, hpending]
    cases hlast : cs.getLast? with
    | none => rfl
    | some c =>
      have hc : c ≠ [106] := by
        rintro rfl
        exact hj hlast
      simpa using hc
  rw [and_iff_right hj]
  by_cases houtside : startsInside after = false
  · obtain ⟨hafter, hbefore⟩ := @foldl_type_outside cs t (by rw [ht]; exact houtside)
      (by rwa [hpending])
    rw [Typing.heldBack, Typing.heldBack, hnone, hpending, if_neg Bool.false_ne_true,
      append_nil, append_nil] at hbefore
    rw [hafter, hbefore, ht]
    exact iff_of_true rfl (.inl houtside)
  have hinside : startsInside after = true := by simpa using houtside
  obtain rfl : before = [] := hplaced.resolve_right houtside
  rw [or_iff_right houtside]
  cases cs with
  | nil =>
    rw [ht]
    exact iff_of_true rfl (by simp [AllSame])
  | cons c cs =>
    obtain ⟨hnot, hjj⟩ := hjj
    obtain ⟨hc, hrest⟩ := forall_mem_cons.1 hcs
    by_cases hfirst : c = [106]
    · subst hfirst
      cases cs with
      | nil => exact absurd rfl hj
      | cons d cs =>
        obtain ⟨hnot, hjj⟩ := hjj
        have hd : d ≠ [106] := fun h => hnot ⟨by simp, h⟩
        obtain ⟨hchar, hrest⟩ := forall_mem_cons.1 hrest
        have hdrop : ([106] :: d :: cs).dropWhile (· = [106]) = d :: cs := by simp [hd]
        have htype : t.type [106] = ⟨[], after, true⟩ := by rw [ht]; rfl
        rw [foldl_cons, htype] at hnone ⊢
        rw [hdrop]
        have hdone := foldl_type_inside [106] hinside hchar hd hrest (by simpa [hd] using hjj)
          (t := ⟨[], after, true⟩) rfl (.inr rfl) hnone
        rw [← hdone]
        simp
    · have hdrop : (c :: cs).dropWhile (· = [106]) = c :: cs := by simp [hfirst]
      rw [hdrop]
      have hdone := foldl_type_inside [] hinside hc hfirst hrest (by simpa [hfirst] using hjj)
        (t := t) ht (.inl rfl) hnone
      rw [← hdone]

/-! ## The result -/

/-- The line of the cursor gained a text there. -/
structure Gains (ed ed' : VimEditor) (typed : List UInt8) : Prop where
  inLine : InLine ed ed'
  bytes : ed'.line.bytes =
    ed.line.bytes.take ed.cursorCol ++ typed ++ ed.line.bytes.drop ed.cursorCol

/-- The keys and escape put a text in and leave insert mode, with nothing pending. -/
def PutsIn (cwd : List UInt8) (ed : VimEditor) (es : List KeyEvent) (esc : KeyEvent)
    (typed : List UInt8) : Prop :=
  ∃ ed', (es ++ [esc]).foldlM (step cwd) ed = some ed' ∧ Gains ed ed' typed ∧
    ed'.mode = .normal ∧ ed'.pendingDd = false ∧ ed'.pendingGg = false ∧ ed'.pendingJj = false

/-- **What is typed in insert mode goes into the line if and only if it does not end in a `j`**,
unless the cursor is in front of a line that starts inside a character: there, it must repeat one
character, but for a `j` in front. -/
theorem insert_gains_iff {cwd arg : List UInt8} {answer : LoadAnswer} {ed : VimEditor}
    (hrun : Reachable (fun ed => vimOpen cwd arg answer = some ed)
      (fun ed ed' => ∃ e, step cwd ed e = some ed') ed)
    (hrunning : ed.quitRequested = false) (hmode : ed.mode = .insert) (hpending : ed.pendingJj = false)
    {cs : List (List UInt8)} {es : List KeyEvent} {esc : KeyEvent} (hcs : ∀ c ∈ cs, Character c)
    (htypes : List.Forall₂ Types cs es) (hesc : esc.ch = 27) (hjj : ¬ [[106], [106]] <:+: cs)
    (hroom : ed.line.len + cs.flatten.length < maxLineLen) :
    PutsIn cwd ed es esc cs.flatten ↔
      cs.getLast? ≠ some [106] ∧ (¬ Stray ed ∨ AllSame (cs.dropWhile (· = [106]))) := by
  have hready := ready_of_reachable hrun
  have hcol := hready.sound.col
  have hbefore : (ed.line.bytes.take ed.cursorCol).length = ed.cursorCol := by
    rw [length_take, length_bytes, Nat.min_eq_left hcol]
  have hinside : startsInside (ed.line.bytes.drop ed.cursorCol) = true ↔
      ed.cursorCol < ed.line.len ∧ utf8IsCont (ed.line.text ed.cursorCol) = true := by
    rw [drop_bytes, startsInside]
    cases hlen : ed.line.len - ed.cursorCol with
    | zero =>
      rw [slice_zero]
      simp
      omega
    | succ n =>
      have hfirst := getElem?_slice (f := ed.line.text) (i := ed.cursorCol) (n := n + 1) (j := 0)
        (Nat.succ_pos n)
      rw [List.head?_eq_getElem?, hfirst, any_some, Nat.add_zero]
      exact (and_iff_right (by omega)).symm
  have hcolumn : startsInside (ed.line.bytes.drop ed.cursorCol) = true → ed.cursorCol = 0 := by
    intro h
    obtain ⟨hlt, hcont⟩ := hinside.1 h
    by_contra hne
    rw [hready.placed hrunning (Nat.pos_of_ne_zero hne) hlt] at hcont
    cases hcont
  have hplaced : ed.line.bytes.take ed.cursorCol = [] ∨
      startsInside (ed.line.bytes.drop ed.cursorCol) = false := by
    cases h : startsInside (ed.line.bytes.drop ed.cursorCol) with
    | false => exact .inr rfl
    | true =>
      rw [hcolumn h]
      exact .inl rfl
  have hstray : startsInside (ed.line.bytes.drop ed.cursorCol) = false ↔ ¬ Stray ed := by
    rw [← Bool.not_eq_true, not_iff_not]
    constructor
    · intro h
      obtain ⟨hlt, hcont⟩ := hinside.1 h
      have hzero := hcolumn h
      rw [hzero] at hlt hcont
      exact ⟨hzero, hlt, hcont⟩
    · rintro ⟨hzero, hlt, hcont⟩
      rw [hinside, hzero]
      exact ⟨hlt, hcont⟩
  have hat : At ed ⟨ed.line.bytes.take ed.cursorCol, ed.line.bytes.drop ed.cursorCol, false⟩ ed :=
    ⟨⟨hready.sound, hmode, hrunning, .refl ed, (take_append_drop _ _).symm, hbefore.symm,
      hpending⟩, hplaced⟩
  have hsize : Typing.size ⟨ed.line.bytes.take ed.cursorCol, ed.line.bytes.drop ed.cursorCol, false⟩ +
      cs.flatten.length < maxLineLen := by
    rw [Typing.size, ← length_append, take_append_drop, length_bytes]
    exact hroom
  obtain ⟨ed₁, hrun₁, hat₁⟩ := hat.run cwd hcs htypes (noJj_of_absent hjj) hsize
  obtain ⟨ed₂, hstep, hinLine, hbytes, hleft⟩ := hat₁.escape cwd hesc
  have hall : (es ++ [esc]).foldlM (step cwd) ed = some ed₂ := by
    rw [foldlM_append, hrun₁]
    exact (bind_pure _).trans hstep
  rw [← hstray, ← foldl_type_iff hplaced hcs (noJj_of_absent hjj) rfl, ← hbytes]
  constructor
  · rintro ⟨ed', hrun', hgains, -⟩
    rw [hall] at hrun'
    rw [Option.some.inj hrun', hgains.bytes]
  · intro heq
    exact ⟨ed₂, hall, ⟨hinLine, heq⟩, hleft⟩

theorem character_a : Character [97] := ⟨rfl, .inl ⟨by decide, by decide⟩, by simp⟩

theorem character_j : Character [106] := ⟨rfl, .inl ⟨by decide, by decide⟩, by simp⟩

theorem types_typed : Types [b] (typed b) := ⟨rfl, nil_prefix⟩

/-- The letter a is typed into an empty line. -/
theorem insert_gains_a : ∃ ed : VimEditor, ed.line.bytes = [] ∧
    PutsIn [47] ed [typed 97] (typed 27) [97] :=
  ⟨_, by decide, (@insert_gains_iff [47] [] .notFound _
    (.next (.start rfl) ⟨typed 105, rfl⟩) rfl rfl rfl [[97]] [typed 97] (typed 27)
    (forall_mem_singleton.2 character_a) (.cons (types_typed 97) .nil) rfl
    (fun h : [[106], [106]] <:+: [[97]] => absurd h.length_le (by decide)) (by decide)).2
    ⟨by decide, .inl fun h => absurd h.2.1 (by decide)⟩⟩

/-- A `j` that is typed before escape is lost. -/
theorem last_j_lost : ¬ ∀ cwd arg answer ed,
    Reachable (fun ed => vimOpen cwd arg answer = some ed)
      (fun ed ed' => ∃ e, step cwd ed e = some ed') ed →
    ed.quitRequested = false → ed.mode = .insert → ed.pendingJj = false →
    ∀ (cs : List (List UInt8)) (es : List KeyEvent) (esc : KeyEvent), (∀ c ∈ cs, Character c) →
      List.Forall₂ Types cs es → esc.ch = 27 → ¬ [[106], [106]] <:+: cs →
      ed.line.len + cs.flatten.length < maxLineLen → PutsIn cwd ed es esc cs.flatten := by
  intro h
  obtain ⟨ed', hrun, hgains, -⟩ := h [47] [] .notFound _ (.next (.start rfl) ⟨typed 105, rfl⟩)
    rfl rfl rfl [[106]] [typed 106] (typed 27) (forall_mem_singleton.2 character_j)
    (.cons (types_typed 106) .nil) rfl
    (fun h : [[106], [106]] <:+: [[106]] => absurd h.length_le (by decide)) (by decide)
  have hlen := congrArg List.length hgains.bytes
  rw [length_bytes, ← Option.some.inj hrun] at hlen
  exact absurd hlen (by decide)

end Cleonos.Vim
