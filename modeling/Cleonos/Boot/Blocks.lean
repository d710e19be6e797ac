import Cleonos.Boot.Menu

/-!
# The blocks of a configuration file

A configuration file is a header and blocks, each from its `menuentry` line to the next.
-/

namespace Cleonos.Boot

open List

abbrev Setting : Type := Key × List UInt8

/-- A `menuentry` line with the lines up to the next one. -/
structure Block where
  title : List UInt8
  body : List Setting

/-- The lines in front of the first block. -/
def header (lines : List Setting) : List Setting := lines.takeWhile (·.1 ≠ .menuentry)

def blocks : List Setting → List Block
  | [] => []
  | (key, value) :: lines =>
    if key = .menuentry then ⟨value, header lines⟩ :: blocks lines else blocks lines

/-- The lines of a block, one after the other. -/
def applyBody (body : List Setting) (entry : MenuEntry) : MenuEntry :=
  body.foldl (fun entry s => entrySetting s.1 s.2 entry) entry

def blockEntry (b : Block) : MenuEntry := applyBody b.body (configuredEntry b.title)

/-- The global command line that some lines set. -/
def cmdlineOf (lines : List Setting) (start : List UInt8) : List UInt8 :=
  lines.foldl (fun text s => if s.1 = .cmdline then copyN menuCmdlineMax s.2 else text) start

/-- The number that the lines with a key set. -/
def numberOf (key : Key) (lines : List Setting) (start : ℕ) : ℕ :=
  lines.foldl (fun n s => if s.1 = key then parseUint s.2 n else n) start

/-- An index into a table of `n` entries. -/
def clamp (n index : ℕ) : ℕ := if index ≥ n then 0 else index

/-- The table has the entries of the first blocks, and the settings of the header. -/
structure Faithful (lines : List Setting) (cfg : MenuConfig) : Prop where
  entries : cfg.entries =
    if blocks lines = [] then builtins else ((blocks lines).take menuMaxEntries).map blockEntry
  cmdline : cfg.globalCmdline = cmdlineOf (header lines) (copyN menuCmdlineMax defaultCmdline)
  timeout : cfg.timeoutSeconds = numberOf .timeout (header lines) menuTimeoutSeconds
  index : cfg.defaultIndex = clamp cfg.entries.length (numberOf .default (header lines) 0)
  index_lt : cfg.entries ≠ [] → cfg.defaultIndex < cfg.entries.length

/-! ## Keys -/

section Inside

variable {n i : ℕ} {lines : List Setting} {cfg : MenuConfig}

theorem parseStep_restart (h : cfg.entries.length = n) (value : List UInt8)
    (current : Option ℕ) :
    parseStep n (cfg, current) (.menuentry, value) =
      ({ cfg with entries := [configuredEntry value] }, some 0) := by
  cases current with
  | none => simp only [parseStep, if_pos h]; rfl
  | some i => simp only [parseStep, if_pos h]; rfl

theorem parseStep_next (h : cfg.entries.length ≠ n) (hroom : cfg.entries.length < menuMaxEntries)
    (value : List UInt8) (current : Option ℕ) :
    parseStep n (cfg, current) (.menuentry, value) =
      ({ cfg with entries := cfg.entries ++ [configuredEntry value] },
        some cfg.entries.length) := by
  cases current with
  | none => simp only [parseStep, if_neg h, menuAdd, if_neg (not_le.2 hroom)]
  | some i => simp only [parseStep, if_neg h, menuAdd, if_neg (not_le.2 hroom)]

theorem parseStep_inside {s : Setting} (h : s.1 ≠ .menuentry) :
    parseStep n (cfg, some i) s =
      (⟨cfg.entries.modify i (entrySetting s.1 s.2), numberOf .default [s] cfg.defaultIndex,
        numberOf .timeout [s] cfg.timeoutSeconds, cfg.globalCmdline⟩, some i) := by
  obtain ⟨key, value⟩ := s
  have hid : cfg.entries.modify i (fun entry => entry) = cfg.entries := modify_id i _
  cases key with
  | timeout => exact congrArg (fun l => ((⟨l, _, _, _⟩ : MenuConfig), some i)) hid.symm
  | default => exact congrArg (fun l => ((⟨l, _, _, _⟩ : MenuConfig), some i)) hid.symm
  | menuentry => exact absurd rfl h
  | cmdline => rfl
  | kernel => rfl
  | ramdisk => rfl
  | hint => rfl
  | other => rfl

theorem numberOf_cons (key : Key) (s : Setting) (start : ℕ) :
    numberOf key (s :: lines) start = numberOf key lines (numberOf key [s] start) := rfl

theorem numberOf_menuentry {key : Key} (hkey : key ≠ .menuentry) (value : List UInt8) (start : ℕ) :
    numberOf key [(.menuentry, value)] start = start := if_neg hkey.symm

theorem foldl_inside (hn : 0 < n) (hmax : n ≤ menuMaxEntries)
    (hi : i + 1 = cfg.entries.length) (hlen : cfg.entries.length ≤ n) :
    let r := (lines.foldl (parseStep n) (cfg, some i)).1
    r.timeoutSeconds = numberOf .timeout lines cfg.timeoutSeconds ∧
      r.defaultIndex = numberOf .default lines cfg.defaultIndex ∧
      r.globalCmdline = cfg.globalCmdline ∧ 0 < r.entries.length ∧ r.entries.length ≤ n := by
  induction lines generalizing cfg i with
  | nil => exact ⟨rfl, rfl, rfl, by simp only [foldl_nil]; omega, hlen⟩
  | cons s lines ih =>
    rw [foldl_cons, numberOf_cons .timeout s, numberOf_cons .default s]
    by_cases hs : s.1 = .menuentry
    · obtain ⟨key, value⟩ := s
      cases hs
      rw [numberOf_menuentry (by decide), numberOf_menuentry (by decide)]
      by_cases hfull : cfg.entries.length = n
      · rw [parseStep_restart hfull]
        exact @ih 0 { cfg with entries := [configuredEntry value] } rfl hn
      · have hlen' : (cfg.entries ++ [configuredEntry value]).length = cfg.entries.length + 1 :=
          length_append
        rw [parseStep_next hfull (by omega)]
        exact @ih cfg.entries.length
          { cfg with entries := cfg.entries ++ [configuredEntry value] } hlen'.symm
          (hlen'.trans_le (by omega))
    · rw [parseStep_inside hs]
      refine ih ?_ ?_
      · exact hi.trans (length_modify _ _ _).symm
      · exact (length_modify _ _ _).trans_le hlen

theorem modify_concat {α : Type*} (front : List α) (a : α) (f : α → α) :
    (front ++ [a]).modify front.length f = front ++ [f a] := by
  induction front with
  | nil => rfl
  | cons b front ih =>
    rw [cons_append, length_cons, modify_succ_cons, ih, cons_append]

theorem entries_inside {front : List MenuEntry} {entry : MenuEntry}
    (hmax : n ≤ menuMaxEntries) (hentries : cfg.entries = front ++ [entry])
    (hroom : front.length + 1 + (blocks lines).length ≤ n) :
    (lines.foldl (parseStep n) (cfg, some front.length)).1.entries =
      front ++ applyBody (header lines) entry :: (blocks lines).map blockEntry := by
  induction lines generalizing cfg front entry with
  | nil => exact hentries
  | cons s lines ih =>
    rw [foldl_cons]
    by_cases hs : s.1 = .menuentry
    · obtain ⟨key, value⟩ := s
      cases hs
      have hlen : cfg.entries.length = front.length + 1 := by
        rw [hentries, length_append, length_singleton]
      rw [blocks, if_pos rfl, length_cons] at hroom
      rw [blocks, if_pos rfl, parseStep_next (by omega) (by omega)]
      have hrest := @ih { cfg with entries := cfg.entries ++ [configuredEntry value] }
        cfg.entries (configuredEntry value) rfl (by omega)
      rw [hrest, hentries, append_assoc]
      rfl
    · have hheader : header (s :: lines) = s :: header lines :=
        takeWhile_cons_of_pos (by simpa using hs)
      have hblocks : blocks (s :: lines) = blocks lines := if_neg hs
      rw [hblocks] at hroom ⊢
      rw [parseStep_inside hs, hheader]
      refine ih ?_ hroom
      rw [hentries, modify_concat]

end Inside

section Whole

variable {n : ℕ} {lines : List Setting} {cfg : MenuConfig}

theorem parseStep_outside {s : Setting} (h : s.1 ≠ .menuentry) :
    parseStep n (cfg, none) s =
      (⟨cfg.entries, numberOf .default [s] cfg.defaultIndex,
        numberOf .timeout [s] cfg.timeoutSeconds, cmdlineOf [s] cfg.globalCmdline⟩, none) := by
  obtain ⟨key, value⟩ := s
  cases key with
  | menuentry => exact absurd rfl h
  | timeout => rfl
  | default => rfl
  | cmdline => rfl
  | kernel => rfl
  | ramdisk => rfl
  | hint => rfl
  | other => rfl

theorem cmdlineOf_cons (s : Setting) (start : List UInt8) :
    cmdlineOf (s :: lines) start = cmdlineOf lines (cmdlineOf [s] start) := rfl

theorem foldl_outside (hn : 0 < n) (hmax : n ≤ menuMaxEntries) (hlen : cfg.entries.length = n) :
    let r := (lines.foldl (parseStep n) (cfg, none)).1
    r.timeoutSeconds = numberOf .timeout lines cfg.timeoutSeconds ∧
      r.defaultIndex = numberOf .default lines cfg.defaultIndex ∧
      r.globalCmdline = cmdlineOf (header lines) cfg.globalCmdline ∧
      0 < r.entries.length ∧ r.entries.length ≤ n ∧
      (blocks lines = [] → r.entries = cfg.entries) ∧
      (blocks lines ≠ [] → (blocks lines).length ≤ n →
        r.entries = (blocks lines).map blockEntry) := by
  induction lines generalizing cfg with
  | nil =>
    refine ⟨rfl, rfl, rfl, ?_, ?_, fun _ => rfl, fun h => absurd rfl h⟩
    · exact hn.trans_eq hlen.symm
    · exact hlen.le
  | cons s lines ih =>
    rw [foldl_cons, numberOf_cons .timeout s, numberOf_cons .default s]
    by_cases hs : s.1 = .menuentry
    · obtain ⟨key, value⟩ := s
      cases hs
      have hheader : header ((.menuentry, value) :: lines) = [] :=
        takeWhile_cons_of_neg (by simp)
      have hblocks : blocks ((.menuentry, value) :: lines) =
          ⟨value, header lines⟩ :: blocks lines := if_pos rfl
      rw [numberOf_menuentry (by decide), numberOf_menuentry (by decide),
        parseStep_restart hlen, hheader, hblocks]
      obtain ⟨htimeout, hindex, hcmdline, hpos, hle⟩ := @foldl_inside n 0 lines
        { cfg with entries := [configuredEntry value] } hn hmax rfl hn
      refine ⟨htimeout, hindex, hcmdline, hpos, hle, fun h => absurd h (cons_ne_nil _ _),
        fun _ hroom => ?_⟩
      refine @entries_inside n lines { cfg with entries := [configuredEntry value] } []
        (configuredEntry value) hmax rfl ?_
      rw [length_nil]
      rw [length_cons] at hroom
      omega
    · have hheader : header (s :: lines) = s :: header lines :=
        takeWhile_cons_of_pos (by simpa using hs)
      have hblocks : blocks (s :: lines) = blocks lines := if_neg hs
      rw [parseStep_outside hs, hheader, hblocks, cmdlineOf_cons]
      exact ih hlen

theorem menuParseConfig_eq (behind : List UInt8 → ℕ → UInt8) (config : List UInt8) :
    let r := ((settings behind config).foldl (parseStep builtins.length)
      (menuConfigInitDefaults, none)).1
    menuParseConfig behind menuConfigInitDefaults (some config) =
      { r with defaultIndex := clamp r.entries.length r.defaultIndex } := by
  intro r
  cases config with
  | nil => rfl
  | cons c config =>
    have hpos : 0 < r.entries.length :=
      (@foldl_outside builtins.length (settings behind (c :: config)) menuConfigInitDefaults
        (by decide) (by decide) rfl).2.2.2.1
    have hne : ¬ r.entries.length = 0 := by omega
    change (let s := if r.entries.length = 0 then menuConfigInitDefaults else r
      if s.defaultIndex ≥ s.entries.length then { s with defaultIndex := 0 } else s) = _
    rw [if_neg hne]
    dsimp only
    rw [clamp]
    split
    · rfl
    · rfl

/-- The number of entries that a file leaves. -/
def tableSize (lines : List Setting) : ℕ :=
  if blocks lines = [] then builtins.length else (blocks lines).length

/-- **What a configuration file leaves.** The table is that of the blocks with the settings of
the header just where there are no more blocks than built-in entries, and the lines of the
blocks change neither the timeout nor the default of the header. -/
theorem faithful_iff (behind : List UInt8 → ℕ → UInt8) (config : List UInt8) :
    Faithful (settings behind config) (menuParseConfig behind menuConfigInitDefaults (some config)) ↔
      (blocks (settings behind config)).length ≤ builtins.length ∧
      numberOf .timeout (settings behind config) menuTimeoutSeconds =
        numberOf .timeout (header (settings behind config)) menuTimeoutSeconds ∧
      clamp (tableSize (settings behind config)) (numberOf .default (settings behind config) 0) =
        clamp (tableSize (settings behind config))
          (numberOf .default (header (settings behind config)) 0) := by
  have hsize : builtins.length = 8 := rfl
  rw [menuParseConfig_eq]
  generalize settings behind config = lines
  obtain ⟨htimeout, hindex, hcmdline, hpos, hle, hnone, hsome⟩ :=
    @foldl_outside builtins.length lines menuConfigInitDefaults (by decide) (by decide) rfl
  generalize (lines.foldl (parseStep builtins.length) (menuConfigInitDefaults, none)).1 = r at *
  have hentries : (blocks lines).length ≤ builtins.length →
      r.entries = if blocks lines = [] then builtins
        else ((blocks lines).take menuMaxEntries).map blockEntry := by
    intro hroom
    by_cases hblocks : blocks lines = []
    · rw [if_pos hblocks]
      exact hnone hblocks
    · have hmax : (blocks lines).length ≤ menuMaxEntries := hroom.trans (by decide)
      rw [if_neg hblocks, take_of_length_le hmax]
      exact hsome hblocks hroom
  have hlength : (blocks lines).length ≤ builtins.length → r.entries.length = tableSize lines := by
    intro hroom
    rw [tableSize]
    by_cases hblocks : blocks lines = []
    · rw [if_pos hblocks, hnone hblocks]
      rfl
    · rw [if_neg hblocks, hsome hblocks hroom, length_map]
  constructor
  · intro h
    have hroom : (blocks lines).length ≤ builtins.length := by
      have hfaithful : r.entries.length = _ := congrArg List.length h.entries
      by_cases hblocks : blocks lines = []
      · rw [hblocks]
        exact Nat.zero_le _
      · rw [if_neg hblocks, length_map, length_take] at hfaithful
        rw [menuMaxEntries] at hfaithful
        omega
    refine ⟨hroom, htimeout.symm.trans h.timeout, ?_⟩
    have hclamp := h.index
    dsimp only at hclamp
    rwa [hlength hroom, hindex] at hclamp
  · rintro ⟨hroom, htimeout', hindex'⟩
    refine ⟨hentries hroom, hcmdline, htimeout.trans htimeout', ?_, fun _ => ?_⟩
    · dsimp only
      rw [hlength hroom, hindex]
      exact hindex'
    · dsimp only
      rw [clamp]
      split
      · exact hpos
      · exact not_le.1 ‹_›

/-- A file with nine entries. -/
def nineEntries : List UInt8 := (List.replicate 9 (lit "menuentry=a\n")).flatten

/-- The ninth entry takes the others away. -/
theorem nine_entries_lost :
    ¬ Faithful (settings (fun _ _ => 0) nineEntries)
      (menuParseConfig (fun _ _ => 0) menuConfigInitDefaults (some nineEntries)) := by
  have hsettings : settings (fun _ _ => 0) nineEntries =
      List.replicate 9 (.menuentry, lit "a") := by decide
  intro h
  have hlen := congrArg List.length h.entries
  rw [menuParseConfig_eq, hsettings] at hlen
  exact absurd hlen (by decide)

end Whole

end Cleonos.Boot
