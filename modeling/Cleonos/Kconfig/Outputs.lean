import Cleonos.Kconfig.Model

/-!
# The outputs of the build configuration

`.config`, the header and the variables say the same of every symbol, as long as no symbol that is
enabled has an equals sign in its name, and no two symbols share a macro or a variable for which
they want different texts.
-/

namespace Cleonos.Kconfig

open Assignments (lookup assign defineOnce Agrees)
open List (append_assoc cons_append foldl_cons forall_mem_cons mem_append mem_cons mem_map mem_map_of_mem mem_singleton prefix_append)

variable {u : Casing} {kconfig config : Text} {values symbols table : Dict} {name sym m : Text}

/-! ## Lines -/

/-- A text without line breaks. -/
def Unbroken (s : Text) : Prop := ∀ c ∈ s, isLineBreak c = false

instance (s : Text) : Decidable (Unbroken s) := List.decidableBAll _ s

theorem splitlinesFrom_line {l : Text} (h : Unbroken l) (front rest : Text) :
    splitlinesFrom front (l ++ '\n' :: rest) = (front ++ l) :: splitlinesFrom [] rest := by
  induction l generalizing front with
  | nil =>
    rw [List.nil_append, splitlinesFrom, if_pos (by decide), List.append_nil]
    intro rest' hreturn
    exact absurd hreturn (by decide)
  | cons c l ih =>
    rw [Unbroken, forall_mem_cons] at h
    rw [cons_append, splitlinesFrom, if_neg (by rw [h.1]; decide), ih h.2,
      append_assoc, List.singleton_append]
    intro rest' hreturn
    rw [hreturn] at h
    exact absurd h.1 (by decide)

theorem splitlines_unlines {ls : List Text} (h : ∀ l ∈ ls, Unbroken l) :
    splitlines (Lines.unlines '\n' ls) = ls := by
  induction ls with
  | nil => rfl
  | cons l ls ih =>
    rw [forall_mem_cons] at h
    rw [Lines.unlines_cons, splitlines, splitlinesFrom_line h.1, List.nil_append]
    exact congrArg (l :: ·) (ih h.2)

theorem unbroken_splitlinesFrom {line : Text} (s : Text) (hline : Unbroken line) :
    ∀ l ∈ splitlinesFrom line s, Unbroken l := by
  have hnil : Unbroken [] := fun _ hc => by cases hc
  fun_induction splitlinesFrom line s with
  | case1 => simp
  | case2 line hne =>
    intro l hl
    rwa [mem_singleton.1 hl]
  | case3 line rest ih =>
    rw [forall_mem_cons]
    exact ⟨hline, ih hnil⟩
  | case4 line c rest _ _ ih =>
    rw [forall_mem_cons]
    exact ⟨hline, ih hnil⟩
  | case5 line c rest _ hc ih =>
    apply ih
    intro d hd
    rw [mem_append, mem_singleton] at hd
    rcases hd with hd | rfl
    · exact hline d hd
    · exact Bool.eq_false_iff.2 hc

theorem Unbroken.mono {s t : Text} (h : Unbroken t) (hsub : s.Sublist t) : Unbroken s :=
  fun c hc => h c (hsub.subset hc)

theorem stripBy_sublist (p : Char → Bool) (s : Text) : (stripBy p s).Sublist s :=
  (List.rdropWhile_prefix p _).sublist.trans (List.dropWhile_sublist p)

/-- The symbols have names of one line each, and no name twice. -/
structure AreSymbols (symbols : Dict) : Prop where
  nodup : (symbols.map Prod.fst).Nodup
  unbroken : ∀ sym ∈ symbols.map Prod.fst, Unbroken sym

theorem AreSymbols.assign (h : AreSymbols symbols) (hname : Unbroken name) (kind : Text) :
    AreSymbols (assign name kind symbols) := by
  refine ⟨Keyed.nodup_upsert h.nodup, ?_⟩
  intro sym hsym
  rcases Keyed.mem_map_upsert.1 hsym with hold | rfl
  · exact h.unbroken sym hold
  · exact hname

theorem symbolLine_spec {st : Option Text × Dict} {raw : Text} (hraw : Unbroken raw)
    (hlast : ∀ last, st.1 = some last → Unbroken last) (h : AreSymbols st.2) :
    (∀ last, (symbolLine st raw).1 = some last → Unbroken last) ∧
      AreSymbols (symbolLine st raw).2 := by
  have hline : Unbroken (strip raw) := hraw.mono (stripBy_sublist _ _)
  rw [symbolLine]
  dsimp only
  split
  · have hname : Unbroken (strip ((strip raw).drop (text "config ").length)) :=
      hline.mono ((stripBy_sublist _ _).trans (List.drop_sublist _ _))
    constructor
    · intro last heq
      rwa [← Option.some.inj heq]
    · exact h.assign hname _
  · split
    · exact ⟨hlast, h⟩
    · rename_i last hsome
      split
      · constructor
        · intro last' heq
          rw [← Option.some.inj heq]
          exact hlast last hsome
        · exact h.assign (hlast last hsome) _
      · exact ⟨hlast, h⟩

theorem areSymbols_parse (kconfig : Text) : AreSymbols (parseSymbolsFromKconfig kconfig) := by
  have hlines := @unbroken_splitlinesFrom [] kconfig fun _ hc => by cases hc
  rw [parseSymbolsFromKconfig, splitlines]
  generalize splitlinesFrom [] kconfig = lines at hlines
  have hstart : AreSymbols [] := ⟨List.nodup_nil, fun _ h => by cases h⟩
  suffices h : ∀ st : Option Text × Dict, (∀ last, st.1 = some last → Unbroken last) →
      AreSymbols st.2 → AreSymbols (lines.foldl symbolLine st).2 from
    h (none, []) (fun _ h => by cases h) hstart
  induction lines with
  | nil => exact fun _ _ h => h
  | cons raw lines ih =>
    rw [forall_mem_cons] at hlines
    intro st hlast h
    have hnext := symbolLine_spec hlines.1 hlast h
    exact ih hlines.2 _ hnext.1 hnext.2

/-- The value that is written for a symbol. -/
def assigned (u : Casing) (values : Dict) (name : Text) : Text :=
  let value := u.lowerText (values.get name (text "n"))
  if value = text "y" ∨ value = text "m" then value else text "n"

/-- What `.config` assigns where a line is read back. -/
def lineAssigns (u : Casing) (values : Dict) (name : Text) : Text × Text :=
  if assigned u values name = text "n" then (name, text "n")
  else
    (name.takeWhile (· ≠ '='),
      stripBy (· = '"')
        (strip (((name ++ '=' :: assigned u values name).dropWhile (· ≠ '=')).drop 1)))

theorem assigned_cases (u : Casing) (values : Dict) (name : Text) :
    assigned u values name = text "y" ∨ assigned u values name = text "m" ∨
      assigned u values name = text "n" := by
  rw [assigned]
  split
  case isTrue hon => exact hon.imp_right .inl
  case isFalse => exact .inr (.inr rfl)

theorem configText_eq (u : Casing) (values : Dict) (name : Text) : configText u values name =
    if assigned u values name = text "n" then text "# CONFIG_" ++ name ++ text " is not set"
    else text "CONFIG_" ++ name ++ '=' :: assigned u values name := by
  rw [configText, assigned]
  by_cases hon : u.lowerText (values.get name (text "n")) = text "y" ∨
      u.lowerText (values.get name (text "n")) = text "m"
  · rw [if_pos hon, if_pos hon, if_neg]
    · simp [text]
    · rcases hon with hon | hon
      · rw [hon]
        decide
      · rw [hon]
        decide
  · rw [if_neg hon, if_neg hon, if_pos rfl]

theorem strip_of_ends {first last : Char} (s : Text) (hfirst : isSpace first = false)
    (hlast : isSpace last = false) : strip (first :: (s ++ [last])) = first :: (s ++ [last]) := by
  rw [strip, stripBy, List.dropWhile_cons_of_neg (by simp [hfirst]), ← cons_append,
    List.rdropWhile_concat_neg _ _ _ (by simp [hlast])]

theorem takeWhile_equals (name value : Text) :
    (name ++ '=' :: value).takeWhile (· ≠ '=') = name.takeWhile (· ≠ '=') := by
  induction name with
  | nil => rfl
  | cons c name ih =>
    rw [cons_append, List.takeWhile_cons, List.takeWhile_cons, ih]

theorem configLine_unset (table : Dict) (name : Text) :
    configLine table (text "# CONFIG_" ++ name ++ text " is not set") =
      assign name (text "n") table := by
  have hstrip : strip (text "# CONFIG_" ++ name ++ text " is not set") =
      text "# CONFIG_" ++ name ++ text " is not set" := by
    have h := strip_of_ends (text " CONFIG_" ++ name ++ text " is not se")
      (by decide : isSpace '#' = false) (by decide : isSpace 't' = false)
    simpa [text] using h
  rw [configLine, hstrip]
  dsimp only
  rw [if_neg (by simp [text]), if_pos, append_assoc, List.drop_left, List.rdrop_append_length]
  constructor
  · rw [append_assoc]
    exact prefix_append _ _
  · exact List.suffix_append _ _

theorem configLine_set (table : Dict) (name : Text) {value : Text}
    (hvalue : value = text "y" ∨ value = text "m") :
    configLine table (text "CONFIG_" ++ name ++ '=' :: value) =
      assign (name.takeWhile (· ≠ '='))
        (stripBy (· = '"') (strip (((name ++ '=' :: value).dropWhile (· ≠ '=')).drop 1)))
        table := by
  have hstrip : strip (text "CONFIG_" ++ name ++ '=' :: value) =
      text "CONFIG_" ++ name ++ '=' :: value := by
    rcases hvalue with rfl | rfl
    · have h := strip_of_ends (text "ONFIG_" ++ name ++ ['=']) (by decide : isSpace 'C' = false)
        (by decide : isSpace 'y' = false)
      simpa [text] using h
    · have h := strip_of_ends (text "ONFIG_" ++ name ++ ['=']) (by decide : isSpace 'C' = false)
        (by decide : isSpace 'm' = false)
      simpa [text] using h
  have hfront : ∀ c ∈ text "CONFIG_", decide (c ≠ '=') = true := by
    rw [← List.all_eq_true]
    decide
  rw [configLine, hstrip]
  dsimp only
  rw [if_neg (by simp [text]), if_neg, if_pos, append_assoc,
    List.takeWhile_append_of_pos hfront, List.dropWhile_append_of_pos hfront, List.drop_left]
  · rw [takeWhile_equals]
  · exact ⟨by rw [append_assoc]; exact prefix_append _ _, by simp⟩
  · intro h
    have hhead := h.1
    rw [append_assoc] at hhead
    simp [text] at hhead

theorem configLine_configText (u : Casing) (values table : Dict) (name : Text) :
    configLine table (configText u values name) =
      assign (lineAssigns u values name).1 (lineAssigns u values name).2 table := by
  rw [configText_eq, lineAssigns]
  split
  case isTrue => exact configLine_unset table name
  case isFalse hon =>
    apply configLine_set
    rcases assigned_cases u values name with hy | hm | hn
    · exact .inl hy
    · exact .inr hm
    · exact absurd hn hon

theorem unbroken_configText (u : Casing) (values : Dict) (hname : Unbroken name) :
    Unbroken (configText u values name) := by
  rw [configText_eq]
  split
  case isTrue =>
    intro c hc
    rw [mem_append, mem_append] at hc
    rcases hc with (hc | hc) | hc
    · exact (by decide : Unbroken (text "# CONFIG_")) c hc
    · exact hname c hc
    · exact (by decide : Unbroken (text " is not set")) c hc
  case isFalse =>
    have hvalue : Unbroken (assigned u values name) := by
      rcases assigned_cases u values name with h | h | h
      · rw [h]
        decide
      · rw [h]
        decide
      · rw [h]
        decide
    intro c hc
    rw [mem_append, mem_append, mem_cons] at hc
    rcases hc with (hc | hc) | rfl | hc
    · exact (by decide : Unbroken (text "CONFIG_")) c hc
    · exact hname c hc
    · decide
    · exact hvalue c hc

theorem mem_sorted : sym ∈ sorted symbols ↔ sym ∈ symbols.map Prod.fst :=
  List.mem_insertionSort _

theorem parseConfig_writeConfig (u : Casing) (values : Dict) (h : AreSymbols symbols) :
    parseConfig (some (writeConfig u values symbols)) =
      ((sorted symbols).map (lineAssigns u values)).foldl
        (fun table p => assign p.1 p.2 table) [] := by
  have hsorted : ∀ sym ∈ sorted symbols, Unbroken sym :=
    fun sym hsym => h.unbroken sym (mem_sorted.1 hsym)
  have hlines : ∀ l ∈ text "# Auto-generated by scripts/kconfig_sync.py" :: [] ::
      (sorted symbols).map (configText u values), Unbroken l := by
    rw [forall_mem_cons, forall_mem_cons]
    refine ⟨by decide, by decide, ?_⟩
    intro l hl
    obtain ⟨sym, hsym, rfl⟩ := mem_map.1 hl
    exact unbroken_configText u values (hsorted sym hsym)
  rw [parseConfig, writeConfig, splitlines_unlines hlines, foldl_cons, foldl_cons]
  change ((sorted symbols).map (configText u values)).foldl configLine [] = _
  rw [List.foldl_map, List.foldl_map]
  congr 1
  ext table sym
  rw [configLine_configText]

section Outputs

variable (u : Casing)

def IsOn (values : Dict) (name : Text) : Prop := assigned u values name ≠ text "n"

instance (values : Dict) (name : Text) : Decidable (IsOn u values name) :=
  inferInstanceAs (Decidable (_ ≠ _))

/-- The text that denotes the value of a symbol of some kind. -/
def variableText (kind value : Text) : Text :=
  if kind = text "tristate" then
    if value = text "y" then text "Y" else if value = text "m" then text "M" else text "N"
  else boolText (decide (value ≠ text "n"))

/-- The macros of a symbol: its own, and the one that is kept for it as an alias. -/
def IsMacroOf (m sym : Text) : Prop :=
  m = macroForSymbol u sym ∨ sym ∈ aliases.map Prod.fst ∧ m = text "CLKS_CFG_" ++ sym

/-- The outputs of a run say of every symbol what is written for it. -/
structure OutputsAgree (kconfig : Text) (values : Dict) : Prop where
  config : ∀ name, lookup name (parseConfig (some (sync u kconfig values).1)) =
    if name ∈ (parseSymbolsFromKconfig kconfig).map Prod.fst then some (assigned u values name)
    else none
  macros : ∀ sym ∈ (parseSymbolsFromKconfig kconfig).map Prod.fst, ∀ m, IsMacroOf u m sym →
    expand (preprocess (sync u kconfig values).2.2 0 []) m =
      some (enabledText (decide (IsOn u values sym)))
  -- the last assignment to a variable counts
  vars : ∀ p ∈ parseSymbolsFromKconfig kconfig,
    lookup (legacy p.1) (sync u kconfig values).2.1.reverse =
      some (variableText p.2 (assigned u values p.1)) ∧
    (p.2 = text "tristate" →
      lookup (legacy p.1 ++ text "_IS_ENABLED") (sync u kconfig values).2.1.reverse =
        some (boolText (decide (IsOn u values p.1))))
  once : ∀ m b b', Directive.define m b ∈ (sync u kconfig values).2.2 →
    Directive.define m b' ∈ (sync u kconfig values).2.2 → b = b'

/-- The symbols for which that is so. -/
structure Consistent (kconfig : Text) (values : Dict) : Prop where
  plain : ∀ sym ∈ (parseSymbolsFromKconfig kconfig).map Prod.fst, IsOn u values sym → '=' ∉ sym
  macros : ∀ sym ∈ (parseSymbolsFromKconfig kconfig).map Prod.fst,
    ∀ sym' ∈ (parseSymbolsFromKconfig kconfig).map Prod.fst,
    ∀ m, IsMacroOf u m sym → IsMacroOf u m sym' → (IsOn u values sym ↔ IsOn u values sym')
  vars : ∀ p ∈ parseSymbolsFromKconfig kconfig, ∀ q ∈ parseSymbolsFromKconfig kconfig,
    p.2 = text "tristate" → q.1 = p.1 ++ text "_IS_ENABLED" →
    variableText q.2 (assigned u values q.1) = boolText (decide (IsOn u values p.1))

end Outputs

theorem lineAssigns_of_plain (h : IsOn u values name → '=' ∉ name) :
    lineAssigns u values name = (name, assigned u values name) := by
  rw [lineAssigns]
  split
  case isTrue hoff => rw [hoff]
  case isFalse hon =>
    have hname := h hon
    have hplain : ∀ c ∈ name, decide (c ≠ '=') = true := by
      intro c hc
      rw [decide_eq_true_eq]
      exact ne_of_mem_of_not_mem hc hname
    rw [List.takeWhile_eq_self_iff.2 hplain, List.dropWhile_append_of_pos hplain]
    congr 1
    rcases assigned_cases u values name with hy | hm | hn
    · rw [hy]
      decide
    · rw [hm]
      decide
    · exact absurd hn hon

theorem readBack_eq (u : Casing) (values : Dict) (h : AreSymbols symbols) (name : Text) :
    lookup name (parseConfig (some (writeConfig u values symbols))) =
      lookup name ((sorted symbols).map (lineAssigns u values)).reverse := by
  rw [parseConfig_writeConfig u values h, Assignments.lookup_foldl_assign, List.append_nil]

theorem lookup_readBack (h : AreSymbols symbols)
    (hplain : ∀ sym ∈ symbols.map Prod.fst, IsOn u values sym → '=' ∉ sym) (name : Text) :
    lookup name (parseConfig (some (writeConfig u values symbols))) =
      if name ∈ symbols.map Prod.fst then some (assigned u values name) else none := by
  have hpairs : (sorted symbols).map (lineAssigns u values) =
      (sorted symbols).map fun sym => (sym, assigned u values sym) := by
    apply List.map_congr_left
    intro sym hsym
    exact lineAssigns_of_plain (hplain sym (mem_sorted.1 hsym))
  rw [readBack_eq u values h, hpairs]
  split
  case isTrue hmem =>
    apply Agrees.lookup_reverse
    constructor
    · exact mem_map.2 ⟨name, mem_sorted.2 hmem, rfl⟩
    · intro value hvalue
      obtain ⟨sym, -, heq⟩ := mem_map.1 hvalue
      cases heq
      rfl
  case isFalse hmem =>
    apply Assignments.lookup_eq_none
    intro value hvalue
    obtain ⟨sym, hsym, heq⟩ := mem_map.1 (List.mem_reverse.1 hvalue)
    cases heq
    exact hmem (mem_sorted.1 hsym)

theorem lookup_readBack_of_equals (h : AreSymbols symbols) (hon : IsOn u values sym)
    (hequals : '=' ∈ sym) :
    lookup sym (parseConfig (some (writeConfig u values symbols))) = none := by
  rw [readBack_eq u values h]
  apply Assignments.lookup_eq_none
  intro value hvalue
  obtain ⟨sym', -, heq⟩ := mem_map.1 (List.mem_reverse.1 hvalue)
  rw [lineAssigns] at heq
  split at heq
  case isTrue hoff =>
    cases heq
    exact hon hoff
  case isFalse =>
    have hname := congrArg Prod.fst heq
    dsimp only at hname
    rw [← hname] at hequals
    simpa using List.mem_takeWhile_imp hequals

theorem preprocess_guarded (name body : Text) (rest : List Directive) (defined : Dict) :
    preprocess (guarded name body ++ rest) 0 defined =
      preprocess rest 0 (defineOnce name body defined) := by
  rw [guarded, defineOnce]
  cases hthere : (lookup name defined).isSome with
  | true =>
    change preprocess _ (if (lookup name defined).isSome then 1 else 0) defined = _
    rw [hthere]
    rfl
  | false =>
    change preprocess _ (if (lookup name defined).isSome then 1 else 0) defined = _
    rw [hthere]
    rfl

theorem preprocess_macros (pairs : List (Text × Text)) (defined : Dict) :
    preprocess (pairs.flatMap (fun p => guarded p.1 p.2) ++ [.endif]) 0 defined =
      pairs.foldl (fun table p => defineOnce p.1 p.2 table) defined := by
  induction pairs generalizing defined with
  | nil => rfl
  | cons p pairs ih =>
    rw [List.flatMap_cons, append_assoc, preprocess_guarded, ih, foldl_cons]

theorem lookup_header (u : Casing) (symbols values : Dict) (name : Text) :
    lookup name (preprocess (header u symbols values) 0 []) =
      lookup name ((text "BDT_GENERATED_CLKS_CONFIG_H", []) :: macros u symbols values) := by
  rw [header]
  change lookup name (preprocess _ 0 [(text "BDT_GENERATED_CLKS_CONFIG_H", [])]) = _
  rw [preprocess_macros, Assignments.lookup_foldl_defineOnce]
  rfl

/-- The macro of every symbol starts so. -/
def clksCfg : Text := text "CLKS_CFG_"

theorem isMacroOf_starts (h : IsMacroOf u m sym) : clksCfg <+: m := by
  rcases h with rfl | ⟨-, rfl⟩
  · exact prefix_append _ _
  · exact prefix_append _ _

theorem mem_header {body : Text} (hm : clksCfg <+: m) :
    (m, body) ∈ (text "BDT_GENERATED_CLKS_CONFIG_H", []) :: macros u symbols values ↔
      (m, body) ∈ (sorted symbols).map (headerOf u values) ∨ (m, body) ∈ aliasMacros u symbols := by
  rw [macros, mem_cons, mem_cons, mem_append]
  have hguard : (m, body) ≠ (text "BDT_GENERATED_CLKS_CONFIG_H", []) := by
    intro heq
    have hname : m = text "BDT_GENERATED_CLKS_CONFIG_H" := congrArg Prod.fst heq
    rw [hname] at hm
    exact absurd hm (by decide)
  have harch : (m, body) ≠ (text "CLKS_ARCH_X86_64", text "1") := by
    intro heq
    have hname : m = text "CLKS_ARCH_X86_64" := congrArg Prod.fst heq
    rw [hname] at hm
    exact absurd hm (by decide)
  rw [or_iff_right hguard, or_iff_right harch]

theorem mem_aliasMacros {body : Text} : (m, body) ∈ aliasMacros u symbols ↔
    text "EXTERNAL_PSF" ∈ symbols.map Prod.fst ∧
      text "CLKS_CFG_EXTERNAL_PSF" ∉ (sorted symbols).map (macroForSymbol u) ∧
      m = text "CLKS_CFG_EXTERNAL_PSF" ∧ body = text "CLKS_CFG_EXTERNAL_TTY_FONT" := by
  have hold : text "CLKS_CFG_" ++ text "EXTERNAL_PSF" = text "CLKS_CFG_EXTERNAL_PSF" := by decide
  have hnew : text "CLKS_CFG_" ++ text "EXTERNAL_TTY_FONT" = text "CLKS_CFG_EXTERNAL_TTY_FONT" := by
    decide
  rw [aliasMacros, aliases]
  dsimp only [List.filterMap_cons]
  rw [hold, hnew]
  split
  case h_1 hnone =>
    split at hnone
    case isTrue => cases hnone
    case isFalse hcond =>
      constructor
      · intro hmem
        cases hmem
      · rintro ⟨hin, hout, -⟩
        exact absurd ⟨hin, hout⟩ hcond
  case h_2 p hsome =>
    split at hsome
    case isFalse => cases hsome
    case isTrue hcond =>
      rw [← Option.some.inj hsome, List.filterMap_nil, mem_singleton, Prod.mk.injEq]
      exact ⟨fun h => ⟨hcond.1, hcond.2, h⟩, fun h => h.2.2⟩

theorem macroForSymbol_alias (u : Casing) :
    macroForSymbol u (text "EXTERNAL_PSF") = text "CLKS_CFG_EXTERNAL_TTY_FONT" := rfl

/-- The dictionary that is exported has the values that were written. -/
def ReadBack (u : Casing) (symbols values read : Dict) : Prop :=
  ∀ sym ∈ symbols.map Prod.fst, read.get sym (text "n") = assigned u values sym

theorem lowerText_assigned (u : Casing) (values : Dict) (name : Text) :
    u.lowerText (assigned u values name) = assigned u values name := by
  rcases assigned_cases u values name with h | h | h
  · rw [h]
    rfl
  · rw [h]
    rfl
  · rw [h]
    rfl

theorem enabled_assigned (u : Casing) (values : Dict) (name : Text) :
    enabled u (assigned u values name) = decide (IsOn u values name) := by
  rw [enabled, lowerText_assigned]
  apply decide_eq_decide.2
  rw [IsOn]
  rcases assigned_cases u values name with h | h | h
  · rw [h]
    decide
  · rw [h]
    decide
  · rw [h]
    decide

theorem headerOf_eq {read : Dict} (hread : ReadBack u symbols values read)
    (hsym : sym ∈ symbols.map Prod.fst) : headerOf u read sym =
      (macroForSymbol u sym, enabledText (decide (IsOn u values sym))) := by
  rw [headerOf, hread sym hsym, lowerText_assigned, enabled_assigned]

section Header

variable {read : Dict} (hread : ReadBack u symbols values read)

include hread

theorem mem_symbolMacros {body : Text} : (m, body) ∈ (sorted symbols).map (headerOf u read) ↔
    ∃ sym ∈ symbols.map Prod.fst, m = macroForSymbol u sym ∧
      body = enabledText (decide (IsOn u values sym)) := by
  rw [mem_map]
  constructor
  · rintro ⟨sym, hsym, heq⟩
    rw [mem_sorted] at hsym
    rw [headerOf_eq hread hsym, Prod.mk.injEq] at heq
    exact ⟨sym, hsym, heq.1.symm, heq.2.symm⟩
  · rintro ⟨sym, hsym, rfl, rfl⟩
    exact ⟨sym, mem_sorted.2 hsym, headerOf_eq hread hsym⟩

theorem lookup_enabledText (on : Bool) : lookup (enabledText on)
    ((text "BDT_GENERATED_CLKS_CONFIG_H", []) :: macros u symbols read) = none := by
  apply Assignments.lookup_eq_none
  intro body hmem
  have hnot : ¬ clksCfg <+: enabledText on := by
    cases on with
    | true => decide
    | false => decide
  have hlength : (enabledText on).length = 1 := by
    cases on with
    | true => rfl
    | false => rfl
  rw [macros, mem_cons, mem_cons, mem_append] at hmem
  rcases hmem with hguard | harch | hsymbol | halias
  · have hname := congrArg (fun p => p.1.length) hguard
    rw [hlength] at hname
    cases hname
  · have hname := congrArg (fun p => p.1.length) harch
    rw [hlength] at hname
    cases hname
  · obtain ⟨sym, -, hname, -⟩ := (mem_symbolMacros hread).1 hsymbol
    exact hnot (hname ▸ prefix_append _ _)
  · have hname := (mem_aliasMacros.1 halias).2.2.1
    rw [hname] at hlength
    cases hlength

variable (hmacros : ∀ sym ∈ symbols.map Prod.fst, ∀ sym' ∈ symbols.map Prod.fst,
  ∀ m, IsMacroOf u m sym → IsMacroOf u m sym' → (IsOn u values sym ↔ IsOn u values sym'))

include hmacros

theorem agrees_exported (hsym : sym ∈ symbols.map Prod.fst) (hm : IsMacroOf u m sym)
    (hexported : m ∈ (sorted symbols).map (macroForSymbol u)) :
    Agrees ((text "BDT_GENERATED_CLKS_CONFIG_H", []) :: macros u symbols read) m
      (enabledText (decide (IsOn u values sym))) := by
  have hsame (sym' : Text) (hsym' : sym' ∈ symbols.map Prod.fst) (hm' : m = macroForSymbol u sym') :
      enabledText (decide (IsOn u values sym')) = enabledText (decide (IsOn u values sym)) :=
    congrArg enabledText (decide_eq_decide.2 (hmacros sym' hsym' sym hsym m (.inl hm') hm))
  constructor
  · obtain ⟨sym', hsym', rfl⟩ := mem_map.1 hexported
    rw [mem_sorted] at hsym'
    apply (mem_header (isMacroOf_starts hm)).2
    refine .inl ((mem_symbolMacros hread).2 ⟨sym', hsym', rfl, ?_⟩)
    exact (hsame sym' hsym' rfl).symm
  · intro body hmem
    rcases (mem_header (isMacroOf_starts hm)).1 hmem with hsymbol | halias
    · obtain ⟨sym', hsym', hm', rfl⟩ := (mem_symbolMacros hread).1 hsymbol
      exact hsame sym' hsym' hm'
    · have hnot := (mem_aliasMacros.1 halias).2
      rw [hnot.2.1] at hexported
      exact absurd hexported hnot.1

theorem expand_macro (hsym : sym ∈ symbols.map Prod.fst) (hm : IsMacroOf u m sym) :
    expand (preprocess (header u symbols read) 0 []) m =
      some (enabledText (decide (IsOn u values sym))) := by
  rw [expand, lookup_header]
  by_cases hexported : m ∈ (sorted symbols).map (macroForSymbol u)
  · rw [(agrees_exported hread hmacros hsym hm hexported).lookup, Option.map_some, lookup_header,
      lookup_enabledText hread]
    rfl
  · rcases hm with rfl | ⟨halias, rfl⟩
    · exact absurd (mem_map_of_mem (mem_sorted.2 hsym)) hexported
    · -- the macro of the alias is replaced with that of the symbol
      have hpsf : sym = text "EXTERNAL_PSF" := mem_singleton.1 halias
      rw [hpsf] at hsym hexported ⊢
      have hown := macroForSymbol_alias u
      have hagrees : Agrees ((text "BDT_GENERATED_CLKS_CONFIG_H", []) :: macros u symbols read)
          (text "CLKS_CFG_" ++ text "EXTERNAL_PSF") (text "CLKS_CFG_EXTERNAL_TTY_FONT") := by
        constructor
        · apply (mem_header (prefix_append _ _)).2
          exact .inr (mem_aliasMacros.2 ⟨hsym, hexported, rfl, rfl⟩)
        · intro body hmem
          rcases (mem_header (prefix_append _ _)).1 hmem with hsymbol | hbody
          · obtain ⟨sym', hsym', hm', -⟩ := (mem_symbolMacros hread).1 hsymbol
            have hin : macroForSymbol u sym' ∈ (sorted symbols).map (macroForSymbol u) :=
              mem_map_of_mem (mem_sorted.2 hsym')
            rw [← hm'] at hin
            exact absurd hin hexported
          · exact (mem_aliasMacros.1 hbody).2.2.2
      have htarget := agrees_exported hread hmacros hsym (.inl rfl)
        (mem_map_of_mem (mem_sorted.2 hsym))
      rw [hown] at htarget
      rw [hagrees.lookup, Option.map_some, lookup_header, htarget.lookup]
      rfl

omit hread hmacros in
theorem define_mem_header {body : Text} : Directive.define m body ∈ header u symbols read ↔
    (m, body) ∈ (text "BDT_GENERATED_CLKS_CONFIG_H", []) :: macros u symbols read := by
  rw [header, mem_cons, mem_cons, mem_append, mem_singleton, List.mem_flatMap,
    mem_cons, or_iff_right (by simp), Directive.define.injEq, Prod.mk.injEq]
  apply or_congr_right
  rw [or_iff_left (by simp)]
  constructor
  · rintro ⟨p, hp, hdefine⟩
    rw [guarded, mem_cons, mem_cons, mem_singleton, or_iff_right (by simp),
      or_iff_left (by simp), Directive.define.injEq] at hdefine
    rwa [hdefine.1, hdefine.2]
  · intro hp
    refine ⟨_, hp, ?_⟩
    simp [guarded]

theorem define_once {body body' : Text} (h : Directive.define m body ∈ header u symbols read)
    (h' : Directive.define m body' ∈ header u symbols read) : body = body' := by
  rw [define_mem_header] at h h'
  by_cases hm : clksCfg <+: m
  · rw [mem_header hm] at h h'
    rcases h with hsymbol | halias
    · obtain ⟨sym, hsym, rfl, rfl⟩ := (mem_symbolMacros hread).1 hsymbol
      have hexported : macroForSymbol u sym ∈ (sorted symbols).map (macroForSymbol u) :=
        mem_map_of_mem (mem_sorted.2 hsym)
      have hagrees := agrees_exported hread hmacros hsym (.inl rfl) hexported
      exact (hagrees.2 body' ((mem_header hm).2 h')).symm
    · have hbody := mem_aliasMacros.1 halias
      rcases h' with hsymbol | halias'
      · obtain ⟨sym, hsym, hname, -⟩ := (mem_symbolMacros hread).1 hsymbol
        have hexported : macroForSymbol u sym ∈ (sorted symbols).map (macroForSymbol u) :=
          mem_map_of_mem (mem_sorted.2 hsym)
        rw [← hname, hbody.2.2.1] at hexported
        exact absurd hexported hbody.2.1
      · rw [hbody.2.2.2, (mem_aliasMacros.1 halias').2.2.2]
  · have hfixed {b : Text} (hb : (m, b) ∈
        (text "BDT_GENERATED_CLKS_CONFIG_H", []) :: macros u symbols read) :
        b = if m = text "CLKS_ARCH_X86_64" then text "1" else [] := by
      rw [macros, mem_cons, mem_cons, mem_append, Prod.mk.injEq, Prod.mk.injEq] at hb
      rcases hb with hguard | harch | hsymbol | halias
      · rw [hguard.1, hguard.2, if_neg (by decide)]
      · rw [harch.1, harch.2, if_pos rfl]
      · obtain ⟨sym, -, hname, -⟩ := (mem_symbolMacros hread).1 hsymbol
        exact absurd (hname ▸ prefix_append _ _) hm
      · have hname := (mem_aliasMacros.1 halias).2.2.1
        rw [hname] at hm
        exact absurd (by decide) hm
    rw [hfixed h, hfixed h']

end Header

/-! ## The variables -/

theorem bdtText_assigned (kind : Text) (u : Casing) (values : Dict) (name : Text) :
    bdtText u kind (assigned u values name) = variableText kind (assigned u values name) := by
  rw [bdtText, variableText, enabled_assigned]
  split
  · rcases assigned_cases u values name with h | h | h
    · rw [h]
      rfl
    · rw [h]
      rfl
    · rw [h]
      rfl
  · rfl

theorem get_kind (h : AreSymbols symbols) {p : Text × Text} (hp : p ∈ symbols) :
    Dict.get symbols p.1 [] = p.2 := by
  have hagrees : Agrees symbols p.1 p.2 := by
    refine ⟨hp, ?_⟩
    intro kind hkind
    exact congrArg Prod.snd (List.inj_on_of_nodup_map h.nodup hkind hp rfl)
  rw [Dict.get, hagrees.lookup]
  rfl

theorem legacy_inj {sym sym' : Text} : legacy sym = legacy sym' ↔ sym = sym' :=
  List.append_right_inj _

theorem legacy_append (sym tail : Text) : legacy (sym ++ tail) = legacy sym ++ tail :=
  (append_assoc _ _ _).symm

section Variables

variable {read : Dict} {body : Text}

variable {p : Text × Text}

theorem bdtOf_eq (h : AreSymbols symbols) (hread : ReadBack u symbols values read) (hp : p ∈ symbols) : bdtOf u symbols read p.1 =
      (legacy p.1, variableText p.2 (assigned u values p.1)) :: if p.2 = text "tristate" then
          [(legacy p.1 ++ text "_IS_ENABLED", boolText (decide (IsOn u values p.1)))] else [] := by
  rw [bdtOf, hread p.1 (mem_map_of_mem hp), lowerText_assigned, get_kind h hp,
    bdtText_assigned, enabled_assigned]

theorem mem_bdt (h : AreSymbols symbols) (hread : ReadBack u symbols values read)
    (hm : text "CLEONOS_CLKS_ENABLE_" <+: m) : (m, body) ∈ bdt u symbols read ↔
      ∃ p ∈ symbols, m = legacy p.1 ∧ body = variableText p.2 (assigned u values p.1) ∨
        p.2 = text "tristate" ∧ m = legacy p.1 ++ text "_IS_ENABLED" ∧
          body = boolText (decide (IsOn u values p.1)) := by
  have hloaded : (m, body) ≠ (text "CLEONOS_MENUCONFIG_CLKS_LOADED", text "true") := by
    intro heq
    have hname : m = text "CLEONOS_MENUCONFIG_CLKS_LOADED" := congrArg Prod.fst heq
    rw [hname] at hm
    exact absurd hm (by decide)
  have hone {p : Text × Text} (hp : p ∈ symbols) : (m, body) ∈ bdtOf u symbols read p.1 ↔
      m = legacy p.1 ∧ body = variableText p.2 (assigned u values p.1) ∨
        p.2 = text "tristate" ∧ m = legacy p.1 ++ text "_IS_ENABLED" ∧
          body = boolText (decide (IsOn u values p.1)) := by
    rw [bdtOf_eq h hread hp, mem_cons, Prod.mk.injEq]
    apply or_congr_right
    split
    case isTrue hkind => rw [mem_singleton, Prod.mk.injEq, and_iff_right hkind]
    case isFalse hkind => simp [hkind]
  rw [bdt, mem_cons, or_iff_right hloaded, List.mem_flatMap]
  constructor
  · rintro ⟨sym, hsym, hmem⟩
    obtain ⟨p, hp, rfl⟩ := mem_map.1 (mem_sorted.1 hsym)
    exact ⟨p, hp, (hone hp).1 hmem⟩
  · rintro ⟨p, hp, hmem⟩
    exact ⟨p.1, mem_sorted.2 (mem_map_of_mem hp), (hone hp).2 hmem⟩

theorem kind_unique (h : AreSymbols symbols) {q : Text × Text} (hp : p ∈ symbols)
    (hq : q ∈ symbols) (heq : p.1 = q.1) : p = q :=
  List.inj_on_of_nodup_map h.nodup hp hq heq

variable (h : AreSymbols symbols) (hread : ReadBack u symbols values read)
  (hvars : ∀ p ∈ symbols, ∀ q ∈ symbols, p.2 = text "tristate" →
    q.1 = p.1 ++ text "_IS_ENABLED" →
    variableText q.2 (assigned u values q.1) = boolText (decide (IsOn u values p.1)))

include h hread hvars

theorem lookup_legacy (hp : p ∈ symbols) : lookup (legacy p.1) (bdt u symbols read).reverse =
      some (variableText p.2 (assigned u values p.1)) := by
  apply Agrees.lookup_reverse
  constructor
  · exact (mem_bdt h hread (prefix_append _ _)).2 ⟨p, hp, .inl ⟨rfl, rfl⟩⟩
  · intro body hmem
    obtain ⟨q, hq, ⟨hname, rfl⟩ | ⟨hkind, hname, rfl⟩⟩ :=
      (mem_bdt h hread (prefix_append _ _)).1 hmem
    · rw [kind_unique h hp hq (legacy_inj.1 hname)]
    · rw [← legacy_append] at hname
      exact (hvars q hq p hp hkind (legacy_inj.1 hname)).symm

theorem lookup_isEnabled (hp : p ∈ symbols) (hkind : p.2 = text "tristate") :
    lookup (legacy p.1 ++ text "_IS_ENABLED") (bdt u symbols read).reverse =
      some (boolText (decide (IsOn u values p.1))) := by
  have hstarts : text "CLEONOS_CLKS_ENABLE_" <+: legacy p.1 ++ text "_IS_ENABLED" :=
    (prefix_append _ _).trans (prefix_append _ _)
  apply Agrees.lookup_reverse
  constructor
  · exact (mem_bdt h hread hstarts).2 ⟨p, hp, .inr ⟨hkind, rfl, rfl⟩⟩
  · intro body hmem
    obtain ⟨q, hq, ⟨hname, rfl⟩ | ⟨-, hname, rfl⟩⟩ := (mem_bdt h hread hstarts).1 hmem
    · rw [← legacy_append, legacy_inj] at hname
      exact hvars p hp q hq hkind hname.symm
    · rw [legacy_inj.1 (List.append_cancel_right hname)]

end Variables

theorem readBack_of_lookup {read : Dict} (h : ∀ name, lookup name read =
    if name ∈ symbols.map Prod.fst then some (assigned u values name) else none) :
    ReadBack u symbols values read := by
  intro sym hsym
  rw [Dict.get, h sym, if_pos hsym]
  rfl

theorem Consistent.outputsAgree (hcons : Consistent u kconfig values) :
    OutputsAgree u kconfig values := by
  have hsymbols := areSymbols_parse kconfig
  have hconfig := @lookup_readBack u values _ hsymbols hcons.plain
  have hread := readBack_of_lookup hconfig
  constructor
  · exact hconfig
  · intro sym hsym m hm
    exact expand_macro hread hcons.macros hsym hm
  · intro p hp
    exact ⟨lookup_legacy hsymbols hread hcons.vars hp,
      lookup_isEnabled hsymbols hread hcons.vars hp⟩
  · intro m b b' hb hb'
    exact define_once hread hcons.macros hb hb'

theorem enabledText_inj {on on' : Bool} (h : enabledText on = enabledText on') : on = on' := by
  revert h
  cases on with
  | true =>
    cases on' with
    | true => simp
    | false => decide
  | false =>
    cases on' with
    | true => decide
    | false => simp

theorem OutputsAgree.consistent (hagree : OutputsAgree u kconfig values) :
    Consistent u kconfig values := by
  have hsymbols := areSymbols_parse kconfig
  constructor
  · intro sym hsym hon hequals
    have hlookup := hagree.config sym
    rw [if_pos hsym] at hlookup
    have hnone : lookup sym (parseConfig (some (sync u kconfig values).1)) = none :=
      lookup_readBack_of_equals hsymbols hon hequals
    rw [hnone] at hlookup
    cases hlookup
  · intro sym hsym sym' hsym' m hm hm'
    have heq := hagree.macros sym hsym m hm
    rw [hagree.macros sym' hsym' m hm'] at heq
    exact (decide_eq_decide.1 (enabledText_inj (Option.some.inj heq))).symm
  · intro p hp q hq hkind hname
    have heq := (hagree.vars q hq).1
    have hlegacy : legacy q.1 = legacy p.1 ++ text "_IS_ENABLED" := by rw [hname, legacy_append]
    rw [hlegacy, (hagree.vars p hp).2 hkind] at heq
    exact (Option.some.inj heq).symm

/-- The outputs say the same of every symbol if and only if the symbols are consistent: no symbol
that is enabled has an equals sign, symbols that share a macro are enabled together, and no symbol
takes the variable of a tristate for something else. -/
theorem outputs_agree_iff (u : Casing) (kconfig : Text) (values : Dict) :
    OutputsAgree u kconfig values ↔ Consistent u kconfig values :=
  ⟨OutputsAgree.consistent, Consistent.outputsAgree⟩

/-- A symbol with an alias, and a symbol that is the alias. -/
def twoFonts : Text :=
  text "config EXTERNAL_PSF\n  bool\nconfig EXTERNAL_TTY_FONT\n  bool\n"

/-- The header takes the second symbol for enabled. -/
theorem fonts_disagree :
    ¬ ∀ (u : Casing) (kconfig : Text) (values : Dict), OutputsAgree u kconfig values := by
  intro hall
  have hfont := (hall ⟨fun c => [c], fun c => [c]⟩ twoFonts (parseConfig
      (some (text "CONFIG_EXTERNAL_PSF=y\n# CONFIG_EXTERNAL_TTY_FONT is not set\n")))).macros
    (text "EXTERNAL_TTY_FONT") (by decide +kernel) _ (.inl rfl)
  revert hfont
  decide +kernel

end Cleonos.Kconfig
