import Cleonos.Lib.Lines
import Cleonos.Shell.Pipeline

/-!
# What the parser keeps of a line

The parser of pipelines cuts a line at `|` and takes the pieces of each segment into buffers of
their own.
-/

namespace Cleonos.Shell

open List

/-! ## Pieces -/

/-- The mode of the redirection in a text, and what is behind its operator. -/
def redirection (text : List UInt8) : Option (ℕ × List UInt8) :=
  match text.dropWhile (· ≠ gt) with
  | [] => none
  | [_] => some (1, [])
  | _ :: d :: rest => if d = gt then some (2, rest) else some (1, d :: rest)

/-- A segment without its redirection. -/
def bodyOf (segment : List UInt8) : List UInt8 :=
  trimAscii ((trimAscii segment).takeWhile (· ≠ gt))

/-- The first word of a segment. -/
def wordOf (segment : List UInt8) : List UInt8 := (bodyOf segment).takeWhile (! isSpace ·)

/-- What is behind the first word of a segment. -/
def argOf (segment : List UInt8) : List UInt8 :=
  trimAscii ((bodyOf segment).dropWhile (! isSpace ·))

/-- The path behind the operator of a segment. -/
def pathOf (segment : List UInt8) : List UInt8 :=
  match redirection (trimAscii segment) with
  | none => []
  | some (_, rest) => trimAscii rest

/-- The mode of the redirection of a segment. -/
def modeOf (segment : List UInt8) : ℕ :=
  match redirection (trimAscii segment) with
  | none => 0
  | some (mode, _) => mode

/-- The stage that a segment describes. -/
def stageOf (segment : List UInt8) : PipelineStage :=
  ⟨bodyOf segment, wordOf segment, argOf segment, pathOf segment, modeOf segment⟩

/-- What the buffers keep of it. -/
def shortStage (segment : List UInt8) : PipelineStage :=
  { stageOf segment with
    cmd := copyBytes cmdMax (wordOf segment)
    arg := trimAscii (copyBytes argMax (argOf segment)) }

def segmentsOf (line : List UInt8) : List (List UInt8) := (cstr line).splitOn bar

/-- A segment that is accepted: it fits, has a command, and at most one redirection, to a
path in one word. -/
structure SegmentOk (segment : List UInt8) : Prop where
  length : segment.length < lineMax
  word : wordOf segment ≠ []
  redirect : ∀ mode rest, redirection (trimAscii segment) = some (mode, rest) →
    gt ∉ rest ∧ trimAscii rest ≠ [] ∧ ∀ c ∈ trimAscii rest, isSpace c = false

def SyntaxOk (line : List UInt8) : Prop :=
  (segmentsOf line).length ≤ pipelineMaxStages ∧ ∀ segment ∈ segmentsOf line, SegmentOk segment

/-- The pieces of a segment fit their buffers. -/
structure PiecesFit (segment : List UInt8) : Prop where
  text : segment.length < lineMax
  cmd : (wordOf segment).length < cmdMax
  arg : (argOf segment).length < argMax
  path : (pathOf segment).length < pathMax

/-- A line that is accepted keeps every piece, and one with a piece that does not fit is
rejected. -/
structure LosesNothing (line : List UInt8) : Prop where
  complete : ∀ stages, parsePipeline line = .ok stages → stages = (segmentsOf line).map stageOf
  rejects : (∃ segment ∈ segmentsOf line, ¬ PiecesFit segment) →
    ∀ stages, parsePipeline line ≠ .ok stages

/-- A text with no space at its end. -/
def NoTrail (s : List UInt8) : Prop := s.rdropWhile isSpace = s

theorem noTrail_trimAscii (s : List UInt8) : NoTrail (trimAscii s) :=
  rdropWhile_idempotent _ _

variable {segment s : List UInt8}

theorem noTrail_dropWhile (h : NoTrail s) (p : UInt8 → Bool) : NoTrail (s.dropWhile p) := by
  refine rdropWhile_eq_self_iff.2 fun hne => ?_
  have hs : s ≠ [] := fun hs => hne (by rw [hs]; rfl)
  have hlast := rdropWhile_eq_self_iff.1 h hs
  rwa [(dropWhile_suffix p).getLast hne]

theorem trimAscii_of_noTrail (h : NoTrail s) :
    trimAscii s = s.dropWhile isSpace := noTrail_dropWhile h _

/-- A text with no space at its start. -/
def NoLead (s : List UInt8) : Prop := s.dropWhile isSpace = s

theorem noLead_of_prefix {s t : List UInt8} (h : NoLead t) (hst : s <+: t) : NoLead s := by
  rw [NoLead, dropWhile_eq_self_iff] at h ⊢
  intro hs
  obtain ⟨u, rfl⟩ := hst
  cases s with
  | nil => simp at hs
  | cons c s => simpa using h (by simp)

theorem noLead_trimAscii (s : List UInt8) : NoLead (trimAscii s) :=
  noLead_of_prefix (dropWhile_idempotent _ s) (List.rdropWhile_prefix _ _)

theorem trimAscii_trimAscii (s : List UInt8) : trimAscii (trimAscii s) = trimAscii s := by
  rw [trimAscii_of_noTrail (noTrail_trimAscii s)]
  exact noLead_trimAscii s

theorem length_trimAscii_le (s : List UInt8) : (trimAscii s).length ≤ s.length :=
  (List.rdropWhile_prefix _ _).length_le.trans (dropWhile_suffix _).length_le

theorem mem_of_mem_trimAscii {c : UInt8} (h : c ∈ trimAscii s) : c ∈ s :=
  (dropWhile_suffix _).subset ((List.rdropWhile_prefix _ _).subset h)

theorem copyBytes_eq_nil_iff {n : ℕ} (hn : 1 < n) (h0 : (0 : UInt8) ∉ s) :
    copyBytes n s = [] ↔ s = [] := by
  rw [copyBytes, cstr_of_notMem h0, take_eq_nil_iff]
  have hn' : ¬ n - 1 = 0 := by omega
  simp [hn']

theorem dropWhile_word_eq_nil_iff (h : NoTrail s) :
    (s.dropWhile (! isSpace ·)).dropWhile isSpace = [] ↔ ∀ c ∈ s, isSpace c = false := by
  have htrail := noTrail_dropWhile h (! isSpace ·)
  constructor
  · intro hnil
    have hword : s.dropWhile (! isSpace ·) = [] := by
      rw [← htrail, rdropWhile_eq_nil_iff]
      exact dropWhile_eq_nil_iff.1 hnil
    simpa using dropWhile_eq_nil_iff.1 hword
  · intro hall
    have hword : s.dropWhile (! isSpace ·) = [] := dropWhile_eq_nil_iff.2 (by simpa using hall)
    rw [hword]
    rfl

theorem finishStage_eq {body path : List UInt8} {mode : ℕ} (h0 : (0 : UInt8) ∉ body)
    (hlead : NoLead body) (htrail : NoTrail body) :
    finishStage body path mode =
      if body.takeWhile (! isSpace ·) = [] then .error .emptyStage
      else .ok ⟨body, copyBytes cmdMax (body.takeWhile (! isSpace ·)),
        trimAscii (copyBytes argMax (trimAscii (body.dropWhile (! isSpace ·)))), path, mode⟩ := by
  have hword : (0 : UInt8) ∉ body.takeWhile (! isSpace ·) :=
    fun h => h0 ((List.takeWhile_prefix _).subset h)
  have hsplit : splitLine body = (copyBytes cmdMax (body.takeWhile (! isSpace ·)),
      copyBytes argMax (trimAscii (body.dropWhile (! isSpace ·)))) := by
    rw [NoLead] at hlead
    simp only [splitLine, cstr_of_notMem h0, hlead,
      trimAscii_of_noTrail (noTrail_dropWhile htrail _)]
  rw [finishStage, hsplit]
  simp only [copyBytes_eq_nil_iff (show 1 < cmdMax by decide) hword]

theorem scanOp_of_ne {c : UInt8} (hc : c ≠ gt) (i : ℕ) (text : List UInt8)
    (op : Option (ℕ × ℕ)) : scanOp i (c :: text) op = scanOp (i + 1) text op := by
  cases text with
  | nil => simp [scanOp, hc]
  | cons d text => rw [scanOp, if_neg hc]

theorem scanOp_some (i : ℕ) (text : List UInt8) (op : ℕ × ℕ) :
    scanOp i text (some op) =
      if gt ∈ text then .error .multipleRedirections else .ok (some op) := by
  induction text generalizing i with
  | nil => rfl
  | cons c text ih =>
    by_cases hc : c = gt
    · subst hc
      rw [if_pos mem_cons_self]
      cases text with
      | nil => rfl
      | cons d text =>
        rw [scanOp, if_pos rfl]
        exact if_pos rfl
    · rw [scanOp_of_ne hc, ih]
      have hmem : gt ∈ c :: text ↔ gt ∈ text := by simp [Ne.symm hc]
      simp only [hmem]

theorem redirection_of_ne {c : UInt8} (hc : c ≠ gt) (text : List UInt8) :
    redirection (c :: text) = redirection text := by
  rw [redirection, dropWhile_cons_of_pos (by simpa using hc)]
  rfl

theorem redirection_eq_none {text : List UInt8} (h : redirection text = none) :
    ∀ c ∈ text, c ≠ gt := by
  induction text with
  | nil => simp
  | cons c text ih =>
    by_cases hc : c = gt
    · subst hc
      cases text with
      | nil => simp [redirection] at h
      | cons d text =>
        simp only [redirection] at h
        simp at h
        split at h <;> simp at h
    · rw [redirection_of_ne hc] at h
      intro d hd
      rcases mem_cons.1 hd with rfl | hd
      · exact hc
      · exact ih h d hd

theorem scanOp_none (i : ℕ) (text : List UInt8) :
    scanOp i text none =
      match redirection text with
      | none => .ok none
      | some (mode, rest) =>
        if gt ∈ rest then .error .multipleRedirections
        else .ok (some (i + (text.takeWhile (· ≠ gt)).length, mode)) := by
  induction text generalizing i with
  | nil => rfl
  | cons c text ih =>
    by_cases hc : c = gt
    · subst hc
      have htake : (gt :: text).takeWhile (· ≠ gt) = [] := by simp
      rw [htake]
      cases text with
      | nil => simp [scanOp, redirection]
      | cons d text =>
        by_cases hd : d = gt
        · subst hd
          rw [scanOp, if_pos rfl, if_neg (by simp), if_pos rfl, scanOp_some]
          simp [redirection]
        · rw [scanOp, if_pos rfl, if_neg (by simp), if_neg hd, scanOp_some]
          simp [redirection, hd]
    · rw [scanOp_of_ne hc, ih, redirection_of_ne hc,
        takeWhile_cons_of_pos (by simpa using hc), length_cons]
      have hsum : i + 1 + (text.takeWhile (· ≠ gt)).length =
          i + ((text.takeWhile (· ≠ gt)).length + 1) := by omega
      rw [hsum]

theorem drop_redirection {text rest : List UInt8} {mode : ℕ}
    (h : redirection text = some (mode, rest)) :
    text.drop ((text.takeWhile (· ≠ gt)).length + mode) = rest ∧ rest.length < text.length := by
  induction text with
  | nil => simp [redirection] at h
  | cons c text ih =>
    by_cases hc : c = gt
    · subst hc
      have htake : (gt :: text).takeWhile (· ≠ gt) = [] := by simp
      rw [htake]
      cases text with
      | nil =>
        simp only [redirection] at h
        simp at h
        obtain ⟨rfl, rfl⟩ := h
        simp
      | cons d text =>
        simp only [redirection] at h
        simp at h
        split at h
        · simp at h
          obtain ⟨rfl, rfl⟩ := h
          refine ⟨rfl, ?_⟩
          simp only [length_cons]
          omega
        · simp at h
          obtain ⟨rfl, rfl⟩ := h
          simp
    · rw [redirection_of_ne hc] at h
      obtain ⟨hdrop, hlen⟩ := ih h
      rw [takeWhile_cons_of_pos (by simpa using hc), length_cons,
        Nat.add_right_comm, drop_succ_cons]
      exact ⟨hdrop, by simpa using Nat.lt_succ_of_lt hlen⟩

theorem noLead_bodyOf (segment : List UInt8) : NoLead (bodyOf segment) := noLead_trimAscii _

theorem noTrail_bodyOf (segment : List UInt8) : NoTrail (bodyOf segment) := noTrail_trimAscii _

theorem notMem_bodyOf (h0 : (0 : UInt8) ∉ segment) : (0 : UInt8) ∉ bodyOf segment := fun h =>
  h0 (mem_of_mem_trimAscii ((List.takeWhile_prefix _).subset (mem_of_mem_trimAscii h)))

theorem wordOf_of_empty (h : trimAscii segment = []) : wordOf segment = [] := by
  rw [wordOf, bodyOf, h]
  rfl

theorem finishStage_eq_ok_iff (h0 : (0 : UInt8) ∉ segment)
    (path : List UInt8) (mode : ℕ) (stage : PipelineStage) :
    finishStage (bodyOf segment) path mode = .ok stage ↔ wordOf segment ≠ [] ∧
      stage = { shortStage segment with redirectPath := path, redirectMode := mode } := by
  rw [finishStage_eq (notMem_bodyOf h0) (noLead_bodyOf segment) (noTrail_bodyOf segment)]
  by_cases hword : (bodyOf segment).takeWhile (! isSpace ·) = []
  · rw [if_pos hword]
    exact iff_of_false (fun h => by cases h) fun h => h.1 hword
  · rw [if_neg hword, Except.ok.injEq]
    simp only [shortStage, stageOf, wordOf, argOf]
    exact ⟨fun h => ⟨hword, h.symm⟩, fun h => h.2.symm⟩

theorem splitFirstAndRest_trimAscii {text : List UInt8} (h0 : (0 : UInt8) ∉ trimAscii text)
    (hne : trimAscii text ≠ []) :
    splitFirstAndRest (trimAscii text) =
      some (copyBytes pathMax ((trimAscii text).takeWhile (! isSpace ·)),
        copyBytes argMax (((trimAscii text).dropWhile (! isSpace ·)).dropWhile isSpace)) := by
  have hlead := noLead_trimAscii text
  rw [NoLead] at hlead
  rw [splitFirstAndRest, cstr_of_notMem h0, hlead]
  exact if_neg hne

theorem copyBytes_word_eq_nil_iff {text : List UInt8} (h0 : (0 : UInt8) ∉ trimAscii text) :
    copyBytes argMax (((trimAscii text).dropWhile (! isSpace ·)).dropWhile isSpace) = [] ↔
      ∀ c ∈ trimAscii text, isSpace c = false := by
  have hrest : (0 : UInt8) ∉ ((trimAscii text).dropWhile (! isSpace ·)).dropWhile isSpace :=
    fun h => h0 ((dropWhile_suffix _).subset ((dropWhile_suffix _).subset h))
  rw [copyBytes_eq_nil_iff (by decide) hrest]
  exact dropWhile_word_eq_nil_iff (noTrail_trimAscii text)

theorem parsePipelineStage_eq_ok_iff {segment : List UInt8} (h0 : (0 : UInt8) ∉ segment)
    (hlen : segment.length < lineMax) (stage : PipelineStage) :
    parsePipelineStage segment = .ok stage ↔ SegmentOk segment ∧ stage = shortStage segment := by
  have hwork0 : (0 : UInt8) ∉ trimAscii segment := fun h => h0 (mem_of_mem_trimAscii h)
  have hworklen : (trimAscii segment).length < lineMax :=
    lt_of_le_of_lt (length_trimAscii_le segment) hlen
  rw [parsePipelineStage, copyBytes_of_fits h0 hlen]
  simp only [scanOp_none, Nat.zero_add]
  by_cases hwork : trimAscii segment = []
  · rw [if_pos hwork]
    exact iff_of_false (fun h => by cases h) fun h => h.1.word (wordOf_of_empty hwork)
  rw [if_neg hwork]
  cases hred : redirection (trimAscii segment) with
  | none =>
    have hgt := redirection_eq_none hred
    have hbody : trimAscii segment = bodyOf segment := by
      rw [bodyOf, takeWhile_eq_self_iff.2 (by simpa using hgt), trimAscii_trimAscii]
    have hstage : shortStage segment =
        { shortStage segment with redirectPath := [], redirectMode := 0 } := by
      simp only [shortStage, stageOf, pathOf, modeOf, hred]
    simp only
    rw [hbody, finishStage_eq_ok_iff h0, ← hstage]
    constructor
    · rintro ⟨hword, rfl⟩
      exact ⟨⟨hlen, hword, by simp [hred]⟩, rfl⟩
    · rintro ⟨hok, rfl⟩
      exact ⟨hok.word, rfl⟩
  | some r =>
    obtain ⟨mode, rest⟩ := r
    obtain ⟨hdrop, hrest⟩ := drop_redirection hred
    have hrest0 : (0 : UInt8) ∉ rest := fun h => hwork0 (by
      rw [← hdrop] at h
      exact mem_of_mem_drop h)
    have hpath0 : (0 : UInt8) ∉ trimAscii rest := fun h => hrest0 (mem_of_mem_trimAscii h)
    have hrestlen : rest.length < pathMax := lt_trans hrest hworklen
    have hpathlen : (trimAscii rest).length < pathMax :=
      lt_of_le_of_lt (length_trimAscii_le rest) hrestlen
    have htake : (trimAscii segment).take ((trimAscii segment).takeWhile (· ≠ gt)).length =
        (trimAscii segment).takeWhile (· ≠ gt) :=
      (prefix_iff_eq_take.1 (List.takeWhile_prefix _)).symm
    have hstage : shortStage segment =
        { shortStage segment with redirectPath := trimAscii rest, redirectMode := mode } := by
      simp only [shortStage, stageOf, pathOf, modeOf, hred]
    have hbody : trimAscii ((trimAscii segment).takeWhile (· ≠ gt)) = bodyOf segment := rfl
    simp only
    by_cases hgt : gt ∈ rest
    · rw [if_pos hgt]
      exact iff_of_false (fun h => by cases h) fun h => (h.1.redirect mode rest hred).1 hgt
    rw [if_neg hgt]
    simp only
    rw [hdrop, copyBytes_of_fits hrest0 hrestlen, htake, hbody]
    by_cases hpath : trimAscii rest = []
    · rw [if_pos hpath]
      exact iff_of_false (fun h => by cases h) fun h => (h.1.redirect mode rest hred).2.1 hpath
    rw [if_neg hpath, splitFirstAndRest_trimAscii hpath0 hpath]
    simp only
    by_cases hword : ∀ c ∈ trimAscii rest, isSpace c = false
    · have hone : (trimAscii rest).takeWhile (! isSpace ·) = trimAscii rest :=
        takeWhile_eq_self_iff.2 (by simpa using hword)
      rw [if_neg (not_not.2 ((copyBytes_word_eq_nil_iff hpath0).2 hword)), hone,
        copyBytes_of_fits hpath0 hpathlen, copyBytes_of_fits hpath0 hpathlen,
        finishStage_eq_ok_iff h0, ← hstage]
      constructor
      · rintro ⟨hcmd, rfl⟩
        refine ⟨⟨hlen, hcmd, fun mode' rest' h' => ?_⟩, rfl⟩
        rw [hred] at h'
        cases h'
        exact ⟨hgt, hpath, hword⟩
      · rintro ⟨hok, rfl⟩
        exact ⟨hok.word, rfl⟩
    · rw [if_pos fun h => hword ((copyBytes_word_eq_nil_iff hpath0).1 h)]
      exact iff_of_false (fun h => by cases h) fun h => hword (h.1.redirect mode rest hred).2.2

theorem addStage_eq_ok_iff {segment : List UInt8} (h0 : (0 : UInt8) ∉ segment)
    (hlen : segment.length < lineMax) (stages stages' : List PipelineStage) :
    addStage stages segment = .ok stages' ↔ stages.length < pipelineMaxStages ∧
      SegmentOk segment ∧ stages' = stages ++ [shortStage segment] := by
  rw [addStage]
  by_cases hfull : stages.length ≥ pipelineMaxStages
  · rw [if_pos hfull]
    exact iff_of_false (fun h => by cases h) fun h => by omega
  rw [if_neg hfull]
  have hstage := parsePipelineStage_eq_ok_iff h0 hlen
  cases hparse : parsePipelineStage segment with
  | error e =>
    refine iff_of_false (fun h => by cases h) fun h => ?_
    rw [(hstage (shortStage segment)).2 ⟨h.2.1, rfl⟩] at hparse
    cases hparse
  | ok stage =>
    obtain ⟨hok, rfl⟩ := (hstage stage).1 hparse
    constructor
    · intro h
      cases h
      exact ⟨by omega, hok, rfl⟩
    · rintro ⟨-, -, rfl⟩
      rfl

theorem parsePipelineLoop_eq_ok_iff (line segment : List UInt8) (stages out : List PipelineStage)
    (h0 : (0 : UInt8) ∉ segment ++ line) (hbar : bar ∉ segment) (hlen : segment.length < lineMax) :
    parsePipelineLoop line segment stages = .ok out ↔
      stages.length + ((segment ++ line).splitOn bar).length ≤ pipelineMaxStages ∧
        (∀ s ∈ (segment ++ line).splitOn bar, SegmentOk s) ∧
        out = stages ++ ((segment ++ line).splitOn bar).map shortStage := by
  induction line generalizing segment stages with
  | nil =>
    rw [append_nil] at h0 ⊢
    rw [parsePipelineLoop, addStage_eq_ok_iff h0 hlen, splitOn_eq_singleton hbar]
    simp only [length_singleton, mem_singleton, forall_eq, map_cons, map_nil]
    exact and_congr_left' Nat.lt_iff_add_one_le
  | cons c line ih =>
    have hc0 : (0 : UInt8) ∉ segment := fun h => h0 (mem_append_left _ h)
    have hl0 : (0 : UInt8) ∉ line := fun h => h0 (by simp [h])
    by_cases hc : c = bar
    · subst hc
      rw [parsePipelineLoop, if_pos rfl, Lines.splitOn_line hbar]
      cases hadd : addStage stages segment with
      | error e =>
        refine iff_of_false (fun h => by cases h) fun ⟨hcount, hok, _⟩ => ?_
        have hgood := (addStage_eq_ok_iff hc0 hlen stages (stages ++ [shortStage segment])).2
          ⟨by simp only [length_cons] at hcount; omega, hok _ (by simp), rfl⟩
        rw [hadd] at hgood
        cases hgood
      | ok stages' =>
        obtain ⟨-, hok, rfl⟩ := (addStage_eq_ok_iff hc0 hlen stages stages').1 hadd
        have hih := ih [] (stages ++ [shortStage segment]) hl0 (by simp) (by decide)
        rw [nil_append] at hih
        change parsePipelineLoop line [] (stages ++ [shortStage segment]) = .ok out ↔ _
        rw [hih]
        simp only [length_append, length_cons, length_nil,
          forall_mem_cons, map_cons, append_assoc, singleton_append]
        constructor
        · rintro ⟨hle, hrest, rfl⟩
          exact ⟨by omega, ⟨hok, hrest⟩, rfl⟩
        · rintro ⟨hle, ⟨-, hrest⟩, rfl⟩
          exact ⟨by omega, hrest, rfl⟩
    · have happ : segment ++ c :: line = (segment ++ [c]) ++ line := by simp
      rw [parsePipelineLoop, if_neg hc]
      by_cases hfull : segment.length + 1 ≥ lineMax
      · rw [if_pos hfull]
        refine iff_of_false (fun h => by cases h) fun ⟨_, hok, _⟩ => ?_
        have hbar' : bar ∉ segment ++ [c] := by simp [hbar, Ne.symm hc]
        obtain ⟨first, rest, hfirst⟩ := Lines.splitOn_head (t := line) hbar'
        rw [happ, hfirst] at hok
        have hlong := (hok _ mem_cons_self).length
        simp only [length_append, length_singleton] at hlong
        omega
      · rw [if_neg hfull, happ]
        exact ih (segment ++ [c]) stages (by simpa using h0) (by simp [hbar, Ne.symm hc])
          (by simp only [length_append, length_singleton]; omega)

theorem parsePipeline_eq_ok_iff (line : List UInt8) (stages : List PipelineStage) :
    parsePipeline line = .ok stages ↔
      SyntaxOk line ∧ stages = (segmentsOf line).map shortStage := by
  rw [parsePipeline, parsePipelineLoop_eq_ok_iff (cstr line) [] [] stages
    (notMem_cstr line) not_mem_nil (by decide)]
  simp only [length_nil, Nat.zero_add, nil_append, SyntaxOk, segmentsOf, and_assoc]

theorem notMem_segment {line : List UInt8} (h : segment ∈ segmentsOf line) :
    (0 : UInt8) ∉ segment := fun h0 =>
  notMem_cstr line (Lines.mem_of_mem_splitOn h h0)

theorem copyBytes_eq_self_iff {n : ℕ} (hn : 0 < n) (h0 : (0 : UInt8) ∉ s) :
    copyBytes n s = s ↔ s.length < n := by
  refine ⟨fun h => ?_, copyBytes_of_fits h0⟩
  rw [← h]
  exact length_copyBytes_lt hn s

theorem trimAscii_argOf (segment : List UInt8) : trimAscii (argOf segment) = argOf segment :=
  trimAscii_trimAscii _

theorem shortStage_eq_iff (h0 : (0 : UInt8) ∉ segment) : shortStage segment = stageOf segment ↔
      (wordOf segment).length < cmdMax ∧ (argOf segment).length < argMax := by
  have hword : (0 : UInt8) ∉ wordOf segment :=
    fun h => notMem_bodyOf h0 ((List.takeWhile_prefix _).subset h)
  have harg : (0 : UInt8) ∉ argOf segment :=
    fun h => notMem_bodyOf h0 ((dropWhile_suffix _).subset (mem_of_mem_trimAscii h))
  constructor
  · intro h
    simp only [shortStage, stageOf, PipelineStage.mk.injEq, true_and, and_true] at h
    obtain ⟨hcmd, hshort⟩ := h
    refine ⟨(copyBytes_eq_self_iff (by decide) hword).1 hcmd, ?_⟩
    rw [← hshort]
    exact lt_of_le_of_lt (length_trimAscii_le _) (length_copyBytes_lt (by decide) _)
  · rintro ⟨hcmd, hlen⟩
    rw [shortStage, copyBytes_of_fits hword hcmd, copyBytes_of_fits harg hlen, trimAscii_argOf]
    rfl

theorem length_pathOf_lt {segment : List UInt8} (h : segment.length < lineMax) :
    (pathOf segment).length < pathMax := by
  rw [pathOf]
  cases hred : redirection (trimAscii segment) with
  | none => decide
  | some r =>
    have hrest := (drop_redirection hred).2
    calc (trimAscii r.2).length ≤ r.2.length := length_trimAscii_le _
      _ < (trimAscii segment).length := hrest
      _ ≤ segment.length := length_trimAscii_le _
      _ < pathMax := h

/-- Nothing of a line is lost exactly when it is rejected for its syntax, or the command word
and the argument of every segment fit their buffers. -/
theorem parse_pipeline_loses_nothing_iff (line : List UInt8) :
    LosesNothing line ↔ (SyntaxOk line → ∀ segment ∈ segmentsOf line,
      (wordOf segment).length < cmdMax ∧ (argOf segment).length < argMax) := by
  constructor
  · intro h hok segment hmem
    have hparse := (parsePipeline_eq_ok_iff line _).2 ⟨hok, rfl⟩
    have hstages := h.complete _ hparse
    exact (shortStage_eq_iff (notMem_segment hmem)).1 (map_inj_left.1 hstages segment hmem)
  · intro h
    constructor
    · intro stages hparse
      obtain ⟨hok, rfl⟩ := (parsePipeline_eq_ok_iff line stages).1 hparse
      exact map_inj_left.2 fun segment hmem =>
        (shortStage_eq_iff (notMem_segment hmem)).2 (h hok segment hmem)
    · rintro ⟨segment, hmem, hfit⟩ stages hparse
      have hok := ((parsePipeline_eq_ok_iff line stages).1 hparse).1
      have hlen := (hok.2 segment hmem).length
      obtain ⟨hcmd, harg⟩ := h hok segment hmem
      exact hfit ⟨hlen, hcmd, harg, length_pathOf_lt hlen⟩

/-- A command word of 32 bytes is shortened. -/
theorem parse_pipeline_shortens_command : ¬ LosesNothing (List.replicate 32 97) := by
  intro h
  have hlost := h.complete [⟨List.replicate 32 97, List.replicate 31 97, [], [], 0⟩] (by decide)
  exact absurd hlost (by decide)

end Cleonos.Shell
