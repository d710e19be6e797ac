import Cleonos.UserDb.Model

/-!
# Rewriting the file

`cu_db_rewrite_with` as a map over the pieces of the file.
-/

namespace Cleonos.UserDb

open List Option

variable {replaceRecord : Option Record} {removeName : Option (List UInt8)}

/-- What the loop does with a piece. -/
inductive Action
  | copy
  | drop
  | replace (r : Record)

def action (replaceRecord : Option Record) (removeName : Option (List UInt8))
    (segment : List UInt8) : Action :=
  match lineRecord segment with
  | none => .copy
  | some record =>
    if removeName = some record.name then .drop
    else match replaceRecord.filter fun replace => record.name = replace.name with
      | none => .copy
      | some replace => .replace replace

/-- A line with its newline; nothing for an empty line. -/
def copied (segment : List UInt8) : List UInt8 :=
  if lineOf segment = [] then [] else lineOf segment ++ [newline]

/-- What the loop writes for a piece. -/
def piece (replaceRecord : Option Record) (removeName : Option (List UInt8))
    (segment : List UInt8) : List UInt8 :=
  match action replaceRecord removeName segment with
  | .copy => copied segment
  | .drop => []
  | .replace r => recordLine recordMax r

/-! ## The loop -/

theorem cuAppend_of_length {n : ℕ} {dst src : List UInt8} (hnul : (0 : UInt8) ∉ src)
    (hlen : (dst ++ src).length ≤ n - 1) : cuAppend n dst src = dst ++ src := by
  rw [cuAppend, cstr_of_notMem hnul, take_of_length_le hlen]

variable (segment : List UInt8) {r : Record}

theorem nul_notMem_lineOf : (0 : UInt8) ∉ lineOf segment := notMem_cstr _

theorem length_lineOf_le : (lineOf segment).length ≤ lineLen segment := by
  refine (length_cstr_le _).trans ?_
  rw [length_take, lineLen, Nat.min_comm]

theorem nul_notMem_recordLine (h : WellFormed r) : (0 : UInt8) ∉ recordLine recordMax r := by
  rw [h.recordLine_eq]
  intro hc
  have hnewline : (0 : UInt8) ≠ newline := by decide
  have hmem := mem_of_mem_take hc
  simp [h.nul_notMem, hnewline] at hmem

/-- What the loop has made so far, and how it counts it. -/
structure LoopState (nextDb : List UInt8) (nextLen : ℕ) : Prop where
  counted : nextDb.length ≤ nextLen
  fits : nextDb.length + 1 ≤ dbMax

theorem rewriteLoop_cons (segment : List UInt8) (segments : List (List UInt8))
    (nextDb : List UInt8) (nextLen : ℕ) (found : Bool) :
    rewriteLoop replaceRecord removeName (segment :: segments) nextDb nextLen found =
      match action replaceRecord removeName segment with
      | .copy =>
        if lineOf segment = [] then
          rewriteLoop replaceRecord removeName segments nextDb nextLen found
        else if nextLen + lineLen segment + 2 ≥ dbMax then none
        else rewriteLoop replaceRecord removeName segments
          (cuAppend dbMax (cuAppend dbMax nextDb (lineOf segment)) [newline])
          (nextLen + lineLen segment + 1) found
      | .drop => rewriteLoop replaceRecord removeName segments nextDb nextLen true
      | .replace r =>
        if nextLen + (recordLine recordMax r).length + 1 ≥ dbMax then none
        else rewriteLoop replaceRecord removeName segments
          (cuAppend dbMax nextDb (recordLine recordMax r))
          (nextLen + (recordLine recordMax r).length) true := by
  rw [rewriteLoop, action]
  have hline : lineRecord segment = parseRecord (lineOf segment) := rfl
  rw [hline]
  cases parseRecord (lineOf segment) with
  | none => rfl
  | some record =>
    dsimp only
    by_cases hremove : removeName = some record.name
    · rw [if_pos hremove, if_pos hremove]
    · rw [if_neg hremove, if_neg hremove]
      cases replaceRecord.filter fun replace => record.name = replace.name with
      | none => rfl
      | some replace => rfl

theorem of_action_replace {segment : List UInt8} {r : Record}
    (h : action replaceRecord removeName segment = .replace r) :
    replaceRecord = some r ∧ ∃ record, lineRecord segment = some record ∧ record.name = r.name := by
  rw [action] at h
  cases hr : lineRecord segment with
  | none =>
    rw [hr] at h
    exact absurd h (by simp)
  | some record =>
    rw [hr] at h
    dsimp only at h
    by_cases hremove : removeName = some record.name
    · rw [if_pos hremove] at h
      exact absurd h (by simp)
    rw [if_neg hremove] at h
    cases hfilter : replaceRecord.filter fun replace => record.name = replace.name with
    | none =>
      rw [hfilter] at h
      exact absurd h (by simp)
    | some replace =>
      rw [hfilter] at h
      obtain rfl := Action.replace.inj h
      obtain ⟨hrep, hname⟩ := filter_eq_some_iff.1 hfilter
      exact ⟨hrep, record, rfl, by simpa using hname⟩

theorem rewriteLoop_spec (hrep : ∀ r, replaceRecord = some r → WellFormed r)
    {segments : List (List UInt8)} {nextDb nextDb' : List UInt8} {nextLen : ℕ} {found found' : Bool}
    (hs : LoopState nextDb nextLen)
    (hrun : rewriteLoop replaceRecord removeName segments nextDb nextLen found = some (nextDb', found')) :
    nextDb' = nextDb ++ segments.flatMap (piece replaceRecord removeName) ∧
      nextDb'.length + 1 ≤ dbMax := by
  induction segments generalizing nextDb nextLen found with
  | nil =>
    rw [rewriteLoop, Option.some.injEq, Prod.mk.injEq] at hrun
    obtain ⟨rfl, -⟩ := hrun
    exact ⟨by simp, hs.fits⟩
  | cons segment segments ih =>
    have hcounted := hs.counted
    rw [rewriteLoop_cons] at hrun
    rw [flatMap_cons, ← append_assoc, piece]
    cases hact : action replaceRecord removeName segment with
    | copy =>
      simp only [hact] at hrun ⊢
      rw [copied]
      by_cases hempty : lineOf segment = []
      · rw [if_pos hempty] at hrun
        rw [if_pos hempty, append_nil]
        exact ih hs hrun
      rw [if_neg hempty] at hrun
      by_cases hfull : nextLen + lineLen segment + 2 ≥ dbMax
      · rw [if_pos hfull] at hrun
        exact absurd hrun (by simp)
      rw [if_neg hfull] at hrun
      have hle := length_lineOf_le segment
      have hcopy : cuAppend dbMax (cuAppend dbMax nextDb (lineOf segment)) [newline] =
          nextDb ++ (lineOf segment ++ [newline]) := by
        rw [cuAppend_of_length (nul_notMem_lineOf segment) (by rw [length_append]; omega),
          cuAppend_of_length (by decide)
            (by simp only [length_append, length_singleton]; omega),
          append_assoc]
      rw [hcopy] at hrun
      rw [if_neg hempty]
      refine ih ⟨?_, ?_⟩ hrun
      · simp only [length_append, length_singleton]
        omega
      · simp only [length_append, length_singleton]
        omega
    | drop =>
      simp only [hact] at hrun ⊢
      rw [append_nil]
      exact ih hs hrun
    | replace r =>
      simp only [hact] at hrun ⊢
      by_cases hfull : nextLen + (recordLine recordMax r).length + 1 ≥ dbMax
      · rw [if_pos hfull] at hrun
        exact absurd hrun (by simp)
      rw [if_neg hfull, cuAppend_of_length
        (nul_notMem_recordLine (hrep r (of_action_replace hact).1))
        (by rw [length_append]; omega)] at hrun
      refine ih ⟨?_, ?_⟩ hrun
      · rw [length_append]
        omega
      · rw [length_append]
        omega

theorem lineOf_lineOf : lineOf (lineOf segment) = lineOf segment := by
  refine lineOf_of_length (nul_notMem_lineOf segment) ?_
  exact (length_lineOf_le segment).trans (Nat.min_le_right _ _)

theorem newline_notMem_lineOf {segment : List UInt8} (h : newline ∉ segment) :
    newline ∉ lineOf segment := fun hc =>
  h (mem_of_mem_take ((List.takeWhile_prefix _).subset hc))

theorem lineRecord_lineOf : lineRecord (lineOf segment) = lineRecord segment := by
  rw [lineRecord, lineRecord, lineOf_lineOf]

theorem records_copied {segment rest : List UInt8} (h : newline ∉ segment) :
    records (copied segment ++ rest) = (lineRecord segment).toList ++ records rest := by
  rw [copied]
  by_cases hempty : lineOf segment = []
  · have hnone : lineRecord segment = none := by
      rw [← lineRecord_lineOf, hempty, lineRecord_nil]
    rw [if_pos hempty, hnone]
    rfl
  · rw [if_neg hempty, append_assoc, singleton_append,
      records_line (newline_notMem_lineOf h), lineRecord_lineOf]

theorem records_remove {name : List UInt8} {segments : List (List UInt8)}
    (h : ∀ s ∈ segments, newline ∉ s) :
    records (segments.flatMap (piece none (some name))) =
      (segments.filterMap lineRecord).filter fun r => r.name ≠ name := by
  induction segments with
  | nil => exact records_nil
  | cons segment segments ih =>
    have ih := ih fun s hs => h s (by simp [hs])
    rw [flatMap_cons, piece, action]
    cases hr : lineRecord segment with
    | none =>
      rw [filterMap_cons_none hr]
      rw [records_copied (h segment (by simp)), hr, ih]
      rfl
    | some record =>
      rw [filterMap_cons_some hr, filter_cons]
      dsimp only
      by_cases hname : record.name = name
      · rw [if_pos (congrArg some hname.symm)]
        simpa [hname] using ih
      · rw [if_neg fun hc => hname (Option.some.inj hc).symm]
        simp only [filter_none, ne_eq, hname, not_false_eq_true, decide_true, if_true]
        rw [records_copied (h segment (by simp)), hr, ih]
        rfl

theorem take_fullLine (h : WellFormed r) : ∃ k, 0 < k ∧
    (fullLine r).take (recordMax - 1) = joined r.name (roleText r.role) r.hash (r.home.take k) := by
  obtain ⟨-, hname, -⟩ := (nameValid_iff r.name).1 h.name_valid
  have hrole := (roleText_field r.role).2.2.1
  have hhash := h.hash_length
  simp only [nameMax, hashHexLen] at hname hhash
  refine ⟨recordMax - 1 - (r.name.length + (roleText r.role).length + r.hash.length + 3), ?_, ?_⟩
  · simp only [recordMax]
    omega
  · have hsplit : ∀ home, joined r.name (roleText r.role) r.hash home =
        (r.name ++ colon :: (roleText r.role ++ colon :: (r.hash ++ [colon]))) ++ home := by
      intro home
      simp [joined]
    have hlen : (r.name ++ colon :: (roleText r.role ++ colon :: (r.hash ++ [colon]))).length =
        r.name.length + (roleText r.role).length + r.hash.length + 3 := by
      simp only [length_append, length_cons, length_nil]
      omega
    rw [fullLine, hsplit, hsplit, take_append, hlen, take_of_length_le]
    rw [hlen]
    simp only [recordMax]
    omega

theorem name_lineRecord_take (h : WellFormed r) :
    (lineRecord ((fullLine r).take (recordMax - 1))).map Record.name = some r.name := by
  obtain ⟨k, hk, htake⟩ := take_fullLine h
  have hhome : IsField (r.home.take k) := h.home_field.mono fun c hc => mem_of_mem_take hc
  have hf : Fields r.name (roleText r.role) r.hash (r.home.take k) :=
    { h.fields with
      home_head := by
        have hhead := h.home_head
        cases hr : r.home with
        | nil =>
          rw [hr] at hhead
          exact absurd hhead (by decide)
        | cons c t =>
          rw [hr] at hhead
          obtain ⟨j, rfl⟩ := Nat.exists_eq_succ_of_ne_zero hk.ne'
          exact hhead
      home_colon := hhome.1
      no_nul := (h.name_field.fields_joined (roleText_field r.role).2.1 h.hash_field hhome).2 }
  have hlen : (joined r.name (roleText r.role) r.hash (r.home.take k)).length ≤ recordMax - 1 := by
    rw [← htake]
    exact length_take_le _ _
  have hmargin : IsMargin [] [] := ⟨by simp, by simp⟩
  have hparse := parseRecord_fields hmargin hf hlen
  rw [htake, lineRecord, lineOf_of_length hf.no_nul hlen]
  exact congrArg (Option.map Record.name) hparse

/-- A text the loop wrote, and the name of the record it stands for: nothing, a whole
line, or a line cut off at the size of the buffer. -/
inductive Wrote : List UInt8 → Option (List UInt8) → Prop
  | nothing : Wrote [] none
  | line {l : List UInt8} {o : Option (List UInt8)} (hl : newline ∉ l)
      (ho : (lineRecord l).map Record.name = o) : Wrote (l ++ [newline]) o
  | cut {l name : List UInt8} (hl : newline ∉ l) (hlen : recordMax - 1 ≤ l.length)
      (ho : (lineRecord l).map Record.name = some name) : Wrote l (some name)

/-- The names in a file, in order. -/
def names (file : List UInt8) : List (List UInt8) := (records file).map Record.name

theorem names_line {l rest : List UInt8} (hl : newline ∉ l) :
    names (l ++ newline :: rest) = ((lineRecord l).map Record.name).toList ++ names rest := by
  rw [names, records_line hl, map_append, names]
  cases lineRecord l with
  | none => rfl
  | some r => rfl

theorem names_of_notMem {l : List UInt8} (hl : newline ∉ l) :
    names l = ((lineRecord l).map Record.name).toList := by
  rw [names, records_of_notMem hl]
  cases lineRecord l with
  | none => rfl
  | some r => rfl

theorem names_wrote_sublist {ws : List (List UInt8 × Option (List UInt8))}
    (h : ∀ w ∈ ws, Wrote w.1 w.2) :
    (names (ws.flatMap Prod.fst)).Sublist (ws.filterMap Prod.snd) ∧
      ∀ u : List UInt8, newline ∉ u → recordMax - 1 ≤ u.length →
        (names (u ++ ws.flatMap Prod.fst)).Sublist
          (((lineRecord u).map Record.name).toList ++ ws.filterMap Prod.snd) := by
  induction ws with
  | nil =>
    refine ⟨List.Sublist.refl _, fun u hu _ => ?_⟩
    rw [flatMap_nil, append_nil, names_of_notMem hu]
    exact sublist_append_left _ _
  | cons w ws ih =>
    obtain ⟨hwhole, hcut⟩ := ih fun w hw => h w (by simp [hw])
    obtain ⟨text, o⟩ := w
    have hw : Wrote text o := h (text, o) (by simp)
    have hmap : ((text, o) :: ws).filterMap Prod.snd = o.toList ++ ws.filterMap Prod.snd := by
      cases o with
      | none => rfl
      | some name => rfl
    have htext : ((text, o) :: ws).flatMap Prod.fst = text ++ ws.flatMap Prod.fst := rfl
    rw [hmap, htext]
    cases hw with
    | nothing => exact ⟨hwhole, hcut⟩
    | @line l o hl ho =>
      rw [append_assoc, singleton_append]
      refine ⟨?_, fun u hu hlen => ?_⟩
      · rw [names_line hl, ho]
        exact (List.Sublist.refl _).append hwhole
      · have hul : newline ∉ u ++ l := by simp [hu, hl]
        have hrec : lineRecord (u ++ l) = lineRecord u := by
          rw [lineRecord, lineRecord, lineOf_append hlen]
        rw [← append_assoc, names_line hul, hrec]
        exact (List.Sublist.refl _).append (hwhole.trans (sublist_append_right _ _))
    | @cut l name hl hlen ho =>
      refine ⟨?_, fun u hu hlen' => ?_⟩
      · have hrest := hcut text hl hlen
        rwa [ho] at hrest
      · have hul : newline ∉ u ++ text := by simp [hu, hl]
        have hrec : lineRecord (u ++ text) = lineRecord u := by
          rw [lineRecord, lineRecord, lineOf_append hlen']
        have hrest := hcut (u ++ text) hul (by rw [length_append]; omega)
        rw [hrec, append_assoc] at hrest
        exact hrest.trans ((List.Sublist.refl _).append (sublist_append_right _ _))

theorem wrote_piece {r : Record} (hr : WellFormed r) {segment : List UInt8} (h : newline ∉ segment) :
    Wrote (piece (some r) none segment) ((lineRecord segment).map Record.name) := by
  have hcopied : Wrote (copied segment) ((lineRecord segment).map Record.name) := by
    rw [copied]
    by_cases hempty : lineOf segment = []
    · have hnone : lineRecord segment = none := by
        rw [← lineRecord_lineOf, hempty, lineRecord_nil]
      rw [if_pos hempty, hnone]
      exact .nothing
    · rw [if_neg hempty]
      exact .line (newline_notMem_lineOf h) (by rw [lineRecord_lineOf])
  rw [piece]
  cases hact : action (some r) none segment with
  | copy => exact hcopied
  | drop =>
    rw [action] at hact
    cases hrec : lineRecord segment with
    | none =>
      rw [hrec] at hact
      exact absurd hact (by simp)
    | some record =>
      rw [hrec] at hact
      dsimp only at hact
      rw [if_neg (by simp)] at hact
      cases hfilter : (some r).filter fun replace => record.name = replace.name with
      | none =>
        rw [hfilter] at hact
        exact absurd hact (by simp)
      | some replace =>
        rw [hfilter] at hact
        exact absurd hact (by simp)
  | replace r' =>
    obtain ⟨hr', record, hrec, hname⟩ := of_action_replace hact
    obtain rfl := Option.some.inj hr'
    dsimp only
    rw [hrec, map_some, hname, hr.recordLine_eq]
    have hcut := name_lineRecord_take hr
    by_cases hlen : (fullLine r).length + 1 ≤ recordMax - 1
    · rw [take_of_length_le (by simpa using hlen)]
      rw [take_of_length_le (by omega)] at hcut
      exact .line hr.newline_notMem hcut
    · rw [take_append_of_le_length (by omega)]
      refine .cut (fun hc => hr.newline_notMem (mem_of_mem_take hc)) ?_ hcut
      rw [length_take]
      omega

theorem names_rewrite_sublist (hr : WellFormed r) {segments : List (List UInt8)}
    (h : ∀ s ∈ segments, newline ∉ s) : (names (segments.flatMap (piece (some r) none))).Sublist
      ((segments.filterMap lineRecord).map Record.name) := by
  have hsub := (@names_wrote_sublist
    (segments.map fun s => (piece (some r) none s, (lineRecord s).map Record.name)) ?_).1
  · rw [flatMap_map, filterMap_map] at hsub
    rw [map_filterMap]
    exact hsub
  · intro w hw
    obtain ⟨segment, hseg, rfl⟩ := mem_map.1 hw
    exact wrote_piece hr (h segment hseg)

end Cleonos.UserDb
