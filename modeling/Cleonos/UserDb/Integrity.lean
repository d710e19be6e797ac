import Cleonos.UserDb.Rewrite
import Cleonos.Lib.Run

/-!
# Integrity of the user database

Rewriting the file keeps every promise; appending to it does as long as the new line starts on a
line of its own and fits both buffers.
-/

namespace Cleonos.UserDb

open List
open Libc (isspace)
open Lines (lastLine)
open Sha256 (cleonosUserHashPassword length_hexDigits exists_of_mem_hexDigits)

/-! ## Operations -/

inductive Op
  | create (name password : List UInt8) (role : ℕ) (allowExisting : Bool)
  | changePassword (name newPassword : List UInt8)
  | setRole (name : List UInt8) (role : ℕ)
  | remove (name : List UInt8)

def runOp (a : Answers) (data : ℕ → UInt8) (db : Db) : Op → Bool × Db
  | .create name password role allowExisting =>
    cleonosUserCreate a data db name password role allowExisting
  | .changePassword name newPassword => cleonosUserChangePassword a data db name newPassword
  | .setRole name role => cleonosUserSetRole a db name role
  | .remove name => cleonosUserRemove a db name

/-- The kernel leaves users to the file. -/
def Refuses (a : Answers) : Prop :=
  a.userAdd = false ∧ a.userSetRole = false ∧ a.userRemove = false

/-- The file loads, and its records have valid and unique names. -/
def Sound (db : Db) : Prop :=
  ∃ file, db = some file ∧ cuReadAll db = some file ∧
    (∀ r ∈ records file, nameValid r.name = true) ∧ (names file).Nodup

/-- The length of the line of a new user, with its newline. -/
def newLineLength (name : List UInt8) (role : ℕ) : ℕ :=
  2 * name.length + (roleText role).length + 74

/-- There is room for a line of a user: the file stays loadable, what is behind its last
newline is only spaces and delimiters, and the line fits the buffer behind them. -/
def HasRoom (file : List UInt8) (length : ℕ) : Prop :=
  file.length + length + 1 ≤ dbMax ∧
    (∃ ws cs, lastLine newline file = ws ++ cs ∧ IsMargin ws cs) ∧
    (lastLine newline file).length + length ≤ recordMax

/-- A `create` that appends has room for its line. -/
def Fits (a : Answers) (db : Db) : Op → Prop
  | .create name password role _ =>
    nameValid name = true → password ≠ [] → cleonosUserFind name db = none →
      a.homeReady = true → a.userHomeReady = true → a.append = true →
        ∀ file, db = some file → HasRoom file (newLineLength name role)
  | _ => True

/-- What an operation with this result promises about the records. -/
structure Promise (data : ℕ → UInt8) (db : Db) (op : Op) (ok : Bool) (db' : Db) : Prop where
  failed : ok = false → ∀ n, cleonosUserFind n db' = cleonosUserFind n db
  created : ∀ name password role allowExisting, op = .create name password role allowExisting →
    ok = true → cleonosUserFind name db = none →
      cleonosUserFind name db' = some (newRecord data name password role) ∧
        ∀ n, n ≠ name → cleonosUserFind n db' = cleonosUserFind n db
  existed : ∀ name password role allowExisting, op = .create name password role allowExisting →
    ok = true → cleonosUserFind name db ≠ none → ∀ n, cleonosUserFind n db' = cleonosUserFind n db
  removed : ∀ name, op = .remove name → ok = true →
    cleonosUserFind name db' = none ∧ ∀ n, n ≠ name → cleonosUserFind n db' = cleonosUserFind n db

theorem hashPassword_spec (data : ℕ → UInt8) (password : List UInt8) :
    (cleonosUserHashPassword data (some password)).length = hashHexLen ∧
      ∀ c ∈ cleonosUserHashPassword data (some password), nameChar c = true := by
  rw [Sha256.cleonosUserHashPassword_eq]
  constructor
  · rw [length_hexDigits]
    rfl
  · intro c hc
    obtain ⟨v, rfl⟩ := exists_of_mem_hexDigits hc
    exact nameChar_hexDigit v

theorem isField_of_nameChar {s : List UInt8} (h : ∀ c ∈ s, nameChar c = true) : IsField s := by
  refine ⟨fun hc => (nameChar_plain (h _ hc)).2.1 rfl, fun hc => ?_,
    fun hc => (nameChar_plain (h _ hc)).1 rfl⟩
  exact absurd (nameChar_plain (h _ hc)).2.2.2 (by decide)

theorem homeFor_eq {name : List UInt8} (h : nameValid name = true) :
    homeFor homeMax name = lit "/home/" ++ name := by
  obtain ⟨-, hlen, hchar⟩ := (nameValid_iff name).1 h
  have hnul : (0 : UInt8) ∉ name := fun hc => (nameChar_plain (hchar _ hc)).1 rfl
  have hhome : cuAppend homeMax [] (lit "/home/") = lit "/home/" := by decide
  have hlength : (lit "/home/").length = 6 := by decide
  rw [homeFor, hhome, cuAppend_of_length hnul]
  rw [length_append, hlength]
  simp only [homeMax, nameMax] at *
  omega

theorem newRecord_name (data : ℕ → UInt8) {name : List UInt8} (h : nameValid name = true)
    (password : List UInt8) (role : ℕ) : (newRecord data name password role).name = name := by
  obtain ⟨-, hlen, hchar⟩ := (nameValid_iff name).1 h
  have hnul : (0 : UInt8) ∉ name := fun hc => (nameChar_plain (hchar _ hc)).1 rfl
  exact cuCopy_of_length hnul (by omega)

theorem roleText_newRecord (data : ℕ → UInt8) (name password : List UInt8) (role : ℕ) :
    roleText (newRecord data name password role).role = roleText role := by
  simp only [newRecord, roleText]
  by_cases h : role = roleAdmin
  · simp only [if_pos h, if_true]
  · simp only [if_neg h]
    rfl

theorem wellFormed_newRecord (data : ℕ → UInt8) {name : List UInt8} (h : nameValid name = true)
    (password : List UInt8) (role : ℕ) : WellFormed (newRecord data name password role) := by
  obtain ⟨-, hlen, hchar⟩ := (nameValid_iff name).1 h
  obtain ⟨hhashLen, hhashChar⟩ := hashPassword_spec data password
  have hname := isField_of_nameChar hchar
  have hhome : (newRecord data name password role).home = lit "/home/" ++ name := homeFor_eq h
  refine ⟨?_, isField_of_nameChar hhashChar, hhashLen, ?_, ?_, ?_⟩
  · rw [newRecord_name data h]
    exact h
  · rw [hhome]
    have hhomes : IsField (lit "/home/") := ⟨by decide, by decide, by decide⟩
    exact ⟨by simp [hhomes.1, hname.1], by simp [hhomes.2.1, hname.2.1],
      by simp [hhomes.2.2, hname.2.2]⟩
  · rw [hhome]
    rfl
  · have hlength : (lit "/home/").length = 6 := by decide
    rw [hhome, length_append, hlength]
    simp only [nameMax, homeMax] at *
    omega

theorem length_fullLine_newRecord (data : ℕ → UInt8) {name : List UInt8} (h : nameValid name = true)
    (password : List UInt8) (role : ℕ) :
    (fullLine (newRecord data name password role)).length + 1 = newLineLength name role := by
  have hhome : (newRecord data name password role).home = lit "/home/" ++ name := homeFor_eq h
  have hhash : (newRecord data name password role).hash.length = hashHexLen :=
    (hashPassword_spec data password).1
  have hlength : (lit "/home/").length = 6 := by decide
  rw [fullLine, joined, roleText_newRecord, newRecord_name data h, hhome, newLineLength]
  simp only [length_append, length_cons, hhash, hlength, hashHexLen]
  omega

theorem recordLine_newRecord (data : ℕ → UInt8) {name : List UInt8} (h : nameValid name = true)
    (password : List UInt8) (role : ℕ) : recordLine recordMax (newRecord data name password role) =
      fullLine (newRecord data name password role) ++ [newline] := by
  obtain ⟨-, hlen, -⟩ := (nameValid_iff name).1 h
  have hrole := (roleText_field role).2.2.1
  have hfull := length_fullLine_newRecord data h password role
  rw [(wellFormed_newRecord data h password role).recordLine_eq, take_of_length_le]
  rw [length_append, length_singleton, hfull]
  simp only [newLineLength, nameMax, recordMax] at *
  omega

theorem lineRecord_newRecord (data : ℕ → UInt8) {name : List UInt8} (h : nameValid name = true)
    (password : List UInt8) (role : ℕ) {ws cs : List UInt8} (hm : IsMargin ws cs)
    (hlen : (ws ++ cs).length + newLineLength name role ≤ recordMax) :
    lineRecord ((ws ++ cs) ++ fullLine (newRecord data name password role)) =
      some (newRecord data name password role) := by
  have hwf := wellFormed_newRecord data h password role
  have hfull := length_fullLine_newRecord data h password role
  have hlen' : (ws ++ (cs ++ fullLine (newRecord data name password role))).length ≤ recordMax - 1 := by
    rw [← append_assoc, length_append]
    omega
  have hnul : (0 : UInt8) ∉ ws ++ (cs ++ fullLine (newRecord data name password role)) := by
    rw [← append_assoc, mem_append]
    exact not_or.2 ⟨hm.nul_notMem, hwf.nul_notMem⟩
  have hhome : (newRecord data name password role).home = lit "/home/" ++ name := homeFor_eq h
  have htrim : (newRecord data name password role).home.rdropWhile isspace =
      (newRecord data name password role).home := by
    refine rdropWhile_eq_self_iff.2 fun hne => ?_
    have hmem := getLast_mem hne
    generalize (newRecord data name password role).home.getLast hne = c at hmem
    rw [hhome] at hmem
    rcases mem_append.1 hmem with hmem | hmem
    · have hall : ((lit "/home/").all fun c => ! isspace c) = true := by decide
      simpa using all_eq_true.1 hall c hmem
    · obtain ⟨-, -, hchar⟩ := (nameValid_iff name).1 h
      simp [(nameChar_plain (hchar c hmem)).2.2.2]
  rw [append_assoc, lineRecord, lineOf_of_length hnul hlen']
  rw [fullLine] at hlen' ⊢
  rw [parseRecord_fields hm hwf.fields hlen', htrim,
    cuCopy_of_length hwf.home_field.2.2 (by have := hwf.home_length; omega), roleText_newRecord,
    (roleText_field role).2.2.2]
  rfl

section Find

variable {name : List UInt8} {rs : List Record}

theorem find?_eq_none_iff : (rs.find? fun r => r.name = name) = none ↔ name ∉ rs.map Record.name := by
  simp [List.find?_eq_none, mem_map]

variable {n : List UInt8}

theorem find_congr {file file' : List UInt8} (hload : Loads file) (hload' : Loads file')
    (h : ((records file').find? fun r => r.name = n) = (records file).find? fun r => r.name = n) :
    cleonosUserFind n (some file') = cleonosUserFind n (some file) := by
  by_cases hn : nameValid n = true
  · rw [cleonosUserFind_eq hn hload', cleonosUserFind_eq hn hload, h]
  · have hinvalid : nameValid n = false := by simpa using hn
    rw [cleonosUserFind, cleonosUserFind, if_pos hinvalid, if_pos hinvalid]

theorem find?_append_of_ne {r : Record} (hn : n ≠ r.name) :
    ((rs ++ [r]).find? fun q => q.name = n) = rs.find? fun q => q.name = n := by
  rw [List.find?_append]
  simp [Ne.symm hn]

theorem find?_filter_of_ne (hn : n ≠ name) :
    ((rs.filter fun r => r.name ≠ name).find? fun r => r.name = n) = rs.find? fun r => r.name = n := by
  rw [List.find?_filter]
  refine congrArg (fun p => rs.find? p) (funext fun r => ?_)
  by_cases hr : r.name = n
  · simp [hr, hn]
  · simp [hr]

end Find

variable {a : Answers} {data : ℕ → UInt8} {file : List UInt8}

theorem sound_iff {file : List UInt8} : Sound (some file) ↔ Loads file ∧ (names file).Nodup := by
  constructor
  · rintro ⟨file', hfile, hread, -, hnodup⟩
    obtain rfl := Option.some.inj hfile
    refine ⟨?_, hnodup⟩
    simpa [cuReadAll, Option.filter_eq_some_iff, Loads] using hread
  · rintro ⟨hload, hnodup⟩
    exact ⟨file, rfl, cuReadAll_of_loads hload,
      fun r hr => (wellFormed_of_mem_records hr).name_valid, hnodup⟩

theorem Promise.unchanged {op : Op} {ok : Bool}
    (hcreate : ∀ name password role allowExisting, op = .create name password role allowExisting →
      ok = true → cleonosUserFind name (some file) ≠ none)
    (hremove : ∀ name, op = .remove name → ok = false) :
    Promise data (some file) op ok (some file) where
  failed _ _ := rfl
  created name password role allowExisting hop hok hnone :=
    absurd hnone (hcreate name password role allowExisting hop hok)
  existed _ _ _ _ _ _ _ _ := rfl
  removed name hop hok := by
    rw [hremove name hop] at hok
    exact absurd hok (by simp)

theorem records_append {name password : List UInt8} {role : ℕ} (hname : nameValid name = true)
    (hroom : HasRoom file (newLineLength name role)) :
    records (file ++ recordLine recordMax (newRecord data name password role)) =
      records file ++ [newRecord data name password role] := by
  obtain ⟨-, ⟨ws, cs, htail, hm⟩, hlen⟩ := hroom
  obtain ⟨ls, hls, hfile, hlast⟩ := Lines.exists_lines newline file
  rw [htail] at hfile hlast hlen
  have hwf := wellFormed_newRecord data hname password role
  have hnew := lineRecord_newRecord data hname password role hm hlen
  -- the margin alone is no record
  have hmargin : lineRecord (ws ++ cs) = none := by
    have hshort : (ws ++ cs).length ≤ recordMax - 1 := by
      simp only [newLineLength, recordMax] at hlen ⊢
      omega
    rw [lineRecord, lineOf_of_length hm.nul_notMem hshort, parseRecord_margin hm hshort]
  have hline : newline ∉ (ws ++ cs) ++ fullLine (newRecord data name password role) := by
    rw [mem_append]
    exact not_or.2 ⟨hlast, hwf.newline_notMem⟩
  rw [recordLine_newRecord data hname]
  conv_lhs => rw [hfile]
  conv_rhs => rw [hfile]
  rw [append_assoc, records_unlines_append hls, records_unlines_append hls,
    ← append_assoc (ws ++ cs), records_line hline, records_nil, hnew, records_of_notMem hlast,
    hmargin]
  simp

theorem cuDbRewriteWith_cases {replaceRecord : Option Record} {removeName : Option (List UInt8)}
    (hrep : ∀ r, replaceRecord = some r → WellFormed r) (hload : Loads file) :
    cuDbRewriteWith a (some file) replaceRecord removeName = (false, some file) ∨
      cuDbRewriteWith a (some file) replaceRecord removeName =
          (true, some ((segments file).flatMap (piece replaceRecord removeName))) ∧
        Loads ((segments file).flatMap (piece replaceRecord removeName)) := by
  rw [cuDbRewriteWith, cuReadAll_of_loads hload]
  dsimp only
  cases hrun : rewriteLoop replaceRecord removeName (segments file) [] 0 false with
  | none => exact .inl rfl
  | some r =>
    obtain ⟨nextDb, found⟩ := r
    obtain ⟨hnext, hfits⟩ := rewriteLoop_spec hrep ⟨Nat.le_refl 0, by simp [dbMax]⟩ hrun
    rw [nil_append] at hnext
    dsimp only
    by_cases hfound : found = false
    · rw [if_pos hfound]
      exact .inl rfl
    rw [if_neg hfound]
    by_cases hwrite : a.write = false
    · rw [if_pos hwrite]
      exact .inl rfl
    rw [if_neg hwrite, ← hnext]
    exact .inr ⟨rfl, hfits⟩

variable {r : Record}

section

variable (hs : Sound (some file))
include hs

theorem sound_replace (hr : WellFormed r) :
    Sound (cuDbRewriteWith a (some file) (some r) none).2 ∧
      ((cuDbRewriteWith a (some file) (some r) none).1 = false →
        (cuDbRewriteWith a (some file) (some r) none).2 = some file) := by
  obtain ⟨hload, hnodup⟩ := sound_iff.1 hs
  have hrep : ∀ q, some r = some q → WellFormed q := fun q hq => Option.some.inj hq ▸ hr
  rcases @cuDbRewriteWith_cases a file (some r) none hrep hload with h | ⟨h, hload'⟩
  · rw [h]
    exact ⟨hs, fun _ => rfl⟩
  · rw [h]
    refine ⟨sound_iff.2 ⟨hload', ?_⟩, by simp⟩
    exact (names_rewrite_sublist hr fun _ => newline_notMem_segments).nodup hnodup

theorem create_keeps (ha : Refuses a) {name password : List UInt8}
    {role : ℕ} {allowExisting : Bool}
    (hfits : Fits a (some file) (.create name password role allowExisting)) :
    let r := cleonosUserCreate a data (some file) name password role allowExisting
    Sound r.2 ∧ Promise data (some file) (.create name password role allowExisting) r.1 r.2 := by
  obtain ⟨hload, hnodup⟩ := sound_iff.1 hs
  have hunchanged : ∀ ok : Bool, (ok = true → cleonosUserFind name (some file) ≠ none) →
      Sound (some file) ∧
        Promise data (some file) (.create name password role allowExisting) ok (some file) := by
    intro ok hok
    refine ⟨hs, Promise.unchanged ?_ (by simp)⟩
    rintro name' password' role' allow' hop
    obtain ⟨rfl, -⟩ := Op.create.inj hop
    exact hok
  intro r
  simp only [r, cleonosUserCreate]
  by_cases hargs : nameValid name = false ∨ password = []
  · rw [if_pos hargs]
    exact hunchanged false (by simp)
  rw [if_neg hargs, ha.1]
  obtain ⟨hname, hpassword⟩ := not_or.1 hargs
  have hname : nameValid name = true := by simpa using hname
  simp only [Bool.false_eq_true, if_false, Option.isNone_some, false_and, Option.getD_some]
  cases hfind : cleonosUserFind name (some file) with
  | some record => exact hunchanged allowExisting fun _ => by simp [hfind]
  | none =>
    by_cases hhome : a.homeReady = false
    · rw [if_pos hhome]
      exact hunchanged false (by simp)
    rw [if_neg hhome]
    by_cases huser : a.userHomeReady = false
    · rw [if_pos huser]
      exact hunchanged false (by simp)
    rw [if_neg huser]
    by_cases happend : a.append = false
    · rw [if_pos happend]
      exact hunchanged false (by simp)
    rw [if_neg happend]
    have hroom := hfits hname hpassword hfind (by simpa using hhome) (by simpa using huser)
      (by simpa using happend) file rfl
    have hrecords := @records_append data file name password role hname hroom
    have hnew := newRecord_name data hname password role
    have hload' : Loads (file ++ recordLine recordMax (newRecord data name password role)) := by
      have hfull := length_fullLine_newRecord data hname password role
      have hfit := hroom.1
      rw [Loads, recordLine_newRecord data hname]
      simp only [length_append, length_singleton]
      omega
    have hnone : name ∉ names file := by
      rw [cleonosUserFind_eq hname hload] at hfind
      exact find?_eq_none_iff.1 hfind
    refine ⟨sound_iff.2 ⟨hload', ?_⟩, by simp, ?_, ?_, by simp⟩
    · rw [names, hrecords, map_append, map_singleton, hnew]
      exact nodup_append.2 ⟨hnodup, by simp, by
        rintro n hn m hm rfl
        exact hnone (mem_singleton.1 hm ▸ hn)⟩
    · rintro name' password' role' allow' hop - -
      obtain ⟨rfl, rfl, rfl, -⟩ := Op.create.inj hop
      refine ⟨?_, fun n hn => find_congr hload hload' ?_⟩
      · rw [cleonosUserFind_eq hname hload', hrecords, List.find?_append,
          find?_eq_none_iff.2 hnone]
        simp [hnew]
      · rw [hrecords, find?_append_of_ne (by rwa [hnew])]
    · rintro name' password' role' allow' hop - hsome
      obtain ⟨rfl, -⟩ := Op.create.inj hop
      exact absurd hfind hsome

theorem remove_keeps (ha : Refuses a) (name : List UInt8) :
    let r := cleonosUserRemove a (some file) name
    Sound r.2 ∧ Promise data (some file) (.remove name) r.1 r.2 := by
  obtain ⟨hload, hnodup⟩ := sound_iff.1 hs
  have hfailed : Sound (some file) ∧ Promise data (some file) (.remove name) false (some file) :=
    ⟨hs, Promise.unchanged (by simp) (by simp)⟩
  intro r
  simp only [r, cleonosUserRemove]
  by_cases hargs : nameValid name = false ∨ name = lit "root"
  · rw [if_pos hargs]
    exact hfailed
  rw [if_neg hargs, ha.2.2]
  have hname : nameValid name = true := by simpa using (not_or.1 hargs).1
  simp only [Bool.false_eq_true, if_false]
  rcases @cuDbRewriteWith_cases a file none (some name) (by simp) hload with h | ⟨h, hload'⟩
  · rw [h]
    exact hfailed
  · rw [h]
    have hrecords := @records_remove name (segments file) fun _ => newline_notMem_segments
    refine ⟨sound_iff.2 ⟨hload', ?_⟩, by simp, by simp, by simp, ?_⟩
    · rw [names, hrecords]
      exact (filter_sublist.map Record.name).nodup hnodup
    · rintro name' hop -
      obtain rfl := Op.remove.inj hop
      refine ⟨?_, fun n hn => find_congr hload hload' ?_⟩
      · rw [cleonosUserFind_eq hname hload', hrecords, find?_eq_none_iff]
        simp
      · rw [hrecords]
        exact find?_filter_of_ne hn

theorem replace_keeps {op : Op} (hr : WellFormed r)
    (hcreate : ∀ name password role allowExisting, op ≠ .create name password role allowExisting)
    (hremove : ∀ name, op ≠ .remove name) :
    let result := cuDbRewriteWith a (some file) (some r) none
    Sound result.2 ∧ Promise data (some file) op result.1 result.2 := by
  obtain ⟨hsound, hfailed⟩ := sound_replace (a := a) hs hr
  refine ⟨hsound, fun hok n => by rw [hfailed hok], ?_, ?_, ?_⟩
  · exact fun name password role allow hop => absurd hop (hcreate name password role allow)
  · exact fun name password role allow hop => absurd hop (hcreate name password role allow)
  · exact fun name hop => absurd hop (hremove name)

end

theorem wellFormed_of_find {name : List UInt8} (hload : Loads file)
    (h : cleonosUserFind name (some file) = some r) : WellFormed r := by
  by_cases hname : nameValid name = true
  · rw [cleonosUserFind_eq hname hload] at h
    exact wellFormed_of_mem_records (mem_of_find?_eq_some h)
  · rw [cleonosUserFind, if_pos (by simpa using hname)] at h
    exact absurd h (by simp)

theorem runOp_keeps {db : Db} {op : Op} (hs : Sound db) (ha : Refuses a) (hfits : Fits a db op) :
    Sound (runOp a data db op).2 ∧ Promise data db op (runOp a data db op).1 (runOp a data db op).2 := by
  obtain ⟨file, rfl⟩ : ∃ file, db = some file := ⟨hs.choose, hs.choose_spec.1⟩
  obtain ⟨hload, -⟩ := sound_iff.1 hs
  have hfailed : ∀ op : Op, Sound (some file) ∧ Promise data (some file) op false (some file) :=
    fun op => ⟨hs, Promise.unchanged (by simp) (by simp)⟩
  cases op with
  | create name password role allowExisting => exact create_keeps hs ha hfits
  | remove name => exact remove_keeps hs ha name
  | changePassword name newPassword =>
    simp only [runOp, cleonosUserChangePassword]
    cases hfind : cleonosUserFind name (some file) with
    | none => exact hfailed _
    | some r =>
      dsimp only
      by_cases hpassword : newPassword = []
      · rw [if_pos hpassword]
        exact hfailed _
      rw [if_neg hpassword]
      have hwf := wellFormed_of_find hload hfind
      obtain ⟨hlen, hchar⟩ := hashPassword_spec data newPassword
      exact replace_keeps hs { hwf with
        hash_field := isField_of_nameChar hchar
        hash_length := hlen } (by simp) (by simp)
  | setRole name role =>
    simp only [runOp, cleonosUserSetRole]
    cases hfind : cleonosUserFind name (some file) with
    | none => exact hfailed _
    | some r =>
      rw [ha.2.1]
      simp only [Bool.false_eq_true, if_false]
      have hwf := wellFormed_of_find hload hfind
      exact replace_keeps hs { hwf with } (by simp) (by simp)

/-! ## Runs -/

/-- The databases that operations which fit make of a database. -/
def Reached (db₀ : Db) : Db → Prop :=
  Reachable (· = db₀) fun db db' =>
    ∃ a data op, Refuses a ∧ Fits a db op ∧ db' = (runOp a data db op).2

theorem lineRecord_comment (s : List UInt8) : lineRecord (hash :: s) = none := by
  obtain ⟨t, ht⟩ : ∃ t, cuTrim (cuCopy recordMax (lineOf (hash :: s))) = hash :: t := by
    have hspace : isspace hash = false := by decide
    have hcopy : cuCopy recordMax (lineOf (hash :: s)) = hash :: (lineOf (hash :: s)).tail := by
      have hline : lineOf (hash :: s) = hash :: cstr (s.take (recordMax - 1 - 1)) := rfl
      rw [cuCopy_of_length (nul_notMem_lineOf _)
        ((length_lineOf_le _).trans (Nat.min_le_right _ _)), hline, tail_cons]
    refine ⟨(lineOf (hash :: s)).tail.rdropWhile isspace, ?_⟩
    rw [hcopy, cuTrim, dropWhile_cons_of_neg (by simp [hspace])]
    exact rdropWhile_append_cons (s := []) hspace
  rw [lineRecord, parseRecord, ht]
  exact if_pos (.inr rfl)

end Cleonos.UserDb
