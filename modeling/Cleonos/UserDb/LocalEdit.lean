import Cleonos.UserDb.Integrity

/-!
# Editing one field

A change of the password or of the role writes the whole file again.
-/

namespace Cleonos.UserDb

open List
open Libc (isspace)
open Sha256 (cleonosUserHashPassword)
open Lines (AtMostLine splitOn_flatMap_iff)

/-! ## Fields of a line -/

/-- The text with its `k`-th token replaced; tokens are what runs of colons separate. -/
def replaceToken (new : List UInt8) : ℕ → List UInt8 → List UInt8
  | 0, text =>
    text.takeWhile (· == colon) ++ new ++ (text.dropWhile (· == colon)).dropWhile (· != colon)
  | k + 1, text =>
    text.takeWhile (· == colon) ++ (text.dropWhile (· == colon)).takeWhile (· != colon) ++
      replaceToken new k ((text.dropWhile (· == colon)).dropWhile (· != colon))

/-- The line with its `k`-th field replaced. -/
def setField (k : ℕ) (new line : List UInt8) : List UInt8 :=
  line.takeWhile isspace ++ replaceToken new k (line.dropWhile isspace)

/-- What may stand in front of the fields of a line: spaces at the start, and more colons. -/
structure Gaps where
  spaces : List UInt8
  (c0 c1 c2 c3 : List UInt8)
  isspace_of_mem : ∀ c ∈ spaces, isspace c = true
  colons0 : ∀ c ∈ c0, c = colon
  colons1 : ∀ c ∈ c1, c = colon
  colons2 : ∀ c ∈ c2, c = colon
  colons3 : ∀ c ∈ c3, c = colon

/-- The line with these gaps. -/
def Gaps.line (g : Gaps) (name role hashText home : List UInt8) : List UInt8 :=
  g.spaces ++ (g.c0 ++ (name ++ colon :: (g.c1 ++ (role ++ colon ::
    (g.c2 ++ (hashText ++ colon :: (g.c3 ++ home)))))))

/-- No more than one colon between two fields. -/
def Gaps.none : Gaps :=
  ⟨[], [], [], [], [], by simp, by simp, by simp, by simp, by simp⟩

theorem Gaps.line_none (name role hashText home : List UInt8) :
    Gaps.none.line name role hashText home = joined name role hashText home := rfl

section Token

variable {cs tok rest new : List UInt8}

theorem takeWhile_token (hcs : ∀ c ∈ cs, c = colon) (hne : tok ≠ []) (htok : colon ∉ tok) :
    (cs ++ (tok ++ colon :: rest)).takeWhile (· == colon) = cs ∧
      (cs ++ (tok ++ colon :: rest)).dropWhile (· == colon) = tok ++ colon :: rest := by
  have hpos : ∀ c ∈ cs, (c == colon) = true := fun c hc => by simpa using hcs c hc
  rw [takeWhile_append_of_pos hpos, dropWhile_append_of_pos hpos]
  cases tok with
  | nil => exact absurd rfl hne
  | cons c tok =>
    have hc : (c == colon) = false := by simpa using ne_of_mem_of_not_mem (by simp) htok
    simp [hc]

theorem takeWhile_ne_token (htok : colon ∉ tok) :
    (tok ++ colon :: rest).takeWhile (· != colon) = tok ∧
      (tok ++ colon :: rest).dropWhile (· != colon) = colon :: rest := by
  have hpos : ∀ c ∈ tok, (c != colon) = true := fun c hc => by
    simpa using ne_of_mem_of_not_mem hc htok
  rw [takeWhile_append_of_pos hpos, dropWhile_append_of_pos hpos]
  simp

theorem replaceToken_zero (hcs : ∀ c ∈ cs, c = colon) (hne : tok ≠ []) (htok : colon ∉ tok) :
    replaceToken new 0 (cs ++ (tok ++ colon :: rest)) = cs ++ (new ++ colon :: rest) := by
  obtain ⟨htake, hdrop⟩ := @takeWhile_token cs tok rest hcs hne htok
  rw [replaceToken, htake, hdrop, (takeWhile_ne_token htok).2, append_assoc]

theorem replaceToken_succ {k : ℕ} (hcs : ∀ c ∈ cs, c = colon) (hne : tok ≠ []) (htok : colon ∉ tok) :
    replaceToken new (k + 1) (cs ++ (tok ++ colon :: rest)) =
      cs ++ (tok ++ replaceToken new k (colon :: rest)) := by
  obtain ⟨htake, hdrop⟩ := @takeWhile_token cs tok rest hcs hne htok
  rw [replaceToken, htake, hdrop, (takeWhile_ne_token htok).1, (takeWhile_ne_token htok).2,
    append_assoc]

theorem token_inj {x rest' : List UInt8} (hcs : ∀ c ∈ cs, c = colon) (htok : colon ∉ tok)
    (hx : x ≠ []) (hxc : colon ∉ x)
    (h : cs ++ (tok ++ colon :: rest) = x ++ colon :: rest') :
    cs = [] ∧ tok = x ∧ rest = rest' := by
  have hnil : cs = [] := by
    cases cs with
    | nil => rfl
    | cons c cs =>
      obtain ⟨y, x, rfl⟩ := exists_cons_of_ne_nil hx
      rw [cons_append, cons_append, List.cons.injEq] at h
      have hc := hcs c (by simp)
      rw [← h.1, hc] at hxc
      simp at hxc
  subst hnil
  rw [nil_append] at h
  have htok' : tok = x := by
    have htake := congrArg (List.takeWhile (· != colon)) h
    rwa [(takeWhile_ne_token htok).1, (takeWhile_ne_token hxc).1] at htake
  subst htok'
  simpa using h

theorem strtok_eq_some {text : List UInt8} (h : strtok text = some (tok, rest)) :
    ∃ cs, (∀ c ∈ cs, c = colon) ∧ tok ≠ [] ∧ colon ∉ tok ∧
      (text = cs ++ (tok ++ colon :: rest) ∨ text = cs ++ tok ∧ rest = []) := by
  obtain ⟨hne, hcolon, -, -⟩ := of_strtok h
  refine ⟨text.takeWhile (· == colon), ?_, hne, hcolon, ?_⟩
  · intro c hc
    simpa using mem_takeWhile_imp hc
  simp only [strtok] at h
  split at h
  · cases h
  · rw [Option.some.injEq, Prod.mk.injEq] at h
    obtain ⟨htok, hrest⟩ := h
    have hsplit := takeWhile_append_dropWhile (p := (· == colon)) (l := text)
    have hsplit' := takeWhile_append_dropWhile (p := (· != colon))
      (l := text.dropWhile (· == colon))
    rw [htok] at hsplit'
    cases hlast : (text.dropWhile (· == colon)).dropWhile (· != colon) with
    | nil =>
      rw [hlast] at hsplit' hrest
      refine .inr ⟨?_, by simpa using hrest.symm⟩
      rw [append_nil] at hsplit'
      rw [hsplit', hsplit]
    | cons c more =>
      have hhead := head_dropWhile_not (· != colon)
        (l := text.dropWhile (· == colon)) (by rw [hlast]; simp)
      have hc : c = colon := by simpa [hlast] using hhead
      rw [hlast] at hsplit' hrest
      refine .inl ?_
      rw [drop_one, tail_cons] at hrest
      rw [hc] at hsplit'
      rw [← hrest, hsplit', hsplit]

end Token

namespace Gaps

open List

variable {g : Gaps} {name role hashText home new : List UInt8}

theorem eq_colon_of_mem_cons {cs : List UInt8} (hcs : ∀ c ∈ cs, c = colon) :
    ∀ c ∈ colon :: cs, c = colon := by
  intro c hc
  rcases mem_cons.1 hc with rfl | hc
  · rfl
  · exact hcs c hc

theorem takeWhile_spaces (g : Gaps) (hname : nameValid name = true) (rest : List UInt8) :
    (g.spaces ++ (g.c0 ++ (name ++ rest))).takeWhile isspace = g.spaces ∧
      (g.spaces ++ (g.c0 ++ (name ++ rest))).dropWhile isspace =
        g.c0 ++ (name ++ rest) := by
  obtain ⟨hne, -, hchar⟩ := (nameValid_iff name).1 hname
  rw [takeWhile_append_of_pos g.isspace_of_mem, dropWhile_append_of_pos g.isspace_of_mem]
  have hcolons := g.colons0
  cases hc : g.c0 with
  | nil =>
    obtain ⟨c, cs, rfl⟩ := exists_cons_of_ne_nil hne
    have hspace := (nameChar_plain (hchar c (by simp))).2.2.2
    simp [hspace]
  | cons c cs =>
    rw [hc] at hcolons
    have hspace : isspace c = false := by
      rw [hcolons c (by simp)]
      decide
    simp [hspace]

theorem nameValid_token (hname : nameValid name = true) : name ≠ [] ∧ colon ∉ name := by
  obtain ⟨hne, -, hchar⟩ := (nameValid_iff name).1 hname
  exact ⟨hne, fun hc => (nameChar_plain (hchar _ hc)).2.1 rfl⟩

theorem setField_role (g : Gaps) (hname : nameValid name = true) (hrole : role ≠ [])
    (hcolon : colon ∉ role) :
    setField 1 new (g.line name role hashText home) = g.line name new hashText home := by
  obtain ⟨hne, hnameColon⟩ := nameValid_token hname
  obtain ⟨htake, hdrop⟩ := g.takeWhile_spaces hname (colon :: (g.c1 ++ (role ++ colon ::
    (g.c2 ++ (hashText ++ colon :: (g.c3 ++ home))))))
  rw [setField, line, htake, hdrop, replaceToken_succ g.colons0 hne hnameColon,
    ← cons_append, replaceToken_zero (eq_colon_of_mem_cons g.colons1) hrole hcolon]
  rfl

theorem setField_hash (g : Gaps) (hname : nameValid name = true) (hrole : role ≠ [])
    (hcolon : colon ∉ role) (hhash : hashText ≠ []) (hcolon' : colon ∉ hashText) :
    setField 2 new (g.line name role hashText home) = g.line name role new home := by
  obtain ⟨hne, hnameColon⟩ := nameValid_token hname
  obtain ⟨htake, hdrop⟩ := g.takeWhile_spaces hname (colon :: (g.c1 ++ (role ++ colon ::
    (g.c2 ++ (hashText ++ colon :: (g.c3 ++ home))))))
  rw [setField, line, htake, hdrop, replaceToken_succ g.colons0 hne hnameColon,
    ← cons_append, replaceToken_succ (eq_colon_of_mem_cons g.colons1) hrole hcolon,
    ← cons_append, replaceToken_zero (eq_colon_of_mem_cons g.colons2) hhash hcolon']
  rfl

theorem line_eq_joined {role' hashText' home' : List UInt8} (hname : nameValid name = true)
    (hrole : colon ∉ role) (hhash : colon ∉ hashText)
    (hrole' : role' ≠ [] ∧ colon ∉ role') (hhash' : hashText' ≠ [] ∧ colon ∉ hashText')
    (hhome' : home'.headD 0 = slash)
    (h : g.line name role hashText home = joined name role' hashText' home') :
    role = role' ∧ hashText = hashText' ∧ home = home' ∧
      ∀ a b c, g.line name a b c = joined name a b c := by
  obtain ⟨hne, hnameColon⟩ := nameValid_token hname
  have htail := (g.takeWhile_spaces hname (colon :: (g.c1 ++ (role ++ colon ::
    (g.c2 ++ (hashText ++ colon :: (g.c3 ++ home))))))).1
  have hspaces : g.spaces = [] := by
    rw [← htail]
    have hline : joined name role' hashText' home' = Gaps.none.spaces ++ (Gaps.none.c0 ++
      (name ++ colon :: (role' ++ colon :: (hashText' ++ colon :: home')))) := rfl
    rw [line] at h
    rw [h, hline, (Gaps.none.takeWhile_spaces hname _).1]
    rfl
  rw [line, hspaces, nil_append, joined] at h
  obtain ⟨h0, -, hrest⟩ := token_inj g.colons0 hnameColon hne hnameColon h
  obtain ⟨h1, rfl, hrest'⟩ := token_inj g.colons1 hrole hrole'.1 hrole'.2 hrest
  obtain ⟨h2, rfl, hlast⟩ := token_inj g.colons2 hhash hhash'.1 hhash'.2 hrest'
  have h3 : g.c3 = [] := by
    have hcolons := g.colons3
    cases hc : g.c3 with
    | nil => rfl
    | cons c cs =>
      rw [hc] at hlast hcolons
      rw [← hlast, cons_append, headD_cons, hcolons c (by simp)] at hhome'
      exact absurd hhome' (by decide)
  rw [h3, nil_append] at hlast
  refine ⟨rfl, rfl, hlast, ?_⟩
  intro a b c
  simp only [line, joined, hspaces, h0, h1, h2, h3, nil_append]

end Gaps

theorem exists_gaps {s : List UInt8} {r : Record} (h : lineRecord s = some r) :
    ∃ (g : Gaps) (role home : List UInt8), s = g.line r.name role r.hash home ∧
      role ≠ [] ∧ colon ∉ role ∧ home.headD 0 = slash ∧ r.home.length ≤ home.length := by
  obtain ⟨name, role, hashText, home, rest, rest', rest'', last, hname, hrole, hhash, hhome, hvalid,
    hlength, hslash, rfl⟩ := parseRecord_eq_some h
  -- the text that is parsed, with what was cut off
  have hcopy : cuCopy recordMax (lineOf s) <+: s :=
    ((List.take_prefix _ _).trans (List.takeWhile_prefix _)).trans
      ((List.takeWhile_prefix _).trans (List.take_prefix _ _))
  obtain ⟨more, hmore⟩ := hcopy
  obtain ⟨more', hmore'⟩ := rdropWhile_prefix isspace
    ((cuCopy recordMax (lineOf s)).dropWhile isspace)
  have hs : s = (cuCopy recordMax (lineOf s)).takeWhile isspace ++
      (cuTrim (cuCopy recordMax (lineOf s)) ++ (more' ++ more)) := by
    rw [cuTrim, ← append_assoc _ more', hmore', ← append_assoc,
      takeWhile_append_dropWhile, hmore]
  have hnil : strtok [] = none := by decide
  obtain ⟨c0, hc0, -, hnameColon, htext | ⟨-, hnone⟩⟩ := strtok_eq_some hname
  · obtain ⟨c1, hc1, hroleNe, hroleColon, htext' | ⟨-, hnone⟩⟩ := strtok_eq_some hrole
    · obtain ⟨c2, hc2, hhashNe, hhashColon, htext'' | ⟨-, hnone⟩⟩ := strtok_eq_some hhash
      · obtain ⟨c3, hc3, hhomeNe, -, htext₃⟩ := strtok_eq_some hhome
        obtain ⟨tail, htail⟩ : ∃ tail, rest'' = c3 ++ (home ++ tail) := by
          rcases htext₃ with htext₃ | ⟨htext₃, -⟩
          · exact ⟨_, htext₃⟩
          · exact ⟨[], by rw [htext₃, append_nil]⟩
        have hname' : cuCopy nameMax name = name := by
          obtain ⟨-, hlen, hchar⟩ := (nameValid_iff name).1 hvalid
          exact cuCopy_of_length (fun hc => (nameChar_plain (hchar _ hc)).1 rfl) (by omega)
        have hhash' : cuCopy (hashHexLen + 1) hashText = hashText := by
          refine cuCopy_of_length (fun hc => ?_) (by rw [hlength]; omega)
          have hmem : (0 : UInt8) ∈ cuTrim (cuCopy recordMax (lineOf s)) := by
            rw [htext, htext', htext'']
            simp [hc]
          have hcopied := (dropWhile_suffix _).subset ((List.rdropWhile_prefix _ _).subset hmem)
          exact notMem_cstr _ (mem_of_mem_take hcopied)
        refine ⟨⟨(cuCopy recordMax (lineOf s)).takeWhile isspace, c0, c1, c2, c3,
          fun c hc => mem_takeWhile_imp hc, hc0, hc1, hc2, hc3⟩, role,
          home ++ tail ++ (more' ++ more), ?_, hroleNe, hroleColon, ?_, ?_⟩
        · rw [Gaps.line, hname', hhash']
          refine hs.trans ?_
          rw [htext, htext', htext'', htail]
          simp only [append_assoc, cons_append]
        · obtain ⟨c, cs, rfl⟩ := exists_cons_of_ne_nil hhomeNe
          exact hslash
        · have hle : (cuCopy homeMax home).length ≤ home.length :=
            (length_take_le' _ _).trans (length_cstr_le _)
          simp only [length_append]
          omega
      · rw [hnone, hnil] at hhome
        cases hhome
    · rw [hnone, hnil] at hhash
      cases hhash
  · rw [hnone, hnil] at hrole
    cases hrole

theorem WellFormed.hash_ne {r : Record} (hr : WellFormed r) : r.hash ≠ [] := by
  intro hnil
  have hlen := hr.hash_length
  rw [hnil] at hlen
  exact absurd hlen (by decide)

/-- A change of one field of a user. -/
inductive Edit
  | password (newPassword : List UInt8)
  | role (newRole : ℕ)

namespace Edit

open List

/-- The call that makes the change. -/
def run (a : Answers) (data : ℕ → UInt8) (db : Db) (name : List UInt8) : Edit → Bool × Db
  | .password newPassword => cleonosUserChangePassword a data db name newPassword
  | .role newRole => cleonosUserSetRole a db name newRole

/-- The field that it is about, counted from the name. -/
def field : Edit → ℕ
  | .password _ => 2
  | .role _ => 1

def text (data : ℕ → UInt8) : Edit → List UInt8
  | .password newPassword => cleonosUserHashPassword data (some newPassword)
  | .role newRole => roleText newRole

/-- The record that is written. -/
def record (data : ℕ → UInt8) (r : Record) : Edit → Record
  | .password newPassword => { r with hash := cleonosUserHashPassword data (some newPassword) }
  | .role newRole => { r with role := if newRole = roleAdmin then roleAdmin else roleUser }

/-- The role of the line is written as it was read, unless it is what changes. -/
def KeepsRole (r : Record) (role : List UInt8) : Edit → Prop
  | .password _ => role = roleText r.role
  | .role _ => True

variable {data : ℕ → UInt8} {edit : Edit} {r : Record}

@[simp] theorem record_name : (edit.record data r).name = r.name := by
  cases edit <;> rfl

@[simp] theorem record_home : (edit.record data r).home = r.home := by
  cases edit <;> rfl

theorem roleText_normal (role : ℕ) :
    roleText (if role = roleAdmin then roleAdmin else roleUser) = roleText role := by
  by_cases h : role = roleAdmin
  · rw [if_pos h, h]
  · rw [if_neg h, roleText, roleText, if_neg h, if_neg (by decide)]

theorem wellFormed_record (hr : WellFormed r) : WellFormed (edit.record data r) := by
  cases edit with
  | password newPassword =>
    obtain ⟨hlen, hchar⟩ := hashPassword_spec data newPassword
    exact { hr with hash_field := isField_of_nameChar hchar, hash_length := hlen }
  | role newRole => exact { hr with }

theorem isField_text : edit.text data ≠ [] ∧ IsField (edit.text data) := by
  cases edit with
  | password newPassword =>
    obtain ⟨hlen, hchar⟩ := hashPassword_spec data newPassword
    refine ⟨fun hnil => ?_, isField_of_nameChar hchar⟩
    rw [text] at hnil
    rw [hnil] at hlen
    exact absurd hlen (by decide)
  | role newRole => exact ⟨(roleText_field newRole).1, (roleText_field newRole).2.1⟩

theorem setField_joined (hr : WellFormed r) {role home : List UInt8} (hrole : role ≠ [])
    (hcolon : colon ∉ role) (hkeeps : edit.KeepsRole r role) :
    setField edit.field (edit.text data) (joined r.name role r.hash home) =
      joined r.name (roleText (edit.record data r).role) (edit.record data r).hash home := by
  have hhash := hr.hash_ne
  simp only [← Gaps.line_none]
  cases edit with
  | password newPassword =>
    rw [field, Gaps.setField_hash _ hr.name_valid hrole hcolon hhash hr.hash_field.1]
    rw [KeepsRole] at hkeeps
    rw [hkeeps]
    rfl
  | role newRole =>
    rw [field, Gaps.setField_role _ hr.name_valid hrole hcolon, text, record, roleText_normal]

theorem of_setField_eq_joined (hr : WellFormed r) {own home : List UInt8}
    (hown : lineRecord own = some r) (hhome : home.headD 0 = slash)
    (h : setField edit.field (edit.text data) own =
      joined r.name (roleText (edit.record data r).role) (edit.record data r).hash home) :
    (∃ role, role ≠ [] ∧ colon ∉ role ∧ edit.KeepsRole r role ∧
      own = joined r.name role r.hash home) ∧ r.home.length ≤ home.length := by
  obtain ⟨g, role, home', hline, hrole, hcolon, hhome', hlen⟩ := exists_gaps hown
  have hhash := hr.hash_ne
  have hwf := @wellFormed_record data edit r hr
  have hhash' := hwf.hash_ne
  have hroleText := roleText_field (edit.record data r).role
  have htext := @isField_text data edit
  rw [hline] at h
  cases edit with
  | password newPassword =>
    rw [field, g.setField_hash hr.name_valid hrole hcolon hhash hr.hash_field.1] at h
    obtain ⟨hrole', -, rfl, hall⟩ := g.line_eq_joined hr.name_valid hcolon htext.2.1
      ⟨hroleText.1, hroleText.2.1.1⟩ ⟨hhash', hwf.hash_field.1⟩ hhome h
    exact ⟨⟨role, hrole, hcolon, hrole', by rw [hline, hall]⟩, hlen⟩
  | role newRole =>
    rw [field, g.setField_role hr.name_valid hrole hcolon] at h
    obtain ⟨-, -, rfl, hall⟩ := g.line_eq_joined hr.name_valid htext.2.1 hr.hash_field.1
      ⟨hroleText.1, hroleText.2.1.1⟩ ⟨hhash', hwf.hash_field.1⟩ hhome h
    exact ⟨⟨role, hrole, hcolon, trivial, by rw [hline, hall]⟩, hlen⟩

end Edit

/-- A line with a record of the name. -/
def IsOf (name segment : List UInt8) : Prop := ∃ r, lineRecord segment = some r ∧ r.name = name

/-- The first line with a record of the name, and the lines around it. -/
structure First (file name : List UInt8) (pre : List (List UInt8)) (own : List UInt8)
    (post : List (List UInt8)) (r : Record) : Prop where
  split : segments file = pre ++ own :: post
  before : ∀ s ∈ pre, ¬ IsOf name s
  record : lineRecord own = some r
  name_eq : r.name = name

/-- The file `file'` is `file` but for the `k`-th field of the line of the user. -/
def LocalEdit (file name : List UInt8) (k : ℕ) (new file' : List UInt8) : Prop :=
  ∃ pre own post r, First file name pre own post r ∧
    segments file' = pre ++ setField k new own :: post

/-- A line that the loop copies as it is. -/
structure Whole (segment : List UInt8) : Prop where
  ne_nil : segment ≠ []
  nul_notMem : (0 : UInt8) ∉ segment
  length_le : segment.length ≤ recordMax - 1

/-- The lines behind the one of the user are ended by newlines and stay as they are, and the new
line fits the buffer; or there are none, and what is cut off the new line is its newline. -/
def TidyBehind (name : List UInt8) (r' : Record) (post : List (List UInt8)) : Prop :=
  (∃ mid, post = mid ++ [[]] ∧ (fullLine r').length + 1 ≤ recordMax - 1 ∧
    ∀ s ∈ mid, Whole s ∧ ¬ IsOf name s ∨ s = fullLine r') ∨
  (post = [] ∧ (fullLine r').length = recordMax - 1)

/-- A file that can be edited in place: the line of the user has the four fields that are written
and no others, and all other lines stay as they are. -/
def Tidy (data : ℕ → UInt8) (edit : Edit) (file name : List UInt8) : Prop :=
  ∃ pre role post r, First file name pre (joined r.name role r.hash r.home) post r ∧
    role ≠ [] ∧ colon ∉ role ∧ edit.KeepsRole r role ∧ (∀ s ∈ pre, Whole s) ∧
    TidyBehind name (edit.record data r) post

section Pieces

variable {data : ℕ → UInt8} {edit : Edit} {file name s e : List UInt8} {r r' : Record}
  {pre post : List (List UInt8)} {own : List UInt8}

theorem First.unique {pre' post' : List (List UInt8)} {own' : List UInt8}
    (h : First file name pre own post r) (h' : First file name pre' own' post' r') :
    pre = pre' ∧ own = own' ∧ post = post' ∧ r = r' := by
  have hsplit := h.split.symm.trans h'.split
  have hown : IsOf name own := ⟨r, h.record, h.name_eq⟩
  have hown' : IsOf name own' := ⟨r', h'.record, h'.name_eq⟩
  have hlines : pre = pre' ∧ own = own' ∧ post = post' := by
    rcases append_eq_append_iff.1 hsplit with ⟨more, hpre, hrest⟩ | ⟨more, hpre, hrest⟩
    · cases more with
      | nil =>
        rw [nil_append, List.cons.injEq] at hrest
        exact ⟨by simpa using hpre.symm, hrest⟩
      | cons x more =>
        rw [cons_append, List.cons.injEq] at hrest
        exact absurd (hrest.1 ▸ hown) (h'.before x (by simp [hpre]))
    · cases more with
      | nil =>
        rw [nil_append, List.cons.injEq] at hrest
        exact ⟨by simpa using hpre, hrest.1.symm, hrest.2.symm⟩
      | cons x more =>
        rw [cons_append, List.cons.injEq] at hrest
        exact absurd (hrest.1 ▸ hown') (h.before x (by simp [hpre]))
  obtain ⟨rfl, rfl, rfl⟩ := hlines
  have hr := h.record
  rw [h'.record] at hr
  exact ⟨rfl, rfl, rfl, (Option.some.inj hr).symm⟩

theorem First.wellFormed (h : First file name pre own post r) : WellFormed r := by
  refine @wellFormed_of_mem_records file r (mem_filterMap.2 ⟨own, ?_, h.record⟩)
  rw [h.split]
  simp

theorem exists_first (hload : Loads file) (h : cleonosUserFind name (some file) = some r) :
    ∃ pre own post, First file name pre own post r := by
  rw [cleonosUserFind] at h
  split at h
  · cases h
  rw [cuReadAll_of_loads hload] at h
  simp only at h
  generalize hsegs : segments file = segs at h
  suffices hsuff : ∃ pre own post, segs = pre ++ own :: post ∧ (∀ s ∈ pre, ¬ IsOf name s) ∧
      lineRecord own = some r ∧ r.name = name by
    obtain ⟨pre, own, post, hsplit, hpre, hown, hname⟩ := hsuff
    exact ⟨pre, own, post, hsegs.trans hsplit, hpre, hown, hname⟩
  clear hsegs
  induction segs with
  | nil => cases h
  | cons s segs ih =>
    rw [findLoop] at h
    by_cases hs : IsOf name s
    · obtain ⟨q, hq, hname⟩ := hs
      rw [lineRecord] at hq
      rw [hq] at h
      simp only [if_pos hname, Option.some.injEq] at h
      subst h
      exact ⟨[], s, segs, rfl, by simp, hq, hname⟩
    · have hrest : findLoop name segs = some r := by
        split at h
        · exact h
        · next q hq =>
          rwa [if_neg fun hname => hs ⟨q, hq, hname⟩] at h
      obtain ⟨pre, own, post, rfl, hpre, hown, hname⟩ := ih hrest
      refine ⟨s :: pre, own, post, rfl, ?_, hown, hname⟩
      intro t ht
      rcases mem_cons.1 ht with rfl | ht
      · exact hs
      · exact hpre t ht

theorem piece_of_not_isOf (h : ¬ IsOf r.name s) : piece (some r) none s = copied s := by
  rw [piece, action]
  cases hs : lineRecord s with
  | none => rfl
  | some record =>
    have hne : record.name ≠ r.name := fun hname => h ⟨record, hs, hname⟩
    simp [hne, Option.filter]

theorem piece_of_isOf (h : IsOf r.name s) : piece (some r) none s = recordLine recordMax r := by
  obtain ⟨record, hs, hname⟩ := h
  simp [piece, action, hs, hname, Option.filter]

theorem copied_eq_line : copied s = s ++ [newline] ↔ Whole s := by
  rw [copied]
  constructor
  · intro h
    split at h
    · simp at h
    · next hne =>
      have hline : lineOf s = s := by simpa using h
      rw [hline] at hne
      refine ⟨hne, hline ▸ nul_notMem_lineOf s, ?_⟩
      have hlen := length_lineOf_le s
      rw [hline, lineLen] at hlen
      omega
  · intro h
    have hline := lineOf_of_length h.nul_notMem h.length_le
    rw [hline, if_neg h.ne_nil]

theorem copied_eq_self (hs : newline ∉ s) : copied s = s ↔ s = [] := by
  rw [copied]
  constructor
  · intro h
    split at h
    · exact h.symm
    · rw [← h] at hs
      simp at hs
  · rintro rfl
    rfl

theorem recordLine_eq_line (hr : WellFormed r) (he : newline ∉ e) :
    recordLine recordMax r = e ++ [newline] ↔
      fullLine r = e ∧ (fullLine r).length + 1 ≤ recordMax - 1 := by
  rw [hr.recordLine_eq]
  constructor
  · intro h
    by_cases hlen : (fullLine r).length + 1 ≤ recordMax - 1
    · rw [take_of_length_le (by simpa using hlen)] at h
      exact ⟨by simpa using h, hlen⟩
    · rw [take_append_of_le_length (by omega)] at h
      have hmem : newline ∈ (fullLine r).take (recordMax - 1) := by
        rw [h]
        simp
      exact absurd (mem_of_mem_take hmem) hr.newline_notMem
  · rintro ⟨rfl, hlen⟩
    rw [take_of_length_le (by simpa using hlen)]

theorem recordLine_eq_self (hr : WellFormed r) (he : newline ∉ e) :
    recordLine recordMax r = e ↔
      recordMax - 1 ≤ (fullLine r).length ∧ (fullLine r).take (recordMax - 1) = e := by
  rw [hr.recordLine_eq]
  by_cases hlen : (fullLine r).length + 1 ≤ recordMax - 1
  · rw [take_of_length_le (by simpa using hlen)]
    constructor
    · intro h
      rw [← h] at he
      simp at he
    · intro h
      omega
  · rw [take_append_of_le_length (by omega)]
    simp only [iff_and_self]
    omega

theorem Gaps.newline_notMem_line {g : Gaps} {name role hashText home : List UInt8} :
    newline ∉ g.line name role hashText home ↔ newline ∉ g.spaces ∧ newline ∉ name ∧
      newline ∉ role ∧ newline ∉ hashText ∧ newline ∉ home := by
  have hcolon : newline ≠ colon := by decide
  have h0 : newline ∉ g.c0 := fun hc => hcolon (g.colons0 _ hc)
  have h1 : newline ∉ g.c1 := fun hc => hcolon (g.colons1 _ hc)
  have h2 : newline ∉ g.c2 := fun hc => hcolon (g.colons2 _ hc)
  have h3 : newline ∉ g.c3 := fun hc => hcolon (g.colons3 _ hc)
  simp [Gaps.line, hcolon, h0, h1, h2, h3]

section

variable (hr : WellFormed r)
include hr

theorem setField_spec (hown : lineRecord own = some r) (hnl : newline ∉ own) :
    newline ∉ setField edit.field (edit.text data) own ∧
      setField edit.field (edit.text data) own ≠ [] := by
  obtain ⟨g, role, home, rfl, hrole, hcolon, -, -⟩ := exists_gaps hown
  have htext := (@Edit.isField_text data edit).2.2.1
  rw [Gaps.newline_notMem_line] at hnl
  have hset : setField edit.field (edit.text data) (g.line r.name role r.hash home) =
        g.line r.name (edit.text data) r.hash home ∨
      setField edit.field (edit.text data) (g.line r.name role r.hash home) =
        g.line r.name role (edit.text data) home := by
    cases edit with
    | password newPassword =>
      exact .inr (g.setField_hash hr.name_valid hrole hcolon hr.hash_ne hr.hash_field.1)
    | role newRole => exact .inl (g.setField_role hr.name_valid hrole hcolon)
  rcases hset with hset | hset <;> rw [hset, Gaps.newline_notMem_line]
  · exact ⟨⟨hnl.1, hnl.2.1, htext, hnl.2.2.2⟩, by simp [Gaps.line]⟩
  · exact ⟨⟨hnl.1, hnl.2.1, hnl.2.2.1, htext, hnl.2.2.2.2⟩, by simp [Gaps.line]⟩

theorem atMostLine_piece (hs : newline ∉ s) :
    AtMostLine newline (piece (some r) none s) := by
  have hwrote := wrote_piece hr hs
  generalize piece (some r) none s = w, (lineRecord s).map Record.name = o at hwrote ⊢
  cases hwrote with
  | nothing => exact .inl (by simp)
  | line hl _ => exact .inr ⟨_, hl, rfl⟩
  | cut hl _ _ => exact .inl hl

theorem own_line_iff (hown : lineRecord own = some r) :
    fullLine (edit.record data r) = setField edit.field (edit.text data) own ↔
      ∃ role, role ≠ [] ∧ colon ∉ role ∧ edit.KeepsRole r role ∧
        own = joined r.name role r.hash r.home := by
  constructor
  · intro h
    have hjoined : setField edit.field (edit.text data) own =
        joined r.name (roleText (edit.record data r).role) (edit.record data r).hash r.home := by
      rw [← h, fullLine, Edit.record_name, Edit.record_home]
    exact (Edit.of_setField_eq_joined hr hown hr.home_head hjoined).1
  · rintro ⟨role, hrole, hcolon, hkeeps, rfl⟩
    rw [Edit.setField_joined hr hrole hcolon hkeeps, fullLine, Edit.record_name, Edit.record_home]

theorem own_end_iff (hown : lineRecord own = some r) :
    (recordMax - 1 ≤ (fullLine (edit.record data r)).length ∧
      (fullLine (edit.record data r)).take (recordMax - 1) =
        setField edit.field (edit.text data) own) ↔
      fullLine (edit.record data r) = setField edit.field (edit.text data) own ∧
        (fullLine (edit.record data r)).length = recordMax - 1 := by
  constructor
  · rintro ⟨hlen, htake⟩
    obtain ⟨k, hk, hcut⟩ := take_fullLine (@Edit.wellFormed_record data edit r hr)
    rw [Edit.record_name, Edit.record_home] at hcut
    have hhead : (r.home.take k).headD 0 = slash := by
      have hhome := hr.home_head
      obtain ⟨j, rfl⟩ := Nat.exists_eq_succ_of_ne_zero hk.ne'
      cases hh : r.home with
      | nil =>
        rw [hh] at hhome
        exact absurd hhome (by decide)
      | cons c t =>
        rw [hh] at hhome
        exact hhome
    -- nothing of the home directory is cut off, as the record was read from this line
    obtain ⟨-, hhome⟩ := Edit.of_setField_eq_joined hr hown hhead (htake.symm.trans hcut)
    have hall : r.home.take k = r.home := by
      refine take_of_length_le ?_
      rw [length_take] at hhome
      omega
    have hfull : (fullLine (edit.record data r)).take (recordMax - 1) =
        fullLine (edit.record data r) := by
      rw [hcut, hall, fullLine, Edit.record_name, Edit.record_home]
    refine ⟨hfull ▸ htake, ?_⟩
    have hle := congrArg List.length hfull
    rw [length_take] at hle
    omega
  · rintro ⟨hline, hlen⟩
    refine ⟨hlen.ge, ?_⟩
    rw [take_of_length_le hlen.le, hline]

theorem lineRecord_fullLine (hlen : (fullLine r).length + 1 ≤ recordMax - 1) :
    IsOf r.name (fullLine r) := by
  have hname := name_lineRecord_take hr
  rw [take_of_length_le (by omega)] at hname
  obtain ⟨r', hr', hname'⟩ := Option.map_eq_some_iff.1 hname
  exact ⟨r', hr', hname'⟩

theorem stays_iff (hs : newline ∉ s)
    (hlen : (fullLine r).length + 1 ≤ recordMax - 1) :
    piece (some r) none s = s ++ [newline] ↔ Whole s ∧ ¬ IsOf r.name s ∨ s = fullLine r := by
  by_cases hof : IsOf r.name s
  · rw [piece_of_isOf hof, recordLine_eq_line hr hs]
    constructor
    · rintro ⟨hline, -⟩
      exact .inr hline.symm
    · rintro (⟨-, hne⟩ | rfl)
      · exact absurd hof hne
      · exact ⟨rfl, hlen⟩
  · rw [piece_of_not_isOf hof, copied_eq_line]
    constructor
    · exact fun hwhole => .inl ⟨hwhole, hof⟩
    · rintro (⟨hwhole, -⟩ | rfl)
      · exact hwhole
      · exact absurd (lineRecord_fullLine hr hlen) hof

end

theorem not_isOf_nil : ¬ IsOf name [] := by
  rintro ⟨q, hq, -⟩
  rw [lineRecord_nil] at hq
  cases hq

theorem piece_eq_self_iff (hr : WellFormed r) (hs : newline ∉ s)
    (hlen : (fullLine r).length + 1 ≤ recordMax - 1) : piece (some r) none s = s ↔ s = [] := by
  by_cases hof : IsOf r.name s
  · rw [piece_of_isOf hof, recordLine_eq_self hr hs]
    constructor
    · intro h
      omega
    · rintro rfl
      exact absurd hof not_isOf_nil
  · rw [piece_of_not_isOf hof, copied_eq_self hs]

theorem rewrite_iff {own' : List UInt8} (hr : WellFormed r)
    (hnl : ∀ s ∈ pre ++ own :: post, newline ∉ s) (hown : IsOf r.name own)
    (hpre : ∀ s ∈ pre, ¬ IsOf r.name s) (hnl' : newline ∉ own') (hne' : own' ≠ [])
    (hend : (recordMax - 1 ≤ (fullLine r).length ∧ (fullLine r).take (recordMax - 1) = own') ↔
      fullLine r = own' ∧ (fullLine r).length = recordMax - 1) :
    segments ((pre ++ own :: post).flatMap (piece (some r) none)) = pre ++ own' :: post ↔
      fullLine r = own' ∧ (∀ s ∈ pre, Whole s) ∧ TidyBehind r.name r post := by
  have hpairs : ∀ ss : List (List UInt8), (∀ s ∈ ss, newline ∉ s) →
      ∀ p ∈ ss.map fun s => (piece (some r) none s, s), AtMostLine newline p.1 ∧ newline ∉ p.2 := by
    intro ss hss p hp
    obtain ⟨s, hs, rfl⟩ := mem_map.1 hp
    exact ⟨atMostLine_piece hr (hss s hs), hss s hs⟩
  have hownPair : AtMostLine newline (piece (some r) none own) ∧ newline ∉ own' :=
    ⟨atMostLine_piece hr (hnl own (by simp)), hnl'⟩
  have hwhole : (∀ s ∈ pre, piece (some r) none s = s ++ [newline]) ↔ ∀ s ∈ pre, Whole s :=
    forall₂_congr fun s hs => by rw [piece_of_not_isOf (hpre s hs), copied_eq_line]
  rcases eq_nil_or_concat post with rfl | ⟨mid, last, rfl⟩
  · -- the line of the user is the last one
    have hall : ∀ p ∈ (pre.map fun s => (piece (some r) none s, s)) ++
        [(piece (some r) none own, own')], AtMostLine newline p.1 ∧ newline ∉ p.2 := by
      intro p hp
      rcases mem_append.1 hp with hp | hp
      · exact hpairs pre (fun s hs => hnl s (by simp [hs])) p hp
      · rw [mem_singleton.1 hp]
        exact hownPair
    have hsplit := splitOn_flatMap_iff (fun p hp => (hall p hp).1) (fun p hp => (hall p hp).2)
      (fun h => absurd h hne')
    simp only [flatMap_map, map_map, forall_mem_map, Function.comp_def,
      map_id'] at hsplit
    rw [segments, flatMap_append, flatMap_cons, flatMap_nil, append_nil, hsplit,
      hwhole, piece_of_isOf hown, recordLine_eq_self hr hnl', hend]
    constructor
    · rintro ⟨hpre', hline, hlen⟩
      exact ⟨hline, hpre', .inr ⟨rfl, hlen⟩⟩
    · rintro ⟨hline, hpre', ⟨mid, hmid, -⟩ | ⟨-, hlen⟩⟩
      · simp at hmid
      · exact ⟨hpre', hline, hlen⟩
  · have hmid : ∀ s ∈ mid, newline ∉ s := fun s hs => hnl s (by simp [hs])
    have hlast : newline ∉ last := hnl last (by simp)
    have hall : ∀ p ∈ ((pre.map fun s => (piece (some r) none s, s)) ++
        (piece (some r) none own, own') :: mid.map fun s => (piece (some r) none s, s)) ++
        [(piece (some r) none last, last)], AtMostLine newline p.1 ∧ newline ∉ p.2 := by
      intro p hp
      rw [append_assoc, mem_append, cons_append, mem_cons,
        mem_append] at hp
      rcases hp with hp | rfl | hp | hp
      · exact hpairs pre (fun s hs => hnl s (by simp [hs])) p hp
      · exact hownPair
      · exact hpairs mid hmid p hp
      · exact hpairs [last] (by simpa using hlast) p hp
    have hsplit := splitOn_flatMap_iff (fun p hp => (hall p hp).1) (fun p hp => (hall p hp).2)
      (fun h => by
        simp only at h
        rw [h, piece_of_not_isOf not_isOf_nil]
        rfl)
    simp only [flatMap_append, flatMap_cons, flatMap_map, map_append,
      map_cons, map_map, forall_mem_append, forall_mem_cons,
      forall_mem_map, Function.comp_def, map_id', append_assoc] at hsplit
    simp only [segments, concat_eq_append, flatMap_append, flatMap_cons,
      flatMap_nil, append_nil, cons_append] at hsplit ⊢
    rw [hsplit, hwhole, piece_of_isOf hown, recordLine_eq_line hr hnl']
    constructor
    · rintro ⟨⟨hpre', ⟨hline, hlen⟩, hstay⟩, hend'⟩
      refine ⟨hline, hpre', .inl ⟨mid, ?_, hlen, fun s hs => ?_⟩⟩
      · rw [(piece_eq_self_iff hr hlast hlen).1 hend']
      · exact (stays_iff hr (hmid s hs) hlen).1 (hstay s hs)
    · rintro ⟨hline, hpre', ⟨mid', hpost, hlen, hstay⟩ | ⟨hnil, -⟩⟩
      · obtain ⟨rfl, hnil⟩ := append_inj' hpost rfl
        rw [List.cons.injEq] at hnil
        refine ⟨⟨hpre', ⟨hline, hlen⟩, fun s hs => ?_⟩, ?_⟩
        · exact (stays_iff hr (hmid s hs) hlen).2 (hstay s hs)
        · exact (piece_eq_self_iff hr hlast hlen).2 hnil.1
      · simp at hnil

theorem First.segments_iff (h : First file name pre own post r) :
    segments ((segments file).flatMap (piece (some (edit.record data r)) none)) =
        pre ++ setField edit.field (edit.text data) own :: post ↔
      (∃ role, role ≠ [] ∧ colon ∉ role ∧ edit.KeepsRole r role ∧
        own = joined r.name role r.hash r.home) ∧ (∀ s ∈ pre, Whole s) ∧
      TidyBehind name (edit.record data r) post := by
  have hr := h.wellFormed
  have hname : (edit.record data r).name = name := Edit.record_name.trans h.name_eq
  have hnl : ∀ s ∈ pre ++ own :: post, newline ∉ s := fun s hs =>
    newline_notMem_segments (h.split ▸ hs)
  obtain ⟨hset, hsetNe⟩ := @setField_spec data edit r own hr h.record (hnl own (by simp))
  rw [h.split, rewrite_iff (Edit.wellFormed_record hr) hnl ⟨r, h.record, Edit.record_name.symm⟩
    (by rw [hname]; exact h.before) hset hsetNe (own_end_iff hr h.record),
    own_line_iff hr h.record, hname]

end Pieces

/-! ## The calls -/

variable {a : Answers} {data : ℕ → UInt8} {edit : Edit} {file name : List UInt8} {db' : Db}
  {r : Record}

theorem loads_of_find (h : cleonosUserFind name (some file) = some r) : Loads file := by
  rw [cleonosUserFind] at h
  split at h
  · cases h
  · by_contra hload
    have hnone : cuReadAll (some file) = none := by
      rw [cuReadAll, Option.filter_some, if_neg (by simpa [Loads] using hload)]
    rw [hnone] at h
    cases h

theorem Edit.run_eq_true (ha : a.userSetRole = false)
    (hrun : edit.run a data (some file) name = (true, db')) :
    ∃ pre own post r, First file name pre own post r ∧
      db' = some ((segments file).flatMap (piece (some (edit.record data r)) none)) := by
  cases hfind : cleonosUserFind name (some file) with
  | none => cases edit <;> simp [run, cleonosUserChangePassword, cleonosUserSetRole, hfind] at hrun
  | some r =>
    have hload := loads_of_find hfind
    have hcall : cuDbRewriteWith a (some file) (some (edit.record data r)) none = (true, db') := by
      cases edit with
      | password newPassword =>
        simp only [run, cleonosUserChangePassword, hfind] at hrun
        split at hrun
        · cases hrun
        · exact hrun
      | role newRole =>
        simp only [run, cleonosUserSetRole, hfind, ha, Bool.false_eq_true, if_false] at hrun
        exact hrun
    obtain ⟨pre, own, post, hfirst⟩ := exists_first hload hfind
    refine ⟨pre, own, post, r, hfirst, ?_⟩
    have hwf : ∀ q, some (edit.record data r) = some q → WellFormed q := fun q hq =>
      Option.some.inj hq ▸ wellFormed_record hfirst.wellFormed
    rcases @cuDbRewriteWith_cases a file _ none hwf hload with h | ⟨h, -⟩
    · rw [h] at hcall
      cases hcall
    · rw [h] at hcall
      exact (Prod.mk.inj hcall).2.symm

/-- A call that succeeds edits the one field of the line of the user, and nothing else, exactly
when the file is tidy. -/
theorem local_edit_iff (a : Answers) (data : ℕ → UInt8) (edit : Edit) (file name : List UInt8)
    (db' : Db) (ha : a.userSetRole = false)
    (hrun : edit.run a data (some file) name = (true, db')) :
    (∃ file', db' = some file' ∧ LocalEdit file name edit.field (edit.text data) file') ↔
      Tidy data edit file name := by
  obtain ⟨pre, own, post, r, hfirst, rfl⟩ := Edit.run_eq_true ha hrun
  constructor
  · rintro ⟨file', hfile', pre', own', post', r', hfirst', hsegs⟩
    obtain ⟨rfl, rfl, rfl, rfl⟩ := hfirst.unique hfirst'
    rw [← Option.some.inj hfile'] at hsegs
    obtain ⟨⟨role, hrole, hcolon, hkeeps, rfl⟩, hpre, hpost⟩ := hfirst.segments_iff.1 hsegs
    exact ⟨pre, role, post, r, hfirst, hrole, hcolon, hkeeps, hpre, hpost⟩
  · rintro ⟨pre', role, post', r', hfirst', hrole, hcolon, hkeeps, hpre, hpost⟩
    obtain ⟨rfl, rfl, rfl, rfl⟩ := hfirst.unique hfirst'
    exact ⟨_, rfl, pre, _, post, r, hfirst,
      hfirst.segments_iff.2 ⟨⟨role, hrole, hcolon, hkeeps, rfl⟩, hpre, hpost⟩⟩

/-- The kernel leaves roles to the file, and the file is written. -/
def writes : Answers := ⟨false, false, false, true, true, true, true, true⟩

def zeroHash : List UInt8 := List.replicate 64 48

/-- The role of `bob`, alone in the file. -/
theorem local_edit_bob : (∃ file', (some (joined (lit "bob") (lit "admin") zeroHash (lit "/home/bob") ++
        [newline]) : Db) = some file' ∧
      LocalEdit (joined (lit "bob") (lit "user") zeroHash (lit "/home/bob") ++ [newline]) (lit "bob")
        1 (lit "admin") file') ↔
    Tidy (fun _ => 0) (.role 1)
      (joined (lit "bob") (lit "user") zeroHash (lit "/home/bob") ++ [newline]) (lit "bob") :=
  local_edit_iff writes (fun _ => 0) (.role 1) _ _ _ rfl (by decide +kernel)

/-- The line that the installer writes for `root`. -/
def installedRoot : List UInt8 :=
  joined (lit "root") (lit "admin") zeroHash (lit "/home/root:0") ++ [newline]

/-- Setting the role of `root` takes the last field of the line away. -/
theorem not_local_edit : ¬ ∀ (a : Answers) (data : ℕ → UInt8) (edit : Edit) (file name file' : List UInt8),
    a.userSetRole = false → edit.run a data (some file) name = (true, some file') →
      LocalEdit file name edit.field (edit.text data) file' := by
  intro h
  have hrun : (Edit.role 1).run writes (fun _ => 0) (some installedRoot) (lit "root") =
      (true, some (joined (lit "root") (lit "admin") zeroHash (lit "/home/root") ++ [newline])) := by
    decide +kernel
  obtain ⟨pre, own, post, r, hfirst, hsegs⟩ := h _ _ _ _ _ _ rfl hrun
  have hlines : segments installedRoot =
      [joined (lit "root") (lit "admin") zeroHash (lit "/home/root:0"), []] := by decide +kernel
  have hlines' : segments (joined (lit "root") (lit "admin") zeroHash (lit "/home/root") ++ [newline]) =
      [joined (lit "root") (lit "admin") zeroHash (lit "/home/root"), []] := by decide +kernel
  rw [hlines'] at hsegs
  have hsplit := hfirst.split
  rw [hlines] at hsplit
  match pre, hsplit, hsegs with
  | [], hsplit, hsegs =>
    rw [nil_append, List.cons.injEq] at hsplit hsegs
    rw [← hsplit.1] at hsegs
    exact absurd hsegs.1 (by decide +kernel)
  | [x], hsplit, _ =>
    simp only [cons_append, nil_append, List.cons.injEq] at hsplit
    have hrecord := hfirst.record
    rw [← hsplit.2.1, lineRecord_nil] at hrecord
    cases hrecord
  | x :: y :: pre, hsplit, _ => simp at hsplit

end Cleonos.UserDb
