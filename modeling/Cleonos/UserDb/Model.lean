import Cleonos.Libc.Stdlib
import Cleonos.Lib.Lines
import Cleonos.Sha256.Model

/-!
# The user database

`cleonos_user.c` over the file `/system/databases/users.db`: one line `name:role:hash:home` for
each user, read through a buffer of 4096 bytes and records of 192.
-/

namespace Cleonos.UserDb

open List

section

open Libc (isspace)
open Sha256 (cleonosUserHashPassword)

def nameMax : ℕ := 32
def homeMax : ℕ := 96
def hashHexLen : ℕ := 64
def recordMax : ℕ := 192
def dbMax : ℕ := 4096
def roleUser : ℕ := 0
def roleAdmin : ℕ := 1

def newline : UInt8 := 10
def colon : UInt8 := 58
def hash : UInt8 := 35
def slash : UInt8 := 47

/-- `cleonos_user_record`. -/
structure Record where
  name : List UInt8
  hash : List UInt8
  role : ℕ
  home : List UInt8
  deriving DecidableEq, Repr

/-- The database file; none when it does not exist. -/
abbrev Db : Type := Option (List UInt8)

/-- What the system answers during one operation: whether the kernel carries the
operation out itself, and whether directories and the file can be written. -/
structure Answers where
  userAdd : Bool
  userSetRole : Bool
  userRemove : Bool
  createEmpty : Bool
  homeReady : Bool
  userHomeReady : Bool
  append : Bool
  write : Bool
  deriving DecidableEq, Repr

/-! ## Strings -/

/-- `cu_copy` into a buffer of `n` bytes. -/
def cuCopy (n : ℕ) (src : List UInt8) : List UInt8 := (cstr src).take (n - 1)

/-- `cu_append` to a string in a buffer of `n` bytes. -/
def cuAppend (n : ℕ) (dst src : List UInt8) : List UInt8 := (dst ++ cstr src).take (n - 1)

def cuTrim (text : List UInt8) : List UInt8 := (text.dropWhile isspace).rdropWhile isspace

/-- `strtok_r` with the delimiter `:`: the token, and where the next call goes on. -/
def strtok (text : List UInt8) : Option (List UInt8 × List UInt8) :=
  let text := text.dropWhile (· == colon)
  if text = [] then none
  else some (text.takeWhile (· != colon), (text.dropWhile (· != colon)).drop 1)

/-- The characters of a name. -/
def nameChar (c : UInt8) : Bool :=
  (97 ≤ c && c ≤ 122) || (65 ≤ c && c ≤ 90) || (48 ≤ c && c ≤ 57) || c == 95 || c == 45

/-- `cleonos_user_name_valid`. -/
def nameValid (name : List UInt8) : Bool :=
  decide (name ≠ []) && decide (name.length < nameMax) && name.all nameChar

/-- `cleonos_user_home_for`. -/
def homeFor (n : ℕ) (name : List UInt8) : List UInt8 :=
  cuAppend n (cuAppend n [] (lit "/home/")) name

/-- `cu_parse_record`. -/
def parseRecord (line : List UInt8) : Option Record :=
  let tmp := cuTrim (cuCopy recordMax line)
  if tmp = [] ∨ tmp.headD 0 = hash then none
  else do
    let (name, rest) ← strtok tmp
    let (roleText, rest) ← strtok rest
    let (hashText, rest) ← strtok rest
    let (home, _) ← strtok rest
    if nameValid name = false ∨ hashText.length ≠ hashHexLen ∨ home.headD 0 ≠ slash then none
    else some ⟨cuCopy nameMax name, cuCopy (hashHexLen + 1) hashText,
      if roleText = lit "admin" ∨ roleText = lit "root" then roleAdmin else roleUser,
      cuCopy homeMax home⟩

def roleText (role : ℕ) : List UInt8 := if role = roleAdmin then lit "admin" else lit "user"

/-- `cu_record_line` into a buffer of `n` bytes. -/
def recordLine (n : ℕ) (record : Record) : List UInt8 :=
  [record.name, [colon], roleText record.role, [colon], record.hash, [colon], record.home,
    [newline]].foldl (cuAppend n) []

/-- `cu_read_all` of the database; a file that exists is read as it is. -/
def cuReadAll (db : Db) : Option (List UInt8) := db.filter fun file => file.length + 1 ≤ dbMax

/-- The pieces between newlines, which the loops over the file visit. -/
def segments (file : List UInt8) : List (List UInt8) := file.splitOn newline

/-- The length of a piece in the buffer for a line, and the line that is in it. -/
def lineLen (segment : List UInt8) : ℕ := min segment.length (recordMax - 1)
def lineOf (segment : List UInt8) : List UInt8 := cstr (segment.take (recordMax - 1))

/-- The loop of `cleonos_user_find`. -/
def findLoop (name : List UInt8) : List (List UInt8) → Option Record
  | [] => none
  | segment :: segments =>
    match parseRecord (lineOf segment) with
    | none => findLoop name segments
    | some record => if record.name = name then some record else findLoop name segments

def cleonosUserFind (name : List UInt8) (db : Db) : Option Record :=
  if nameValid name = false then none
  else match cuReadAll db with
    | none => none
    | some file => findLoop name (segments file)

/-- The loop of `cu_db_rewrite_with`: the new text, its length as the loop counts it,
and whether the record was found; none when the text gets too long. -/
def rewriteLoop (replaceRecord : Option Record) (removeName : Option (List UInt8)) :
    List (List UInt8) → List UInt8 → ℕ → Bool → Option (List UInt8 × Bool)
  | [], nextDb, _, found => some (nextDb, found)
  | segment :: segments, nextDb, nextLen, found =>
    let emitOriginal :=
      if lineOf segment = [] then rewriteLoop replaceRecord removeName segments nextDb nextLen found
      else if nextLen + lineLen segment + 2 ≥ dbMax then none
      else rewriteLoop replaceRecord removeName segments
        (cuAppend dbMax (cuAppend dbMax nextDb (lineOf segment)) [newline])
        (nextLen + lineLen segment + 1) found
    match parseRecord (lineOf segment) with
    | none => emitOriginal
    | some record =>
      if removeName = some record.name then
        rewriteLoop replaceRecord removeName segments nextDb nextLen true
      else match replaceRecord.filter fun replace => record.name = replace.name with
        | none => emitOriginal
        | some replace =>
          let line := recordLine recordMax replace
          if nextLen + line.length + 1 ≥ dbMax then none
          else rewriteLoop replaceRecord removeName segments (cuAppend dbMax nextDb line)
            (nextLen + line.length) true

def cuDbRewriteWith (a : Answers) (db : Db) (replaceRecord : Option Record)
    (removeName : Option (List UInt8)) : Bool × Db :=
  match cuReadAll db with
  | none => (false, db)
  | some file =>
    match rewriteLoop replaceRecord removeName (segments file) [] 0 false with
    | none => (false, db)
    | some (nextDb, found) =>
      if found = false then (false, db)
      else if a.write = false then (false, db)
      else (true, some nextDb)

/-- The record that `cleonos_user_create` makes; `data` is what the hash context holds
before it is filled. -/
def newRecord (data : ℕ → UInt8) (name password : List UInt8) (role : ℕ) : Record where
  name := cuCopy nameMax name
  role := if role = roleAdmin then roleAdmin else roleUser
  hash := cleonosUserHashPassword data (some password)
  home := homeFor homeMax name

def cleonosUserCreate (a : Answers) (data : ℕ → UInt8) (db : Db) (name password : List UInt8)
    (role : ℕ) (allowExisting : Bool) : Bool × Db :=
  if nameValid name = false ∨ password = [] then (false, db)
  else if a.userAdd then (true, db)
  else if db.isNone ∧ a.createEmpty = false then (false, db)
  else
    let file := db.getD []
    match cleonosUserFind name (some file) with
    | some _ => (allowExisting, some file)
    | none =>
      if a.homeReady = false then (false, some file)
      else if a.userHomeReady = false then (false, some file)
      else if a.append = false then (false, some file)
      else (true, some (file ++ recordLine recordMax (newRecord data name password role)))

def cleonosUserChangePassword (a : Answers) (data : ℕ → UInt8) (db : Db)
    (name newPassword : List UInt8) : Bool × Db :=
  match cleonosUserFind name db with
  | none => (false, db)
  | some record =>
    if newPassword = [] then (false, db)
    else cuDbRewriteWith a db
      (some { record with hash := cleonosUserHashPassword data (some newPassword) }) none

def cleonosUserSetRole (a : Answers) (db : Db) (name : List UInt8) (role : ℕ) : Bool × Db :=
  match cleonosUserFind name db with
  | none => (false, db)
  | some record =>
    if a.userSetRole then (true, db)
    else cuDbRewriteWith a db
      (some { record with role := if role = roleAdmin then roleAdmin else roleUser }) none

def cleonosUserRemove (a : Answers) (db : Db) (name : List UInt8) : Bool × Db :=
  if nameValid name = false ∨ name = lit "root" then (false, db)
  else if a.userRemove then (true, db)
  else cuDbRewriteWith a db none (some name)

end

open Libc (isspace)
open Lines (unlines lastLine)

theorem isspace_iff (c : UInt8) : isspace c = true ↔
    c = 32 ∨ c = 9 ∨ c = 13 ∨ c = 10 ∨ c = 11 ∨ c = 12 := by
  simp [isspace, or_assoc]

theorem nameChar_plain {c : UInt8} (h : nameChar c = true) :
    c ≠ 0 ∧ c ≠ colon ∧ c ≠ hash ∧ isspace c = false := by
  refine ⟨?_, ?_, ?_, ?_⟩
  · rintro rfl
    exact absurd h (by decide)
  · rintro rfl
    exact absurd h (by decide)
  · rintro rfl
    exact absurd h (by decide)
  · rw [Bool.eq_false_iff, ne_eq, isspace_iff]
    rintro (rfl | rfl | rfl | rfl | rfl | rfl) <;> exact absurd h (by decide)

theorem nameChar_hexDigit (v : UInt8) : nameChar (Sha256.hexDigit v) = true := by
  have hall : ∀ i : Fin 16, nameChar (if UInt8.ofNat i < 10 then 48 + UInt8.ofNat i
      else 97 + (UInt8.ofNat i - 10)) = true := by decide
  obtain ⟨i, hi⟩ := Sha256.exists_hexDigit v
  rw [hi]
  exact hall i

theorem nameValid_iff (name : List UInt8) : nameValid name = true ↔
    name ≠ [] ∧ name.length < nameMax ∧ ∀ c ∈ name, nameChar c = true := by
  simp [nameValid, and_assoc]

variable {cs tok rest : List UInt8}

theorem dropWhile_colon (hcs : ∀ c ∈ cs, c = colon) (htok : ∀ c ∈ tok.head?, c ≠ colon) :
    (cs ++ tok).dropWhile (· == colon) = tok := by
  rw [dropWhile_append_of_pos fun c hc => by simpa using hcs c hc]
  cases tok with
  | nil => rfl
  | cons c tok =>
    rw [dropWhile_cons_of_neg]
    simpa using htok c rfl

theorem strtok_token (hcs : ∀ c ∈ cs, c = colon) (hne : tok ≠ []) (htok : colon ∉ tok) :
    strtok (cs ++ (tok ++ colon :: rest)) = some (tok, rest) := by
  have hpos : ∀ c ∈ tok, (c != colon) = true := fun c hc => by
    simpa using ne_of_mem_of_not_mem hc htok
  have hdrop : (cs ++ (tok ++ colon :: rest)).dropWhile (· == colon) = tok ++ colon :: rest := by
    refine dropWhile_colon hcs fun c hc => ?_
    cases tok with
    | nil => exact absurd rfl hne
    | cons d tok =>
      obtain rfl : d = c := by simpa using hc
      exact ne_of_mem_of_not_mem (by simp) htok
  have hnil : tok ++ colon :: rest ≠ [] := by simp
  simp only [strtok, hdrop, if_neg hnil, takeWhile_append_of_pos hpos,
    dropWhile_append_of_pos hpos]
  simp

theorem strtok_last (hne : tok ≠ []) (htok : colon ∉ tok) : strtok tok = some (tok, []) := by
  have hpos : ∀ c ∈ tok, (c != colon) = true := fun c hc => by
    simpa using ne_of_mem_of_not_mem hc htok
  have hdrop : tok.dropWhile (· == colon) = tok := by
    refine @dropWhile_colon [] tok (by simp) fun c hc => ?_
    exact ne_of_mem_of_not_mem (mem_of_mem_head? hc) htok
  simp only [strtok, hdrop, if_neg hne, takeWhile_eq_self_iff.2 hpos,
    dropWhile_eq_nil_iff.2 hpos, drop_nil]

theorem of_strtok {text : List UInt8} (h : strtok text = some (tok, rest)) :
    tok ≠ [] ∧ colon ∉ tok ∧ (∀ c ∈ tok, c ∈ text) ∧ ∀ c ∈ rest, c ∈ text := by
  simp only [strtok] at h
  by_cases hnil : text.dropWhile (· == colon) = []
  · rw [if_pos hnil] at h
    exact absurd h (by simp)
  · rw [if_neg hnil, Option.some.injEq, Prod.mk.injEq] at h
    obtain ⟨rfl, rfl⟩ := h
    have hsub : ∀ c ∈ text.dropWhile (· == colon), c ∈ text := fun c hc =>
      (dropWhile_suffix _).subset hc
    refine ⟨?_, ?_, fun c hc => hsub c ((List.takeWhile_prefix _).subset hc), fun c hc => ?_⟩
    · obtain ⟨c, s, hs⟩ := exists_cons_of_ne_nil hnil
      have hc : (c == colon) = false := by
        have hhead := head_dropWhile_not (· == colon) hnil
        simpa only [hs, head_cons] using hhead
      rw [hs, takeWhile_cons_of_pos (by simpa using hc)]
      simp
    · intro hc
      simpa using mem_takeWhile_imp hc
    · exact hsub c ((dropWhile_suffix _).subset (mem_of_mem_drop hc))

/-- The role that a text stands for. -/
def roleOf (text : List UInt8) : ℕ :=
  if text = lit "admin" ∨ text = lit "root" then roleAdmin else roleUser

def joined (name role hashText home : List UInt8) : List UInt8 :=
  name ++ colon :: (role ++ colon :: (hashText ++ colon :: home))

theorem rdropWhile_append_cons {s t : List UInt8} {c : UInt8} (hc : isspace c = false) :
    (s ++ c :: t).rdropWhile isspace = s ++ c :: t.rdropWhile isspace := by
  induction t using List.reverseRecOn with
  | nil => exact rdropWhile_concat_neg _ _ _ (by simp [hc])
  | append_singleton t d ih =>
    have hassoc : s ++ c :: (t ++ [d]) = (s ++ c :: t) ++ [d] := by simp
    rw [hassoc]
    by_cases hd : isspace d = true
    · rw [rdropWhile_concat_pos _ _ _ hd, rdropWhile_concat_pos _ _ _ hd, ih]
    · rw [rdropWhile_concat_neg _ _ _ hd, rdropWhile_concat_neg _ _ _ hd, hassoc]

/-- Fields that can be told apart in a line. -/
structure Fields (name role hashText home : List UInt8) : Prop where
  name_valid : nameValid name = true
  role_ne : role ≠ []
  role_colon : colon ∉ role
  hash_length : hashText.length = hashHexLen
  hash_colon : colon ∉ hashText
  home_head : home.headD 0 = slash
  home_colon : colon ∉ home
  no_nul : (0 : UInt8) ∉ joined name role hashText home

/-- Spaces and delimiters in front of a line. -/
def IsMargin (ws cs : List UInt8) : Prop := (∀ c ∈ ws, isspace c = true) ∧ ∀ c ∈ cs, c = colon

variable {s ws file name : List UInt8}

theorem IsMargin.nul_notMem {cs : List UInt8} (h : IsMargin ws cs) : (0 : UInt8) ∉ ws ++ cs := by
  rw [mem_append]
  rintro (hc | hc)
  · exact absurd (h.1 0 hc) (by decide)
  · exact absurd (h.2 0 hc) (by decide)

theorem cuCopy_of_length {n : ℕ} (hnul : (0 : UInt8) ∉ s) (hlen : s.length ≤ n - 1) :
    cuCopy n s = s := by
  rw [cuCopy, cstr_of_notMem hnul, take_of_length_le hlen]

theorem parseRecord_fields {cs role hashText home : List UInt8} (hm : IsMargin ws cs)
    (hf : Fields name role hashText home)
    (hlen : (ws ++ (cs ++ joined name role hashText home)).length ≤ recordMax - 1) :
    parseRecord (ws ++ (cs ++ joined name role hashText home)) =
      some ⟨name, hashText, roleOf role, cuCopy homeMax (home.rdropWhile isspace)⟩ := by
  obtain ⟨hws, hcs⟩ := hm
  obtain ⟨hname, hnameLen, hnameChar⟩ := (nameValid_iff name).1 hf.name_valid
  obtain ⟨n, ns, rfl⟩ := exists_cons_of_ne_nil hname
  obtain ⟨t, rfl⟩ : ∃ t, home = slash :: t := by
    cases home with
    | nil => exact absurd hf.home_head (by decide)
    | cons c t =>
      obtain rfl : c = slash := hf.home_head
      exact ⟨t, rfl⟩
  have hnul : (0 : UInt8) ∉ ws ++ (cs ++ joined (n :: ns) role hashText (slash :: t)) := by
    rw [← append_assoc, mem_append]
    exact not_or.2 ⟨IsMargin.nul_notMem ⟨hws, hcs⟩, hf.no_nul⟩
  -- the characters at the two ends stay
  have hstart : ∃ c s, cs ++ joined (n :: ns) role hashText (slash :: t) = c :: s ∧
      isspace c = false ∧ c ≠ hash := by
    have hn := nameChar_plain (hnameChar n (by simp))
    cases cs with
    | nil => exact ⟨n, _, rfl, hn.2.2.2, hn.2.2.1⟩
    | cons c cs =>
      obtain rfl := hcs c (by simp)
      exact ⟨_, _, rfl, by decide, by decide⟩
  obtain ⟨c, s, hcons, hspace, hhash⟩ := hstart
  have hjoin : cs ++ joined (n :: ns) role hashText (slash :: t) =
      cs ++ ((n :: ns) ++ colon :: (role ++ colon :: (hashText ++ [colon]))) ++ slash :: t := by
    simp [joined]
  have htrim : cuTrim (ws ++ (cs ++ joined (n :: ns) role hashText (slash :: t))) =
      cs ++ joined (n :: ns) role hashText (slash :: t.rdropWhile isspace) := by
    rw [cuTrim, dropWhile_append_of_pos hws, hcons, dropWhile_cons_of_neg (by simp [hspace]),
      ← hcons, hjoin, rdropWhile_append_cons (by decide)]
    simp [joined]
  have hhead : (cs ++ joined (n :: ns) role hashText (slash :: t.rdropWhile isspace)).headD 0 = c := by
    cases cs with
    | nil => exact (List.cons.inj hcons).1
    | cons d cs => exact (List.cons.inj hcons).1
  have hne : cs ++ joined (n :: ns) role hashText (slash :: t.rdropWhile isspace) ≠ [] := by
    simp [joined]
  have hnameColon : colon ∉ n :: ns := fun h => (nameChar_plain (hnameChar _ h)).2.1 rfl
  have hhashNe : hashText ≠ [] := by
    rintro rfl
    exact absurd hf.hash_length (by decide)
  have hhomeColon : colon ∉ slash :: t.rdropWhile isspace := by
    intro h
    rcases mem_cons.1 h with h | h
    · exact absurd h (by decide)
    · exact hf.home_colon (mem_cons_of_mem _ ((List.rdropWhile_prefix isspace t).subset h))
  have hnil : ∀ c ∈ ([] : List UInt8), c = colon := by simp
  have h1 := @strtok_token cs (n :: ns)
    (role ++ colon :: (hashText ++ colon :: slash :: t.rdropWhile isspace))
    hcs (cons_ne_nil n ns) hnameColon
  have h2 := @strtok_token [] role (hashText ++ colon :: slash :: t.rdropWhile isspace) hnil
    hf.role_ne hf.role_colon
  have h3 := @strtok_token [] hashText (slash :: t.rdropWhile isspace) hnil hhashNe hf.hash_colon
  have h4 := @strtok_last (slash :: t.rdropWhile isspace) (by simp) hhomeColon
  rw [nil_append] at h2 h3
  have hhashNul : (0 : UInt8) ∉ hashText := fun h => hf.no_nul (by simp [joined, h])
  have hnameNul : (0 : UInt8) ∉ n :: ns := fun h => (nameChar_plain (hnameChar _ h)).1 rfl
  rw [parseRecord, cuCopy_of_length hnul hlen, htrim]
  simp only [hhead, hne, hhash, or_self, if_false]
  rw [joined, h1]
  simp only [Option.bind_eq_bind, Option.bind_some, h2, h3, h4, hf.name_valid, hf.hash_length]
  rw [cuCopy_of_length hnameNul (by omega), cuCopy_of_length hhashNul (by rw [hf.hash_length]; omega)]
  have htrimHome : (slash :: t).rdropWhile isspace = slash :: t.rdropWhile isspace :=
    rdropWhile_append_cons (s := []) (by decide)
  rw [if_neg (by simp), htrimHome, roleOf]

theorem parseRecord_margin {cs : List UInt8} (hm : IsMargin ws cs)
    (hlen : (ws ++ cs).length ≤ recordMax - 1) : parseRecord (ws ++ cs) = none := by
  have htrim : cuTrim (ws ++ cs) = cs := by
    rw [cuTrim, dropWhile_append_of_pos hm.1]
    cases cs with
    | nil => rfl
    | cons c cs =>
      have hspace : ∀ d ∈ c :: cs, isspace d = false := fun d hd => by
        rw [hm.2 d hd]
        decide
      rw [dropWhile_cons_of_neg (by simp [hspace c]), rdropWhile_eq_self_iff]
      intro hne
      simp [hspace _ (getLast_mem hne)]
  have htok : strtok cs = none := by
    have hdrop : cs.dropWhile (· == colon) = [] :=
      dropWhile_eq_nil_iff.2 fun c hc => by simpa using hm.2 c hc
    simp [strtok, hdrop]
  rw [parseRecord, cuCopy_of_length hm.nul_notMem hlen, htrim]
  simp only [htok, Option.bind_eq_bind, Option.bind_none]
  split_ifs <;> rfl

/-- A part of a line: neither a delimiter, nor a newline, nor a zero byte. -/
def IsField (s : List UInt8) : Prop := colon ∉ s ∧ newline ∉ s ∧ (0 : UInt8) ∉ s

/-- What holds of every record that was parsed. -/
structure WellFormed (r : Record) : Prop where
  name_valid : nameValid r.name = true
  hash_field : IsField r.hash
  hash_length : r.hash.length = hashHexLen
  home_field : IsField r.home
  home_head : r.home.headD 0 = slash
  home_length : r.home.length < homeMax

theorem IsField.mono {t : List UInt8} (h : IsField t) (hst : ∀ c ∈ s, c ∈ t) : IsField s :=
  ⟨fun hc => h.1 (hst _ hc), fun hc => h.2.1 (hst _ hc), fun hc => h.2.2 (hst _ hc)⟩

theorem mem_cuCopy {n : ℕ} {c : UInt8} (h : c ∈ cuCopy n s) : c ∈ s :=
  (List.takeWhile_prefix _).subset (mem_of_mem_take h)

theorem parseRecord_eq_some {line : List UInt8} {r : Record} (h : parseRecord line = some r) :
    ∃ name role hashText home rest rest' rest'' last,
      strtok (cuTrim (cuCopy recordMax line)) = some (name, rest) ∧
      strtok rest = some (role, rest') ∧ strtok rest' = some (hashText, rest'') ∧
      strtok rest'' = some (home, last) ∧ nameValid name = true ∧ hashText.length = hashHexLen ∧
      home.headD 0 = slash ∧ r = ⟨cuCopy nameMax name, cuCopy (hashHexLen + 1) hashText, roleOf role,
        cuCopy homeMax home⟩ := by
  rw [parseRecord] at h
  split_ifs at h with hempty
  simp only [Option.bind_eq_bind, Option.bind_eq_some_iff, Prod.exists] at h
  obtain ⟨name, rest, hname, role, rest', hrole, hashText, rest'', hhash, home, last, hhome, h⟩ := h
  by_cases hcheck : nameValid name = false ∨ hashText.length ≠ hashHexLen ∨ home.headD 0 ≠ slash
  · rw [if_pos hcheck] at h
    exact absurd h (by simp)
  rw [if_neg hcheck] at h
  simp only [not_or, Bool.not_eq_false, not_not] at hcheck
  obtain ⟨hvalid, hlength, hslash⟩ := hcheck
  exact ⟨name, role, hashText, home, rest, rest', rest'', last, hname, hrole, hhash, hhome, hvalid,
    hlength, hslash, (Option.some.inj h).symm⟩

theorem wellFormed_of_parseRecord {line : List UInt8} {r : Record} (hline : newline ∉ line)
    (h : parseRecord line = some r) : WellFormed r := by
  have htmp : ∀ c ∈ cuTrim (cuCopy recordMax line), c ∈ cuCopy recordMax line := by
    intro c hc
    exact (dropWhile_suffix _).subset ((List.rdropWhile_prefix _ _).subset hc)
  obtain ⟨name, role, hashText, home, rest, rest', rest'', last, hname, hrole, hhash, hhome, hvalid,
    hlength, hslash, rfl⟩ := parseRecord_eq_some h
  obtain ⟨-, -, -, hrest⟩ := of_strtok hname
  obtain ⟨-, -, -, hrest'⟩ := of_strtok hrole
  obtain ⟨-, hhashColon, hhashSub, hrest''⟩ := of_strtok hhash
  obtain ⟨hhomeNe, hhomeColon, hhomeSub, -⟩ := of_strtok hhome
  have hfield : ∀ {s : List UInt8}, colon ∉ s →
      (∀ c ∈ s, c ∈ cuTrim (cuCopy recordMax line)) → IsField s := by
    intro s hcolon hsub
    have hmem : ∀ c ∈ s, c ∈ cuCopy recordMax line := fun c hc => htmp c (hsub c hc)
    refine ⟨hcolon, fun hc => hline (mem_cuCopy (hmem _ hc)), fun hc => ?_⟩
    exact notMem_cstr line (mem_of_mem_take (hmem _ hc))
  have hhashField := hfield hhashColon fun c hc => hrest _ (hrest' _ (hhashSub c hc))
  have hhomeField := hfield hhomeColon fun c hc => hrest _ (hrest' _ (hrest'' _ (hhomeSub c hc)))
  obtain ⟨-, hnameLen, hnameChar⟩ := (nameValid_iff name).1 hvalid
  have hnameNul : (0 : UInt8) ∉ name := fun hc => (nameChar_plain (hnameChar _ hc)).1 rfl
  simp only [nameMax] at hnameLen
  rw [cuCopy_of_length hnameNul (by simp only [nameMax]; omega),
    cuCopy_of_length hhashField.2.2 (by rw [hlength]; omega)]
  refine ⟨hvalid, hhashField, hlength, hhomeField.mono fun c hc => mem_cuCopy hc, ?_, ?_⟩
  · obtain ⟨c, s, rfl⟩ := exists_cons_of_ne_nil hhomeNe
    obtain rfl : c = slash := hslash
    rw [cuCopy, cstr_of_notMem hhomeField.2.2]
    rfl
  · have hle := length_take_le (homeMax - 1) (cstr home)
    simp only [cuCopy, homeMax] at hle ⊢
    omega

/-! ## Writing records -/

/-- The line of a record, without its newline. -/
def fullLine (r : Record) : List UInt8 := joined r.name (roleText r.role) r.hash r.home

theorem foldl_cuAppend {n : ℕ} (pieces : List (List UInt8)) {acc : List UInt8}
    (hacc : acc.length ≤ n - 1) :
    pieces.foldl (cuAppend n) acc = (acc ++ pieces.flatMap cstr).take (n - 1) := by
  induction pieces generalizing acc with
  | nil =>
    rw [foldl_nil, flatMap_nil, append_nil, take_of_length_le hacc]
  | cons piece pieces ih =>
    have hlen : (cuAppend n acc piece).length ≤ n - 1 := length_take_le _ _
    rw [foldl_cons, ih hlen, flatMap_cons, ← append_assoc, cuAppend]
    by_cases hfull : n - 1 ≤ (acc ++ cstr piece).length
    · rw [take_append_of_le_length (by rw [length_take]; omega),
        take_append_of_le_length hfull, take_take, Nat.min_self]
    · rw [take_of_length_le (l := acc ++ cstr piece) (by omega)]

theorem roleText_field (role : ℕ) : roleText role ≠ [] ∧ IsField (roleText role) ∧
    (roleText role).length ≤ 5 ∧ roleOf (roleText role) = if role = roleAdmin then roleAdmin else roleUser := by
  by_cases h : role = roleAdmin
  · rw [roleText, if_pos h, if_pos h]
    refine ⟨by decide, ⟨by decide, by decide, by decide⟩, by decide, by decide⟩
  · rw [roleText, if_neg h, if_neg h]
    refine ⟨by decide, ⟨by decide, by decide, by decide⟩, by decide, by decide⟩

theorem WellFormed.name_field {r : Record} (h : WellFormed r) : IsField r.name := by
  obtain ⟨-, -, hchar⟩ := (nameValid_iff r.name).1 h.name_valid
  refine ⟨fun hc => (nameChar_plain (hchar _ hc)).2.1 rfl, fun hc => ?_,
    fun hc => (nameChar_plain (hchar _ hc)).1 rfl⟩
  exact absurd (nameChar_plain (hchar _ hc)).2.2.2 (by decide)

theorem IsField.fields_joined {role hashText home : List UInt8} (hn : IsField name)
    (hr : IsField role) (hh : IsField hashText) (ho : IsField home) :
    newline ∉ joined name role hashText home ∧ (0 : UInt8) ∉ joined name role hashText home := by
  have h1 : newline ≠ colon := by decide
  have h2 : (0 : UInt8) ≠ colon := by decide
  simp [joined, hn.2.1, hn.2.2, hr.2.1, hr.2.2, hh.2.1, hh.2.2, ho.2.1, ho.2.2, h1, h2]

namespace WellFormed

open List

variable {r : Record}

theorem newline_notMem (h : WellFormed r) : newline ∉ fullLine r :=
  (h.name_field.fields_joined (roleText_field r.role).2.1 h.hash_field h.home_field).1

theorem nul_notMem (h : WellFormed r) : (0 : UInt8) ∉ fullLine r :=
  (h.name_field.fields_joined (roleText_field r.role).2.1 h.hash_field h.home_field).2

theorem fields (h : WellFormed r) : Fields r.name (roleText r.role) r.hash r.home where
  name_valid := h.name_valid
  role_ne := (roleText_field r.role).1
  role_colon := (roleText_field r.role).2.1.1
  hash_length := h.hash_length
  hash_colon := h.hash_field.1
  home_head := h.home_head
  home_colon := h.home_field.1
  no_nul := h.nul_notMem

theorem recordLine_eq (h : WellFormed r) (n : ℕ) :
    recordLine n r = (fullLine r ++ [newline]).take (n - 1) := by
  have hcolon : cstr [colon] = [colon] := by decide
  have hnewline : cstr [newline] = [newline] := by decide
  rw [recordLine, foldl_cuAppend _ (by simp)]
  simp only [flatMap_cons, flatMap_nil, append_nil, nil_append, hcolon, hnewline,
    cstr_of_notMem h.name_field.2.2, cstr_of_notMem (roleText_field r.role).2.1.2.2,
    cstr_of_notMem h.hash_field.2.2, cstr_of_notMem h.home_field.2.2]
  simp [fullLine, joined]

end WellFormed

/-- The record of a piece of the file. -/
def lineRecord (segment : List UInt8) : Option Record := parseRecord (lineOf segment)

def records (file : List UInt8) : List Record := (segments file).filterMap lineRecord

theorem lineOf_of_length (hnul : (0 : UInt8) ∉ s) (hlen : s.length ≤ recordMax - 1) :
    lineOf s = s := by
  rw [lineOf, take_of_length_le hlen, cstr_of_notMem hnul]

theorem lineOf_append {t : List UInt8} (hlen : recordMax - 1 ≤ s.length) :
    lineOf (s ++ t) = lineOf s := by
  rw [lineOf, lineOf, take_append_of_le_length hlen]

theorem lineRecord_nil : lineRecord [] = none := by decide

theorem records_line {l rest : List UInt8} (hl : newline ∉ l) :
    records (l ++ newline :: rest) = (lineRecord l).toList ++ records rest := by
  rw [records, segments, Lines.splitOn_line hl, filterMap_cons]
  cases lineRecord l with
  | none => rfl
  | some r => rfl

theorem records_of_notMem {l : List UInt8} (hl : newline ∉ l) : records l = (lineRecord l).toList := by
  rw [records, segments, splitOn_eq_singleton hl, filterMap_cons]
  cases lineRecord l with
  | none => rfl
  | some r => rfl

theorem records_nil : records [] = [] := by decide

theorem records_unlines_append {ls : List (List UInt8)} (h : ∀ l ∈ ls, newline ∉ l) (t : List UInt8) :
    records (unlines newline ls ++ t) = ls.filterMap lineRecord ++ records t := by
  rw [records, segments, Lines.splitOn_unlines_append h, filterMap_append]
  rfl

theorem findLoop_eq (name : List UInt8) (segments : List (List UInt8)) :
    findLoop name segments = (segments.filterMap lineRecord).find? fun r => r.name = name := by
  induction segments with
  | nil => rfl
  | cons segment segments ih =>
    rw [findLoop]
    cases hr : parseRecord (lineOf segment) with
    | none =>
      rw [filterMap_cons_none (f := lineRecord) hr]
      exact ih
    | some r =>
      rw [filterMap_cons_some (f := lineRecord) hr, List.find?_cons]
      by_cases hname : r.name = name
      · simp [hname]
      · simp [hname, ih]

/-- A file that fits the buffer. -/
def Loads (file : List UInt8) : Prop := file.length + 1 ≤ dbMax

theorem cuReadAll_of_loads (h : Loads file) : cuReadAll (some file) = some file := by
  simp [cuReadAll, Option.filter, show file.length + 1 ≤ dbMax from h]

theorem cleonosUserFind_eq (hname : nameValid name = true) (hload : Loads file) :
    cleonosUserFind name (some file) = (records file).find? fun r => r.name = name := by
  rw [cleonosUserFind, if_neg (by simp [hname]), cuReadAll_of_loads hload]
  exact findLoop_eq name (segments file)

theorem newline_notMem_segments {segment : List UInt8} (h : segment ∈ segments file) :
    newline ∉ segment := by
  obtain ⟨ls, hls, hfile, hlast⟩ := Lines.exists_lines newline file
  rw [segments, hfile, Lines.splitOn_unlines_append hls, splitOn_eq_singleton hlast] at h
  rcases mem_append.1 h with h | h
  · exact hls _ h
  · exact mem_singleton.1 h ▸ hlast

theorem wellFormed_of_mem_records {file : List UInt8} {r : Record} (h : r ∈ records file) :
    WellFormed r := by
  obtain ⟨segment, hseg, hr⟩ := mem_filterMap.1 h
  refine wellFormed_of_parseRecord (fun hc => ?_) hr
  exact newline_notMem_segments hseg (mem_of_mem_take ((List.takeWhile_prefix _).subset hc))

end Cleonos.UserDb
