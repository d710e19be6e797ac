import Cleonos.Vim.Model
import Cleonos.Lib.Lines
import Cleonos.Lib.Run
import Cleonos.Lib.Words

/-!
# The contacts

`contacts_main.c` over its file: one line `name|phone|email` for each contact.
-/

namespace Cleonos.Contacts

open List Option

section

open Vim (ushCopy ushTrimLine ushSplitFirstAndRest)

def lineMax : ℕ := 512
def nameMax : ℕ := 64
def phoneMax : ℕ := 64
def emailMax : ℕ := 96
def cmdMax : ℕ := 32
def dbMax : ℕ := 8192
def maxEntries : ℕ := 64

def newline : UInt8 := 10
def bar : UInt8 := 124

structure ContactsEntry where
  name : List UInt8
  phone : List UInt8
  email : List UInt8
  deriving DecidableEq, Repr

/-- What the system answers during a command: whether the file can be read, and whether an append
and a write of it are carried out. -/
structure Answers where
  read : Bool
  append : Bool
  write : Bool
  deriving DecidableEq, Repr

/-! ## Lines -/

/-- `contacts_trim_newline`. -/
def trimNewline (text : List UInt8) : List UInt8 :=
  text.rdropWhile fun c => c == newline || c == 13

/-- The loop of `contacts_parse_line`: at most `n` parts of a text. -/
def parseParts : ℕ → List UInt8 → List (List UInt8)
  | 0, _ => []
  | _, [] => []
  | n + 1, c :: text =>
    (c :: text).takeWhile (· != bar) ::
      parseParts n (((c :: text).dropWhile (· != bar)).drop 1)

/-- `contacts_parse_line`. -/
def parseLine (line : List UInt8) : Option ContactsEntry :=
  match parseParts 3 (ushCopy lineMax line) with
  | name :: phone :: rest =>
    let entry : ContactsEntry :=
      ⟨ushCopy nameMax name, ushCopy phoneMax phone, ushCopy emailMax (rest.headD [])⟩
    if entry.name = [] then none else some entry
  | _ => none

/-- `contacts_format_line` into a buffer of `n` bytes. -/
def formatLine (n : ℕ) (entry : ContactsEntry) : List UInt8 :=
  (entry.name ++ bar :: (entry.phone ++ bar :: (entry.email ++ [newline]))).take (n - 1)

/-- `contacts_split_three` into buffers of these sizes. -/
def splitThree (arg : List UInt8) (firstSize secondSize thirdSize : ℕ) :
    Option (List UInt8 × List UInt8 × List UInt8) :=
  (ushSplitFirstAndRest arg firstSize).bind fun r =>
    (ushSplitFirstAndRest r.2 secondSize).map fun q =>
      (r.1, q.1, ushTrimLine (ushCopy thirdSize q.2))

/-- `contacts_read_all` of the file into a buffer of `n` bytes. -/
def readAll (a : Answers) (n : ℕ) (file : List UInt8) : Option (List UInt8) :=
  if file.length + 1 > n then none
  else if file = [] then some []
  else if a.read then some file else none

/-- The line in the buffer for a piece of the file. -/
def lineOf (piece : List UInt8) : List UInt8 := trimNewline (cstr (piece.take (lineMax - 1)))

/-- The loop of `contacts_load_entries`, behind the entries so far. -/
def loadLoop (max : ℕ) : List (List UInt8) → List ContactsEntry → List ContactsEntry
  | [], entries => entries
  | piece :: pieces, entries =>
    if entries.length ≥ max then entries
    else
      match parseLine (lineOf piece) with
      | none => loadLoop max pieces entries
      | some entry => loadLoop max pieces (entries ++ [entry])

/-- `contacts_load_entries`. -/
def loadEntries (a : Answers) (file : List UInt8) (max : ℕ) : Option (List ContactsEntry) :=
  (readAll a dbMax file).map fun db => loadLoop max (db.splitOn newline) []

/-- `contacts_append_entry`. -/
def appendEntry (a : Answers) (file : List UInt8) (entry : ContactsEntry) : Bool × List UInt8 :=
  if formatLine lineMax entry = [] then (false, file)
  else if a.append then (true, file ++ formatLine lineMax entry) else (false, file)

/-- `contacts_write_all`. -/
def writeAll (a : Answers) (file data : List UInt8) : Bool × List UInt8 :=
  if a.write then (true, data) else (false, file)

/-- `contacts_remove_entry`. -/
def removeEntry (a : Answers) (file name : List UInt8) : Bool × List UInt8 :=
  if name = [] then (false, file)
  else
    match loadEntries a file maxEntries with
    | none => (false, file)
    | some entries =>
      let kept := entries.filter fun entry => entry.name ≠ name
      let db := kept.foldl
        (fun db entry => db ++ ushCopy (dbMax - db.length) (formatLine lineMax entry)) []
      writeAll a file db

/-- `contacts_print_entries`. -/
def printEntries (a : Answers) (file : List UInt8) : Bool × List UInt8 :=
  match loadEntries a file maxEntries with
  | none => (false, file)
  | some _ => (true, file)

def contactsHandle (a : Answers) (file arg : List UInt8) : Bool × List UInt8 :=
  match ushSplitFirstAndRest arg cmdMax with
  | none => printEntries a file
  | some (cmd, rest) =>
    if cmd = lit "list" ∨ cmd = lit "show" then printEntries a file
    else if cmd = lit "path" then (true, file)
    else if cmd = lit "clear" then writeAll a file []
    else if cmd = lit "remove" ∨ cmd = lit "rm" then removeEntry a file rest
    else if cmd = lit "add" ∨ cmd = lit "set" then
      match splitThree rest nameMax phoneMax emailMax with
      | none => (false, file)
      | some (first, second, third) =>
        let entry : ContactsEntry :=
          ⟨ushCopy nameMax first, ushCopy phoneMax second, ushCopy emailMax third⟩
        if cmd.headD 0 = 97 then appendEntry a file entry
        else writeAll a file (formatLine lineMax entry)
    else (false, file)

end

open Libc (isspace)
open Lines (unlines)
open Words (word behind of_mem_word word_subset behind_subset word_ne_nil_iff dropWhile_behind)
open Vim (ushCopy ushTrimLine ushSplitFirstAndRest)

variable {a : Answers} {e : ContactsEntry} {es : List ContactsEntry} {file arg s t : List UInt8}

/-- A text without a separator and without the end of a string. -/
def Plain (s : List UInt8) : Prop := bar ∉ s ∧ newline ∉ s ∧ (0 : UInt8) ∉ s

/-- A contact that its line gives back. -/
structure Good (e : ContactsEntry) : Prop where
  name_ne : e.name ≠ []
  name_plain : Plain e.name
  phone_plain : Plain e.phone
  email_plain : Plain e.email
  name_lt : e.name.length < nameMax
  phone_lt : e.phone.length < phoneMax
  email_lt : e.email.length < emailMax
  email_end : ∀ c ∈ e.email.getLast?, c ≠ 13

/-- The line of a contact, without its newline. -/
def body (e : ContactsEntry) : List UInt8 := e.name ++ bar :: (e.phone ++ bar :: e.email)

def fileOf (es : List ContactsEntry) : List UInt8 := unlines newline (es.map body)

variable {n : ℕ}

theorem ushCopy_of_length (hnul : (0 : UInt8) ∉ s) (hlen : s.length < n) : ushCopy n s = s := by
  rw [ushCopy, cstr_of_notMem hnul, take_of_length_le (by omega)]

theorem Good.newline_notMem (h : Good e) : newline ∉ body e := by
  have hbar : newline ≠ bar := by decide
  simp [body, h.name_plain.2.1, h.phone_plain.2.1, h.email_plain.2.1, hbar]

theorem Good.nul_notMem (h : Good e) : (0 : UInt8) ∉ body e := by
  have hbar : (0 : UInt8) ≠ bar := by decide
  simp [body, h.name_plain.2.2, h.phone_plain.2.2, h.email_plain.2.2, hbar]

theorem Good.length_body_lt (h : Good e) : (body e).length + 1 < lineMax := by
  have hname := h.name_lt
  have hphone := h.phone_lt
  have hemail := h.email_lt
  simp only [nameMax, phoneMax, emailMax, lineMax, body, length_append, length_cons] at *
  omega

theorem Good.formatLine_eq (h : Good e) : formatLine lineMax e = body e ++ [newline] := by
  have hlen := h.length_body_lt
  rw [formatLine, body, take_of_length_le]
  · simp
  · simp only [body, length_append, length_cons, length_nil] at hlen ⊢
    omega

theorem parseParts_cons {n : ℕ} (hs : bar ∉ s) :
    parseParts (n + 1) (s ++ bar :: t) = s :: parseParts n t := by
  have hpos : ∀ c ∈ s, (c != bar) = true := fun c hc => by simpa using ne_of_mem_of_not_mem hc hs
  have htake : (s ++ bar :: t).takeWhile (· != bar) = s := by
    rw [takeWhile_append_of_pos hpos]
    simp
  have hdrop : ((s ++ bar :: t).dropWhile (· != bar)).drop 1 = t := by
    rw [dropWhile_append_of_pos hpos]
    simp
  cases h : s ++ bar :: t with
  | nil => simp at h
  | cons c text => rw [parseParts, ← h, htake, hdrop]

theorem parseParts_last {n : ℕ} (hs : bar ∉ s) (hne : s ≠ []) : parseParts (n + 1) s = [s] := by
  have hpos : ∀ c ∈ s, (c != bar) = true := fun c hc => by simpa using ne_of_mem_of_not_mem hc hs
  obtain ⟨c, text, rfl⟩ := exists_cons_of_ne_nil hne
  rw [parseParts, takeWhile_eq_self_iff.2 hpos, dropWhile_eq_nil_iff.2 hpos]
  cases n with
  | zero => rfl
  | succ n => rfl

theorem Good.parseLine_body (h : Good e) : parseLine (lineOf (body e)) = some e := by
  have hlen := h.length_body_lt
  have htrim : trimNewline (body e) = body e := by
    obtain ⟨front, c, hc, hend⟩ : ∃ front c, body e = front ++ [c] ∧ ¬ (c == newline || c == 13) := by
      rcases eq_nil_or_concat e.email with hemail | ⟨text, c, hemail⟩
      · exact ⟨e.name ++ bar :: e.phone, bar, by simp [body, hemail], by decide⟩
      · refine ⟨e.name ++ bar :: (e.phone ++ bar :: text), c, by simp [body, hemail], ?_⟩
        have h13 := h.email_end c (by simp [hemail])
        have hnl : c ≠ newline := by
          rintro rfl
          exact h.email_plain.2.1 (by simp [hemail])
        simp [h13, hnl]
    rw [trimNewline, hc]
    exact rdropWhile_concat_neg _ _ _ hend
  have hline : lineOf (body e) = body e := by
    rw [lineOf, take_of_length_le (by omega), cstr_of_notMem h.nul_notMem, htrim]
  have hparts : ∃ rest, parseParts 3 (body e) = e.name :: e.phone :: rest ∧ rest.headD [] = e.email := by
    rw [body, parseParts_cons h.name_plain.1, parseParts_cons h.phone_plain.1]
    by_cases hemail : e.email = []
    · refine ⟨_, rfl, ?_⟩
      rw [hemail]
      rfl
    · rw [parseParts_last h.email_plain.1 hemail]
      exact ⟨_, rfl, rfl⟩
  obtain ⟨rest, hparts, hrest⟩ := hparts
  rw [hline, parseLine, ushCopy_of_length h.nul_notMem (by omega), hparts]
  simp only [hrest, ushCopy_of_length h.name_plain.2.2 h.name_lt,
    ushCopy_of_length h.phone_plain.2.2 h.phone_lt, ushCopy_of_length h.email_plain.2.2 h.email_lt,
    if_neg h.name_ne]

theorem fileOf_append (es : List ContactsEntry) (e : ContactsEntry) :
    fileOf (es ++ [e]) = fileOf es ++ (body e ++ [newline]) := by
  simp [fileOf]

theorem length_fileOf_filter_le (p : ContactsEntry → Bool) (es : List ContactsEntry) :
    (fileOf (es.filter p)).length ≤ (fileOf es).length := by
  induction es with
  | nil => simp
  | cons e es ih =>
    rw [filter_cons]
    split
    · simp only [fileOf, map_cons, Lines.unlines_cons, length_append,
        length_cons] at ih ⊢
      omega
    · simp only [fileOf, map_cons, Lines.unlines_cons, length_append,
        length_cons] at ih ⊢
      omega

theorem loadLoop_bodies {max : ℕ} {before : List ContactsEntry} (hes : ∀ e ∈ es, Good e)
    (hmax : before.length + es.length ≤ max) :
    loadLoop max (es.map body ++ [[]]) before = before ++ es := by
  induction es generalizing before with
  | nil =>
    have hnone : parseLine (lineOf []) = none := by decide
    rw [map_nil, nil_append, loadLoop]
    split
    · exact (append_nil _).symm
    · rw [hnone, append_nil]
      rfl
  | cons e es ih =>
    rw [length_cons] at hmax
    rw [map_cons, cons_append, loadLoop, if_neg (by omega),
      (hes e (by simp)).parseLine_body]
    simp only
    rw [ih (fun q hq => hes q (by simp [hq])) (by
      rw [length_append, length_singleton]
      omega), append_assoc]
    rfl

theorem loadEntries_fileOf (hes : ∀ e ∈ es, Good e) (hmax : es.length ≤ maxEntries)
    (hlen : (fileOf es).length < dbMax) :
    (a.read = true → loadEntries a (fileOf es) maxEntries = some es) ∧
      ∀ entries, loadEntries a (fileOf es) maxEntries = some entries → entries = es := by
  have hsplit : (fileOf es).splitOn newline = es.map body ++ [[]] := by
    have hlines := @Lines.splitOn_unlines_append _ _ newline [] (es.map body) (fun l hl => by
      obtain ⟨e, he, rfl⟩ := mem_map.1 hl
      exact (hes e he).newline_notMem)
    rwa [append_nil] at hlines
  have hloop := @loadLoop_bodies es maxEntries [] hes (by simpa using hmax)
  rw [nil_append, ← hsplit] at hloop
  constructor
  · intro hread
    rw [loadEntries, readAll, if_neg (by omega), if_pos hread]
    split
    · next hnil =>
      rw [hnil] at hloop
      exact congrArg some hloop
    · exact congrArg some hloop
  · intro entries hload
    rw [loadEntries] at hload
    obtain ⟨db, hdb, rfl⟩ := map_eq_some_iff.1 hload
    have hfile : db = fileOf es := by
      rw [readAll, if_neg (by omega)] at hdb
      split at hdb
      · next hnil => rw [hnil, ← Option.some.inj hdb]
      · split at hdb
        · exact (Option.some.inj hdb).symm
        · cases hdb
    rw [hfile, hloop]

theorem foldl_formatLine {db : List UInt8} (hes : ∀ e ∈ es, Good e)
    (hlen : (db ++ fileOf es).length < dbMax) :
    es.foldl (fun db entry => db ++ ushCopy (dbMax - db.length) (formatLine lineMax entry)) db =
      db ++ fileOf es := by
  induction es generalizing db with
  | nil => simp [fileOf]
  | cons e es ih =>
    have he := hes e (by simp)
    have hcons : fileOf (e :: es) = (body e ++ [newline]) ++ fileOf es := by simp [fileOf]
    rw [hcons, ← append_assoc] at hlen ⊢
    have hcopy : ushCopy (dbMax - db.length) (formatLine lineMax e) = body e ++ [newline] := by
      have hnul : (0 : UInt8) ≠ newline := by decide
      rw [he.formatLine_eq]
      refine ushCopy_of_length (by simp [he.nul_notMem, hnul]) ?_
      simp only [length_append] at hlen ⊢
      omega
    rw [foldl_cons, hcopy, ih (fun q hq => hes q (by simp [hq])) hlen]

/-- The contact that a text gives: two words, and what is behind them without spaces around. -/
def given (text : List UInt8) : ContactsEntry where
  name := word isspace text
  phone := word isspace (behind isspace text)
  email := ((behind isspace (behind isspace text)).dropWhile isspace).rdropWhile isspace

/-- A command that adds a contact, and one that removes contacts. -/
def IsAdd (arg : List UInt8) : Prop := word isspace (cstr arg) = lit "add"
def IsRemove (arg : List UInt8) : Prop := word isspace (cstr arg) = lit "remove" ∨ word isspace (cstr arg) = lit "rm"

instance (arg : List UInt8) : Decidable (IsAdd arg) := inferInstanceAs (Decidable (_ = _))

/-- The contacts behind a command. -/
def denote (arg : List UInt8) (es : List ContactsEntry) : List ContactsEntry :=
  if IsAdd arg then es ++ [given (behind isspace (cstr arg))]
  else es.filter fun e => e.name ≠ behind isspace (cstr arg)

/-- The fields fit their buffers, and there is no separator in them. -/
structure FitsFields (e : ContactsEntry) : Prop where
  name_bar : bar ∉ e.name
  phone_bar : bar ∉ e.phone
  email_bar : bar ∉ e.email
  email_newline : newline ∉ e.email
  name_lt : e.name.length < nameMax
  phone_lt : e.phone.length < phoneMax
  email_lt : e.email.length < emailMax

/-- The file, and the contacts that the commands so far denote. -/
structure Store where
  file : List UInt8
  contacts : List ContactsEntry

/-- A contact that is added has fields that fit, and there is room for it. -/
def Fits (st : Store) (arg : List UInt8) : Prop :=
  IsAdd arg → FitsFields (given (behind isspace (cstr arg))) ∧
    st.file.length + (body (given (behind isspace (cstr arg)))).length + 1 < dbMax ∧
    st.contacts.length < maxEntries

/-- A command that adds or removes succeeds. -/
def Step (st st' : Store) : Prop :=
  ∃ a arg, (IsAdd arg ∨ IsRemove arg) ∧ contactsHandle a st.file arg = (true, st'.file) ∧
    st'.contacts = denote arg st.contacts

/-- A command that fits succeeds. -/
def FittingStep (st st' : Store) : Prop :=
  ∃ a arg, (IsAdd arg ∨ IsRemove arg) ∧ Fits st arg ∧
    contactsHandle a st.file arg = (true, st'.file) ∧ st'.contacts = denote arg st.contacts

def Store.empty : Store := ⟨[], []⟩

theorem ushSplitFirstAndRest_eq (arg : List UInt8) (hn : n ≠ 0) : ushSplitFirstAndRest arg n =
      if (cstr arg).dropWhile isspace = [] then none
      else some ((word isspace (cstr arg)).take (n - 1), behind isspace (cstr arg)) := by
  rw [ushSplitFirstAndRest]
  simp only [hn, false_or]
  rfl

theorem email_subset {c : UInt8} (h : c ∈ (given s).email) : c ∈ s :=
  behind_subset (behind_subset ((dropWhile_suffix _).subset
    ((List.rdropWhile_prefix _ _).subset h)))

theorem good_given (hnul : (0 : UInt8) ∉ s) (hne : word isspace s ≠ []) (h : FitsFields (given s)) :
    Good (given s) := by
  have hnewline : ∀ t, newline ∉ word isspace t := fun t hc =>
    absurd (of_mem_word hc) (by decide)
  refine ⟨hne, ⟨h.name_bar, hnewline s, fun hc => hnul (word_subset hc)⟩,
    ⟨h.phone_bar, hnewline _, fun hc => hnul (behind_subset (word_subset hc))⟩,
    ⟨h.email_bar, h.email_newline, fun hc => hnul (email_subset hc)⟩, h.name_lt, h.phone_lt,
    h.email_lt, ?_⟩
  intro c hc hcr
  obtain ⟨front, hfront⟩ := List.getLast?_eq_some_iff.1 hc
  have hlast := rdropWhile_last_not isspace ((behind isspace (behind isspace s)).dropWhile isspace)
    (fun hnil => by simp [given, hnil] at hfront)
  simp only [given] at hfront
  simp only [hfront, getLast_append_singleton, hcr] at hlast
  exact hlast (by decide)

theorem rdropWhile_append_of_all {p : UInt8 → Bool} (ht : ∀ c ∈ t, p c = true) :
    (s ++ t).rdropWhile p = s.rdropWhile p := by
  induction t using List.reverseRecOn with
  | nil => rw [append_nil]
  | append_singleton t c ih =>
    rw [← append_assoc, rdropWhile_concat_pos _ _ _ (ht c (by simp)),
      ih fun d hd => ht d (by simp [hd])]

theorem rdropWhile_take {p : UInt8 → Bool} (h : (s.rdropWhile p).length ≤ n) :
    (s.take n).rdropWhile p = s.rdropWhile p := by
  have hsplit := @rdropWhile_append_rtakeWhile _ p s
  have htake : s.take n = s.rdropWhile p ++ (s.rtakeWhile p).take (n - (s.rdropWhile p).length) := by
    conv_lhs => rw [← hsplit, take_append, take_of_length_le h]
  rw [htake, rdropWhile_append_of_all fun c hc =>
    mem_rtakeWhile_imp (mem_of_mem_take hc), rdropWhile_idempotent]

theorem cstr_behind (hnul : (0 : UInt8) ∉ s) : cstr (behind isspace s) = behind isspace s :=
  cstr_of_notMem fun hc => hnul (behind_subset hc)

theorem dropWhile_take {p : UInt8 → Bool} (n : ℕ) (h : s.dropWhile p = s) :
    (s.take n).dropWhile p = s.take n := by
  cases s with
  | nil => simp
  | cons c s =>
    cases n with
    | zero => rfl
    | succ n =>
      have hc : p c = false := by
        by_contra hc
        rw [Bool.not_eq_false] at hc
        rw [dropWhile_cons_of_pos hc] at h
        have hle := (dropWhile_suffix p (l := s)).length_le
        rw [h, length_cons] at hle
        omega
      rw [take_succ_cons, dropWhile_cons_of_neg (by simp [hc])]

theorem ushTrimLine_copy (hnul : (0 : UInt8) ∉ s) (h : (given s).email.length < emailMax) :
    ushTrimLine (ushCopy emailMax (behind isspace (behind isspace s))) = (given s).email := by
  have hbehind : (0 : UInt8) ∉ behind isspace (behind isspace s) := fun hc => hnul (behind_subset (behind_subset hc))
  simp only [given, dropWhile_behind] at h ⊢
  rw [ushTrimLine, ushCopy, cstr_of_notMem hbehind,
    cstr_of_notMem fun hc => hbehind (mem_of_mem_take hc),
    dropWhile_take _ (dropWhile_behind _ _), rdropWhile_take (by omega)]

theorem splitThree_given (hnul : (0 : UInt8) ∉ s) (h : FitsFields (given s))
    {r : List UInt8 × List UInt8 × List UInt8}
    (hr : splitThree s nameMax phoneMax emailMax = some r) :
    r = ((given s).name, (given s).phone, (given s).email) ∧ word isspace s ≠ [] := by
  rw [splitThree] at hr
  obtain ⟨first, hfirst, hr⟩ := bind_eq_some_iff.1 hr
  obtain ⟨second, hsecond, rfl⟩ := map_eq_some_iff.1 hr
  rw [ushSplitFirstAndRest_eq _ (by decide), cstr_of_notMem hnul] at hfirst
  split at hfirst
  · cases hfirst
  · next hne =>
    cases hfirst
    rw [ushSplitFirstAndRest_eq _ (by decide), cstr_behind hnul] at hsecond
    split at hsecond
    · cases hsecond
    · cases hsecond
      refine ⟨?_, ?_⟩
      · have hname := h.name_lt
        have hphone := h.phone_lt
        simp only [given] at hname hphone
        rw [take_of_length_le (by omega), take_of_length_le (by omega),
          ushTrimLine_copy hnul h.email_lt]
        rfl
      · exact word_ne_nil_iff.2 hne

theorem ushSplitFirstAndRest_word {cmd : List UInt8} (h : word isspace (cstr arg) = cmd) (hne : cmd ≠ [])
    (hlen : cmd.length ≤ cmdMax - 1) :
    ushSplitFirstAndRest arg cmdMax = some (cmd, behind isspace (cstr arg)) := by
  have htext : (cstr arg).dropWhile isspace ≠ [] := by
    intro hnil
    rw [word, hnil] at h
    exact hne h.symm
  rw [ushSplitFirstAndRest_eq _ (by decide), if_neg htext, h, take_of_length_le hlen]

theorem contactsHandle_add (h : IsAdd arg) : contactsHandle a file arg =
    match splitThree (behind isspace (cstr arg)) nameMax phoneMax emailMax with
    | none => (false, file)
    | some (first, second, third) => appendEntry a file
        ⟨ushCopy nameMax first, ushCopy phoneMax second, ushCopy emailMax third⟩ := by
  rw [contactsHandle, ushSplitFirstAndRest_word h (by decide) (by decide)]
  rfl

theorem contactsHandle_remove (h : IsRemove arg) :
    contactsHandle a file arg = removeEntry a file (behind isspace (cstr arg)) := by
  rcases h with h | h
  · rw [contactsHandle, ushSplitFirstAndRest_word h (by decide) (by decide)]
    rfl
  · rw [contactsHandle, ushSplitFirstAndRest_word h (by decide) (by decide)]
    rfl

theorem writeAll_failed {data : List UInt8} (h : (writeAll a file data).1 = false) :
    (writeAll a file data).2 = file := by
  rw [writeAll] at h ⊢
  split at h
  · cases h
  · next hw => rw [if_neg hw]

theorem appendEntry_failed (h : (appendEntry a file e).1 = false) :
    (appendEntry a file e).2 = file := by
  rw [appendEntry] at h ⊢
  split
  · rfl
  · next hline =>
    rw [if_neg hline] at h
    split at h
    · cases h
    · next ha => rw [if_neg ha]

theorem printEntries_snd : (printEntries a file).2 = file := by
  rw [printEntries]
  split <;> rfl

theorem removeEntry_failed {name : List UInt8} (h : (removeEntry a file name).1 = false) :
    (removeEntry a file name).2 = file := by
  rw [removeEntry] at h ⊢
  split
  · rfl
  · next hname =>
    rw [if_neg hname] at h
    split
    · rfl
    · next hload =>
      rw [hload] at h
      exact writeAll_failed h

theorem contactsHandle_failed (h : (contactsHandle a file arg).1 = false) :
    (contactsHandle a file arg).2 = file := by
  rw [contactsHandle] at h ⊢
  split
  · exact printEntries_snd
  · next cmd rest hcmd =>
    rw [hcmd] at h
    simp only at h
    split
    · exact printEntries_snd
    · next hlist =>
      rw [if_neg hlist] at h
      split
      · rfl
      · next hpath =>
        rw [if_neg hpath] at h
        split
        · next hclear =>
          rw [if_pos hclear] at h
          exact writeAll_failed h
        · next hclear =>
          rw [if_neg hclear] at h
          split
          · next hremove =>
            rw [if_pos hremove] at h
            exact removeEntry_failed h
          · next hremove =>
            rw [if_neg hremove] at h
            split
            · next hadd =>
              rw [if_pos hadd] at h
              split
              · rfl
              · next hsplit =>
                rw [hsplit] at h
                simp only at h
                split
                · next hfirst =>
                  rw [if_pos hfirst] at h
                  exact appendEntry_failed h
                · next hfirst =>
                  rw [if_neg hfirst] at h
                  exact writeAll_failed h
            · rfl

/-! ## Runs -/

variable {st : Store}

/-- The file is that of contacts that can be read back, and all of them fit the table. -/
structure Inv (st : Store) : Prop where
  file_eq : st.file = fileOf st.contacts
  good : ∀ e ∈ st.contacts, Good e
  file_lt : st.file.length < dbMax
  contacts_le : st.contacts.length ≤ maxEntries

theorem Inv.empty : Inv Store.empty := by
  constructor
  · rfl
  · simp [Store.empty]
  · decide
  · decide

theorem Inv.load (h : Inv st) (hread : a.read = true) :
    loadEntries a st.file maxEntries = some st.contacts := by
  have hlt := h.file_lt
  rw [h.file_eq] at hlt ⊢
  exact (loadEntries_fileOf h.good h.contacts_le hlt).1 hread

theorem Inv.add (h : Inv st) (hadd : IsAdd arg) (hfits : Fits st arg) {file' : List UInt8}
    (hcall : contactsHandle a st.file arg = (true, file')) :
    Inv ⟨file', denote arg st.contacts⟩ := by
  obtain ⟨hfields, hroom, htable⟩ := hfits hadd
  have hnul : (0 : UInt8) ∉ behind isspace (cstr arg) := fun hc => notMem_cstr arg (behind_subset hc)
  rw [contactsHandle_add hadd] at hcall
  cases hsplit : splitThree (behind isspace (cstr arg)) nameMax phoneMax emailMax with
  | none =>
    rw [hsplit] at hcall
    cases hcall
  | some r =>
    obtain ⟨rfl, hne⟩ := splitThree_given hnul hfields hsplit
    have hgood := good_given hnul hne hfields
    rw [hsplit] at hcall
    simp only [ushCopy_of_length hgood.name_plain.2.2 hgood.name_lt,
      ushCopy_of_length hgood.phone_plain.2.2 hgood.phone_lt,
      ushCopy_of_length hgood.email_plain.2.2 hgood.email_lt, appendEntry, hgood.formatLine_eq] at hcall
    rw [if_neg (by simp)] at hcall
    split at hcall
    · cases hcall
      rw [denote, if_pos hadd]
      constructor
      · rw [fileOf_append, ← h.file_eq]
      · intro e he
        rcases mem_append.1 he with he | he
        · exact h.good e he
        · rw [mem_singleton.1 he]
          exact hgood
      · simp only [length_append, length_singleton]
        omega
      · simp only [length_append, length_singleton]
        omega
    · cases hcall

theorem Inv.remove (h : Inv st) (hremove : IsRemove arg) {file' : List UInt8}
    (hcall : contactsHandle a st.file arg = (true, file')) :
    Inv ⟨file', denote arg st.contacts⟩ := by
  have hadd : ¬ IsAdd arg := by
    intro hadd
    rcases hremove with hremove | hremove
    · exact absurd (hadd.symm.trans hremove) (by decide)
    · exact absurd (hadd.symm.trans hremove) (by decide)
  have hlt := h.file_lt
  rw [contactsHandle_remove hremove, removeEntry] at hcall
  rw [denote, if_neg hadd]
  split at hcall
  · cases hcall
  · split at hcall
    · cases hcall
    · next entries hload =>
      rw [h.file_eq] at hload hlt
      have hes := (loadEntries_fileOf h.good h.contacts_le hlt).2 entries hload
      subst hes
      have hsmall := length_fileOf_filter_le (fun e => decide (e.name ≠ behind isspace (cstr arg))) st.contacts
      have hkept : ∀ e ∈ st.contacts.filter fun e => decide (e.name ≠ behind isspace (cstr arg)), Good e :=
        fun e he => h.good e (mem_of_mem_filter he)
      simp only at hcall
      rw [foldl_formatLine hkept (by rw [nil_append]; omega), nil_append, writeAll] at hcall
      split at hcall
      · cases hcall
        exact ⟨rfl, hkept, lt_of_le_of_lt hsmall hlt,
          (length_filter_le _ _).trans h.contacts_le⟩
      · cases hcall

/-- Over every run of commands that fit, from the empty file, the file parses to the contacts that
the commands denote; and a command that fails leaves it as it is. -/
theorem contacts_of_runs (st : Store) (hst : Reachable (· = Store.empty) FittingStep st) :
    (∀ a : Answers, a.read = true → loadEntries a st.file maxEntries = some st.contacts) ∧
      ∀ a arg, (contactsHandle a st.file arg).1 = false →
        (contactsHandle a st.file arg).2 = st.file := by
  have hinv : Inv st := by
    refine Reachable.invariant (I := Inv) ?_ ?_ hst
    · rintro _ rfl
      exact Inv.empty
    · rintro s s' hs ⟨a, arg, hedit, hfits, hcall, hcontacts⟩
      have hs' : s' = ⟨s'.file, denote arg s.contacts⟩ := by
        rw [← hcontacts]
      rw [hs']
      rcases hedit with hadd | hremove
      · exact hs.add hadd hfits hcall
      · exact hs.remove hremove hcall
  exact ⟨fun a hread => hinv.load hread, fun a arg hfailed => contactsHandle_failed hfailed⟩

/-- A system that carries everything out. -/
def allDone : Answers := ⟨true, true, true⟩

/-- One contact. -/
theorem contacts_of_runs_bob :
    loadEntries allDone (lit "bob|1|b@c d\n") maxEntries = some [⟨lit "bob", lit "1", lit "b@c d"⟩] := by
  have hfits : Fits Store.empty (lit "add bob 1 b@c d ") := fun _ =>
    ⟨⟨by decide, by decide, by decide, by decide, by decide, by decide, by decide⟩, by decide, by decide⟩
  have hrun : Reachable (· = Store.empty) FittingStep
      ⟨lit "bob|1|b@c d\n", [⟨lit "bob", lit "1", lit "b@c d"⟩]⟩ :=
    .next (.start rfl)
      ⟨allDone, lit "add bob 1 b@c d ", .inl (by decide), hfits, by decide, by decide⟩
  exact (contacts_of_runs _ hrun).1 allDone rfl

/-- One contact with a bar in its name. -/
theorem not_contacts_of_runs : ¬ ∀ st, Reachable (· = Store.empty) Step st →
    loadEntries allDone st.file maxEntries = some st.contacts := by
  intro h
  have hrun : Reachable (· = Store.empty) Step
      ⟨lit "a|b|1|\n", [⟨lit "a|b", lit "1", []⟩]⟩ :=
    .next (.start rfl) ⟨allDone, lit "add a|b 1", .inl (by decide), by decide, by decide⟩
  exact absurd (h _ hrun) (by decide)

end Cleonos.Contacts
