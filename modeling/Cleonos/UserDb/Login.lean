import Cleonos.UserDb.Integrity

/-!
# Passwords over a run

A password opens an account just if it is the last one that was set for it.
-/

namespace Cleonos.UserDb

open List Option
open Fips180 (sha256)
open Function (update update_self update_of_ne)
open Libc (isspace)
open Sha256 (cleonosUserHashPassword cleonosUserHashPassword_eq hexDigits)

/-- `cleonos_user_verify_password`; the record of the user. -/
def cleonosUserVerifyPassword (data : ℕ → UInt8) (db : Db) (name : List UInt8)
    (password : Option (List UInt8)) : Option Record :=
  match cleonosUserFind name db with
  | none => none
  | some record =>
    if record.hash = cleonosUserHashPassword data password then some record else none

/-- The digest of a password. -/
def digest (password : List UInt8) : List UInt8 := hexDigits (sha256 (cstr password))

/-- The digest that opens each account. -/
abbrev Accounts : Type := List UInt8 → Option (List UInt8)

/-- The accounts of a database. -/
def accountsOf (db : Db) : Accounts := fun name => (cleonosUserFind name db).map Record.hash

/-- The accounts behind an operation that succeeds. -/
def Op.accounts (accounts : Accounts) : Op → Accounts
  | .create name password _ _ =>
    if accounts name = none then update accounts name (some (digest password)) else accounts
  | .changePassword name newPassword => update accounts name (some (digest newPassword))
  | .setRole _ _ => accounts
  | .remove name => update accounts name none

/-- One operation on the database, and what it means for the accounts. -/
def Step (s s' : Db × Accounts) : Prop :=
  ∃ a data op, Refuses a ∧ Fits a s.1 op ∧ s'.1 = (runOp a data s.1 op).2 ∧
    s'.2 = if (runOp a data s.1 op).1 = true then op.accounts s.2 else s.2

/-- The line of a record fits the buffer with any role. -/
def Short (r : Record) : Prop := r.name.length + r.home.length ≤ 118

/-- A record as its line is read again. -/
def reread (r : Record) : Record :=
  ⟨r.name, r.hash, roleOf (roleText r.role), cuCopy homeMax (r.home.rdropWhile isspace)⟩

/-- The accounts are those of the database, and every line can be written again. -/
structure Agree (s : Db × Accounts) : Prop where
  sound : Sound s.1
  accounts : s.2 = accountsOf s.1
  short : ∀ n r, cleonosUserFind n s.1 = some r → Short r

variable {a : Answers} {data : ℕ → UInt8} {file name : List UInt8} {r : Record} {db db' : Db}
  {accounts : Accounts}

theorem hashPassword_eq (data : ℕ → UInt8) (password : Option (List UInt8)) :
    cleonosUserHashPassword data password = digest (password.getD []) :=
  cleonosUserHashPassword_eq data password

theorem reread_fullLine (hr : WellFormed r) (hshort : Short r) :
    (fullLine r).length + 1 ≤ recordMax - 1 ∧
      lineRecord (fullLine r) = some (reread r) := by
  have hrole := (roleText_field r.role).2.2.1
  have hhash := hr.hash_length
  have hlen : (fullLine r).length + 1 ≤ recordMax - 1 := by
    simp only [fullLine, joined, length_append, length_cons, hashHexLen, recordMax, Short] at *
    omega
  refine ⟨hlen, ?_⟩
  rw [lineRecord, lineOf_of_length hr.nul_notMem (by omega)]
  have hmargin : IsMargin [] [] := ⟨by simp, by simp⟩
  exact parseRecord_fields hmargin hr.fields (Nat.le_of_succ_le hlen)

theorem records_replace (hr : WellFormed r) (hshort : Short r) {segments : List (List UInt8)}
    (h : ∀ s ∈ segments, newline ∉ s) : records (segments.flatMap (piece (some r) none)) =
      (segments.filterMap lineRecord).map fun q =>
        if q.name = r.name then reread r else q := by
  obtain ⟨hlen, hline⟩ := reread_fullLine hr hshort
  induction segments with
  | nil => exact records_nil
  | cons segment segments ih =>
    have ih := ih fun s hs => h s (mem_cons_of_mem _ hs)
    rw [flatMap_cons, piece, action]
    cases hq : lineRecord segment with
    | none =>
      rw [filterMap_cons_none hq]
      rw [records_copied (h segment mem_cons_self), hq, ih]
      rfl
    | some q =>
      rw [filterMap_cons_some hq, map_cons]
      dsimp only
      rw [if_neg (by simp : ¬ (none : Option (List UInt8)) = some q.name)]
      by_cases hname : q.name = r.name
      · rw [if_pos hname, Option.filter_some_pos (by simpa using hname)]
        dsimp only
        rw [hr.recordLine_eq, take_of_length_le (by simpa using hlen), append_assoc,
          singleton_append, records_line hr.newline_notMem, hline, ih]
        rfl
      · rw [if_neg hname, Option.filter_some_neg (by simpa using hname)]
        rw [records_copied (h segment mem_cons_self), hq, ih]
        rfl

theorem find_replace (hs : Sound (some file)) (hr : WellFormed r) (hshort : Short r)
    (hok : (cuDbRewriteWith a (some file) (some r) none).1 = true) (n : List UInt8) :
    cleonosUserFind n (cuDbRewriteWith a (some file) (some r) none).2 =
      (cleonosUserFind n (some file)).map fun q =>
        if n = r.name then reread r else q := by
  obtain ⟨hload, -⟩ := sound_iff.1 hs
  have hrep : ∀ q, some r = some q → WellFormed q := fun q hq => Option.some.inj hq ▸ hr
  rcases @cuDbRewriteWith_cases a file (some r) none hrep hload with h | ⟨h, hload'⟩
  · rw [h] at hok
    cases hok
  rw [h]
  by_cases hn : nameValid n = true
  · rw [cleonosUserFind_eq hn hload', cleonosUserFind_eq hn hload,
      records_replace hr hshort fun _ => newline_notMem_segments]
    change ((records file).map _).find? _ = _
    rw [find?_map]
    have hsame : ((fun q : Record => decide (q.name = n)) ∘ fun q =>
        if q.name = r.name then reread r else q) = fun q => decide (q.name = n) := by
      funext q
      by_cases hq : q.name = r.name <;> simp [hq, reread]
    rw [hsame]
    cases hfind : (records file).find? fun q => decide (q.name = n) with
    | none => rfl
    | some q =>
      have hq : q.name = n := by simpa using List.find?_some hfind
      rw [Option.map_some, Option.map_some, hq]
  · rw [cleonosUserFind, cleonosUserFind, if_pos (by simpa using hn), if_pos (by simpa using hn)]
    rfl

theorem name_of_find {db : Db} (hs : Sound db) (h : cleonosUserFind name db = some r) :
    r.name = name := by
  obtain ⟨file, rfl⟩ : ∃ file, db = some file := ⟨hs.choose, hs.choose_spec.1⟩
  by_cases hname : nameValid name = true
  · rw [cleonosUserFind_eq hname (sound_iff.1 hs).1] at h
    simpa using List.find?_some h
  · rw [cleonosUserFind, if_pos (by simpa using hname)] at h
    cases h

theorem Agree.unchanged (h : Agree (db, accounts)) (hsound : Sound db')
    (hfind : ∀ n, cleonosUserFind n db' = cleonosUserFind n db) : Agree (db', accounts) := by
  refine ⟨hsound, h.accounts.trans ?_, fun n r hr => h.short n r (hfind n ▸ hr)⟩
  funext n
  rw [accountsOf, accountsOf, hfind]

/-- The record of one user changes. -/
theorem Agree.update (h : Agree (db, accounts)) (hsound : Sound db')
    {found : Option Record} (hself : cleonosUserFind name db' = found)
    (hothers : ∀ n, n ≠ name → cleonosUserFind n db' = cleonosUserFind n db)
    (hshort : ∀ r, found = some r → Short r) :
    Agree (db', Function.update accounts name (found.map Record.hash)) := by
  refine ⟨hsound, funext fun n => ?_, fun n r hr => ?_⟩
  · have haccounts := congrFun h.accounts n
    dsimp only at haccounts ⊢
    by_cases hn : n = name
    · rw [hn, update_self, accountsOf, hself]
    · rw [update_of_ne hn, accountsOf, hothers n hn]
      exact haccounts
  · by_cases hn : n = name
    · rw [hn, hself] at hr
      exact hshort r hr
    · rw [hothers n hn] at hr
      exact h.short n r hr

/-- A record that is found is written again, with another role or another digest. -/
theorem Agree.replace {record : Record} (h : Agree (some file, accounts))
    (hfind : cleonosUserFind name (some file) = some record) (hr : WellFormed r)
    (hname : r.name = name) (hhome : r.home = record.home)
    (hok : (cuDbRewriteWith a (some file) (some r) none).1 = true) :
    Agree ((cuDbRewriteWith a (some file) (some r) none).2,
      Function.update accounts name (some r.hash)) := by
  have hshort : Short r := by
    rw [Short, hname, hhome, ← name_of_find h.sound hfind]
    exact h.short name record hfind
  have hafter := find_replace h.sound hr hshort hok
  rw [hname] at hafter
  have hself : cleonosUserFind name (cuDbRewriteWith a (some file) (some r) none).2 =
      some (reread r) := by
    rw [hafter, hfind, Option.map_some, if_pos rfl]
  refine h.update (sound_replace h.sound hr).1 hself (fun n hn => ?_) fun q hq => ?_
  · rw [hafter]
    simp only [if_neg hn, Option.map_id']
  · cases hq
    refine (Nat.add_le_add_left ?_ _).trans hshort
    exact (length_take_le' _ _).trans ((length_cstr_le _).trans (List.rdropWhile_prefix _ _).length_le)

theorem short_newRecord (data : ℕ → UInt8) (hname : nameValid name = true)
    (password : List UInt8) (role : ℕ) : Short (newRecord data name password role) := by
  have hlen := ((nameValid_iff name).1 hname).2.1
  have hhome : (newRecord data name password role).home = lit "/home/" ++ name := homeFor_eq hname
  have hlit : (lit "/home/").length = 6 := by decide
  rw [Short, newRecord_name data hname, hhome, length_append, hlit]
  rw [nameMax] at hlen
  omega

/-- An operation does to the accounts what it is to do. -/
theorem Agree.step {s s' : Db × Accounts} (h : Agree s) (hstep : Step s s') : Agree s' := by
  obtain ⟨db, accounts⟩ := s
  obtain ⟨db', accounts'⟩ := s'
  obtain ⟨a, data, op, ha, hfits, rfl, rfl⟩ := hstep
  dsimp only at ha hfits ⊢
  obtain ⟨hsound, hpromise⟩ := @runOp_keeps a data db op h.sound ha hfits
  have haccounts (n : List UInt8) : accounts n = (cleonosUserFind n db).map Record.hash :=
    congrFun h.accounts n
  cases hok : (runOp a data db op).1 with
  | false => exact h.unchanged hsound (hpromise.failed hok)
  | true =>
    rw [if_pos rfl]
    cases op with
    | create name password role allowExisting =>
      rw [Op.accounts, haccounts]
      cases hfind : cleonosUserFind name db with
      | none =>
        obtain ⟨hself, hothers⟩ := hpromise.created _ _ _ _ rfl hok hfind
        have hvalid : nameValid name = true := by
          by_contra hname
          rw [cleonosUserFind, if_pos (by simpa using hname)] at hself
          cases hself
        have hagree := h.update hsound hself hothers fun r hr => by
          cases hr
          exact short_newRecord data hvalid password role
        rwa [Option.map_some, newRecord, hashPassword_eq] at hagree
      | some record =>
        exact h.unchanged hsound (hpromise.existed _ _ _ _ rfl hok (by rw [hfind]; simp))
    | changePassword name newPassword =>
      obtain ⟨file, rfl⟩ : ∃ file, db = some file := ⟨h.sound.choose, h.sound.choose_spec.1⟩
      rw [runOp, cleonosUserChangePassword] at hok ⊢
      cases hfind : cleonosUserFind name (some file) with
      | none =>
        rw [hfind] at hok
        cases hok
      | some record =>
        rw [hfind] at hok
        dsimp only at hok ⊢
        split at hok
        · cases hok
        next hpassword =>
        have hwf := wellFormed_of_find (sound_iff.1 h.sound).1 hfind
        have hname : record.name = name := name_of_find h.sound hfind
        have hhash : cleonosUserHashPassword data (some newPassword) = digest newPassword :=
          hashPassword_eq data (some newPassword)
        obtain ⟨hlen, hchar⟩ := hashPassword_spec data newPassword
        rw [if_neg hpassword, Op.accounts, ← hhash]
        exact h.replace hfind { hwf with
          hash_field := isField_of_nameChar hchar
          hash_length := hlen } hname rfl hok
    | setRole name role =>
      obtain ⟨file, rfl⟩ : ∃ file, db = some file := ⟨h.sound.choose, h.sound.choose_spec.1⟩
      rw [runOp, cleonosUserSetRole] at hok ⊢
      cases hfind : cleonosUserFind name (some file) with
      | none =>
        rw [hfind] at hok
        cases hok
      | some record =>
        rw [hfind] at hok
        dsimp only at hok ⊢
        rw [ha.2.1, if_neg Bool.false_ne_true] at hok ⊢
        have hwf := wellFormed_of_find (sound_iff.1 h.sound).1 hfind
        have hname : record.name = name := name_of_find h.sound hfind
        have hagree := h.replace hfind (r := { record with
          role := if role = roleAdmin then roleAdmin else roleUser }) { hwf with } hname rfl hok
        have hsame : some record.hash = accounts name := by
          rw [haccounts, hfind]
          rfl
        rw [Op.accounts]
        rwa [hsame, Function.update_eq_self] at hagree
    | remove name =>
      obtain ⟨hself, hothers⟩ := hpromise.removed name rfl hok
      exact h.update hsound hself hothers fun r hr => by cases hr

/-- Over every run of operations that fit, from a file that loads with valid and unique names and
with lines that can be written again, a password opens an account just if it is the last one that
was set for it. -/
theorem login_iff {db₀ : Db} (h₀ : Sound db₀)
    (hshort : ∀ n r, cleonosUserFind n db₀ = some r → Short r)
    (hrun : Reachable (· = (db₀, accountsOf db₀)) Step (db, accounts)) (data : ℕ → UInt8)
    (name : List UInt8) (password : Option (List UInt8)) :
    (cleonosUserVerifyPassword data db name password).isSome ↔
      accounts name = some (digest (password.getD [])) := by
  have hagree : Agree (db, accounts) := by
    refine hrun.invariant (I := Agree) ?_ fun _ _ h hstep => h.step hstep
    rintro s rfl
    exact ⟨h₀, rfl, hshort⟩
  have haccounts : accounts name = (cleonosUserFind name db).map Record.hash :=
    congrFun hagree.accounts name
  rw [haccounts, cleonosUserVerifyPassword, hashPassword_eq]
  cases cleonosUserFind name db with
  | none => simp
  | some record => by_cases hhash : record.hash = digest (password.getD []) <;> simp [hhash]

/-- A kernel without the user calls, on which everything else works. -/
def willing : Answers := ⟨false, false, false, true, true, true, true, true⟩

/-- A new user logs in with the password that was given. -/
theorem login_bob : (cleonosUserVerifyPassword (fun _ => 0) (runOp willing (fun _ => 0) (some [])
    (.create (lit "bob") (lit "pw") 0 false)).2 (lit "bob") (some (lit "pw"))).isSome = true := by
  have hload : Loads [] := by simp [Loads, dbMax]
  have hsound : Sound (some []) := sound_iff.2 ⟨hload, by decide⟩
  have hnobody (n : List UInt8) : cleonosUserFind n (some []) = none := by
    by_cases hn : nameValid n = true
    · rw [cleonosUserFind_eq hn hload, records_nil]
      rfl
    · rw [cleonosUserFind, if_pos (by simpa using hn)]
  have hbob : nameValid (lit "bob") = true := by decide
  have hpassword : lit "pw" ≠ [] := by decide
  have hok : (runOp willing (fun _ => 0) (some []) (.create (lit "bob") (lit "pw") 0 false)).1 =
      true := by
    simp [willing, runOp, cleonosUserCreate, hbob, hpassword, hnobody]
  have hstep : Step (some [], accountsOf (some []))
      ((runOp willing (fun _ => 0) (some []) (.create (lit "bob") (lit "pw") 0 false)).2,
        update (accountsOf (some [])) (lit "bob") (some (digest (lit "pw")))) := by
    refine ⟨willing, fun _ => 0, .create (lit "bob") (lit "pw") 0 false, ⟨rfl, rfl, rfl⟩, ?_, rfl, ?_⟩
    · intro _ _ _ _ _ _ file hfile
      cases hfile
      exact ⟨by decide, ⟨[], [], rfl, by simp, by simp⟩, by decide⟩
    · have hnew : accountsOf (some []) (lit "bob") = none := by rw [accountsOf, hnobody, Option.map_none]
      rw [if_pos hok, Op.accounts, if_pos hnew]
  have hshort (n : List UInt8) (r : Record) (h : cleonosUserFind n (some []) = some r) :
      Short r := by
    rw [hnobody] at h
    cases h
  rw [login_iff hsound hshort (.next (.start rfl) hstep), update_self]
  rfl

end Cleonos.UserDb
