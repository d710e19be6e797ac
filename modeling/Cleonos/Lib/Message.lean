import Mathlib.Data.List.Infix
import Mathlib.Data.List.Basic
import Cleonos.Lib.Text

/-!
# Messages and form data

A request of HTTP/1.1: a method and a target, the lines of its header, and a body whose length the
header gives.
-/

namespace Cleonos.Message

open List

def crlf : List UInt8 := [13, 10]

def Unbroken (text : List UInt8) : Prop := ∀ c ∈ text, c ≠ 13 ∧ c ≠ 10

instance (text : List UInt8) : Decidable (Unbroken text) :=
  List.decidableBAll (fun c => c ≠ 13 ∧ c ≠ 10) text

/-- What may stand in a method or a target: no space, no line end, no zero byte. -/
def Word (text : List UInt8) : Prop := ∀ c ∈ text, c ≠ 32 ∧ c ≠ 13 ∧ c ≠ 10 ∧ c ≠ 0

instance (text : List UInt8) : Decidable (Word text) :=
  List.decidableBAll (fun c => c ≠ 32 ∧ c ≠ 13 ∧ c ≠ 10 ∧ c ≠ 0) text

@[ext]
structure Request where
  method : List UInt8
  target : List UInt8
  lines : List (List UInt8)
  body : List UInt8
  deriving DecidableEq, Repr

/-- What stands behind the target in the first line. -/
def version : List UInt8 := lit " HTTP/1.1" ++ crlf

/-- The lines of a header, and the blank line. -/
def headerBytes (lines : List (List UInt8)) : List UInt8 := lines.flatMap (· ++ crlf) ++ crlf

def Request.bytes (r : Request) : List UInt8 :=
  r.method ++ 32 :: (r.target ++ (version ++ (headerBytes r.lines ++ r.body)))

/-- The value of decimal digits. -/
def number (digits : List UInt8) : ℕ := digits.foldl (fun n c => n * 10 + (c.toNat - 48)) 0

theorem number_append (digits : List UInt8) (c : UInt8) :
    number (digits ++ [c]) = number digits * 10 + (c.toNat - 48) := by
  rw [number, foldl_append]
  rfl

/-- The start of the line that gives the length of the body. -/
def lengthField : List UInt8 := lit "Content-Length: "

def bodyLength (lines : List (List UInt8)) : ℕ :=
  match lines.find? lengthField.isPrefixOf with
  | none => 0
  | some line => number (line.drop lengthField.length)

structure Request.WellFormed (r : Request) : Prop where
  method : Word r.method
  target : Word r.target
  lines : ∀ line ∈ r.lines, line ≠ [] ∧ Unbroken line
  body : r.body.length = bodyLength r.lines

variable {text rest rest' target target' : List UInt8} {lines lines' : List (List UInt8)}
  {r r' : Request}

/-! ## Reading -/

@[simp] theorem unbroken_append_iff {more : List UInt8} :
    Unbroken (text ++ more) ↔ Unbroken text ∧ Unbroken more := forall_mem_append

theorem Word.notMem (h : Word text) : (32 : UInt8) ∉ text := fun hmem => (h 32 hmem).1 rfl

theorem split_unique {α : Type*} {sep : α} {front front' back back' : List α} (h : sep ∉ front)
    (h' : sep ∉ front') (heq : front ++ sep :: back = front' ++ sep :: back') :
    front = front' ∧ back = back' := by
  induction front generalizing front' with
  | nil =>
    cases front' with
    | nil => exact ⟨rfl, List.cons.inj heq |>.2⟩
    | cons c front' => exact absurd (List.cons.inj heq).1 fun hc => h' (by simp [hc])
  | cons c front ih =>
    cases front' with
    | nil => exact absurd (List.cons.inj heq).1 fun hc => h (by simp [hc])
    | cons c' front' =>
      obtain ⟨hc, htail⟩ := List.cons.inj heq
      obtain ⟨hfront, hback⟩ := ih (fun hmem => h (mem_cons_of_mem _ hmem))
        (fun hmem => h' (mem_cons_of_mem _ hmem)) htail
      exact ⟨by rw [hc, hfront], hback⟩

theorem version_eq : version = 32 :: (lit "HTTP/1.1" ++ crlf) := rfl

theorem length_target_le (h : Word target')
    (heq : target ++ 32 :: rest = target' ++ 32 :: rest') : target'.length ≤ target.length := by
  by_contra hlt
  have hget : (target ++ 32 :: rest)[target.length]? =
      (target' ++ 32 :: rest')[target.length]? := by rw [heq]
  rw [List.getElem?_append_right le_rfl, Nat.sub_self,
    List.getElem?_append_left (by omega)] at hget
  exact h.notMem (mem_of_getElem? hget.symm)

/-- A method, a target, lines and a body that is not shorter than the lines say: their bytes read as
a request with these lines exactly if the parts are well formed. -/
theorem exists_request_iff {method body : List UInt8} (hmethod : Word method)
    (hlines : ∀ line ∈ lines, line ≠ []) (hlen : bodyLength lines ≤ body.length) :
    (∃ r : Request, r.WellFormed ∧ r.lines = lines ∧
        r.bytes = (⟨method, target, lines, body⟩ : Request).bytes) ↔
      Word target ∧ (∀ line ∈ lines, Unbroken line) ∧ body.length = bodyLength lines := by
  constructor
  · rintro ⟨r, hr, rfl, hbytes⟩
    obtain ⟨-, hrest⟩ := split_unique hr.method.notMem hmethod.notMem hbytes
    rw [version_eq] at hrest
    dsimp only at hrest
    have hle := length_target_le hr.target hrest.symm
    have htotal := congrArg List.length hrest
    have hbody := hr.body
    simp only [length_append, length_cons] at htotal
    have hsame : r.target.length = target.length := by omega
    have htarget : r.target = target := (append_inj hrest hsame).1
    refine ⟨htarget ▸ hr.target, fun line hline => (hr.lines line hline).2, ?_⟩
    omega
  · rintro ⟨htarget, hunbroken, hbody⟩
    exact ⟨_, ⟨hmethod, htarget, fun line hline => ⟨hlines line hline, hunbroken line hline⟩, hbody⟩,
      rfl, rfl⟩

end Cleonos.Message

namespace Cleonos.FormData

open List

/-- The value of a hexadecimal digit. -/
def hexDigit (c : UInt8) : Option UInt8 :=
  if 48 ≤ c ∧ c ≤ 57 then some (c - 48)
  else if 65 ≤ c ∧ c ≤ 70 then some (c - 55)
  else if 97 ≤ c ∧ c ≤ 102 then some (c - 87)
  else none

/-- A percent sign without two digits behind it stands for itself. -/
def unescape : List UInt8 → List UInt8
  | [] => []
  | 43 :: rest => 32 :: unescape rest
  | 37 :: a :: b :: rest =>
    match hexDigit a, hexDigit b with
    | some high, some low => (high * 16 + low) :: unescape rest
    | _, _ => 37 :: unescape (a :: b :: rest)
  | c :: rest => c :: unescape rest

/-- The name is what stands in front of the first `=`. -/
def parsePair (piece : List UInt8) : List UInt8 × List UInt8 :=
  (unescape (piece.takeWhile (· ≠ 61)), unescape ((piece.dropWhile (· ≠ 61)).drop 1))

/-- The pieces between the `&` are pairs, and those that are empty are passed over. -/
def parseForm (text : List UInt8) : List (List UInt8 × List UInt8) :=
  ((text.splitOn 38).filter (· ≠ [])).map parsePair

/-- The encoder is undone, and no separator is written. -/
structure Escapes (enc : UInt8 → List UInt8) : Prop where
  unescape_append : ∀ c rest, unescape (enc c ++ rest) = c :: unescape rest
  clean : ∀ c, 38 ∉ enc c ∧ 61 ∉ enc c

def encodePair (enc : UInt8 → List UInt8) (pair : List UInt8 × List UInt8) : List UInt8 :=
  pair.1.flatMap enc ++ 61 :: pair.2.flatMap enc

/-- All of them, with `&` between them. -/
def encodePairs (enc : UInt8 → List UInt8) (pairs : List (List UInt8 × List UInt8)) : List UInt8 :=
  [38].intercalate (pairs.map (encodePair enc))

theorem encodePairs_cons (enc : UInt8 → List UInt8) (pair : List UInt8 × List UInt8)
    (pairs : List (List UInt8 × List UInt8)) :
    encodePairs enc (pair :: pairs) =
      encodePair enc pair ++ pairs.flatMap fun next => 38 :: encodePair enc next := by
  induction pairs generalizing pair with
  | nil => simp [encodePairs]
  | cons next pairs ih =>
    rw [flatMap_cons, cons_append, ← ih next]
    simp [encodePairs, List.intercalate]

theorem unescape_cons {c : UInt8} (hplus : c ≠ 43) (hpercent : c ≠ 37) (rest : List UInt8) :
    unescape (c :: rest) = c :: unescape rest := by
  rw [unescape]
  · exact hplus
  · intro a b tail h
    exact absurd h hpercent

theorem unescape_percent {a b high low : UInt8} (ha : hexDigit a = some high)
    (hb : hexDigit b = some low) (rest : List UInt8) :
    unescape (37 :: a :: b :: rest) = (high * 16 + low) :: unescape rest := by
  rw [unescape, ha, hb]

@[simp] theorem parseForm_nil : parseForm [] = [] := rfl

theorem parseForm_append (front back : List UInt8) :
    parseForm (front ++ 38 :: back) = parseForm front ++ parseForm back := by
  rw [parseForm, splitOn_append_cons_self, filter_append, map_append]
  rfl

theorem parseForm_piece {piece : List UInt8} (hclean : 38 ∉ piece) (hne : piece ≠ []) :
    parseForm piece = [parsePair piece] := by
  rw [parseForm, splitOn_eq_singleton hclean]
  simp [hne]

variable {enc : UInt8 → List UInt8}

theorem Escapes.unescape_flatMap (h : Escapes enc) (text : List UInt8) :
    unescape (text.flatMap enc) = text := by
  induction text with
  | nil => rfl
  | cons c text ih => rw [flatMap_cons, h.unescape_append, ih]

theorem Escapes.clean_flatMap (h : Escapes enc) (text : List UInt8) :
    38 ∉ text.flatMap enc ∧ 61 ∉ text.flatMap enc := by
  constructor
  · intro hmem
    obtain ⟨c, -, hc⟩ := mem_flatMap.1 hmem
    exact (h.clean c).1 hc
  · intro hmem
    obtain ⟨c, -, hc⟩ := mem_flatMap.1 hmem
    exact (h.clean c).2 hc

theorem Escapes.clean_encodePair (h : Escapes enc) (pair : List UInt8 × List UInt8) :
    38 ∉ encodePair enc pair := by
  intro hmem
  rw [encodePair, mem_append, mem_cons] at hmem
  cases hmem with
  | inl hname => exact (h.clean_flatMap _).1 hname
  | inr hmem =>
    cases hmem with
    | inl hsep => cases hsep
    | inr hvalue => exact (h.clean_flatMap _).1 hvalue

theorem encodePair_ne_nil (enc : UInt8 → List UInt8) (pair : List UInt8 × List UInt8) :
    encodePair enc pair ≠ [] := by
  intro hnil
  have hlen := congrArg List.length hnil
  simp [encodePair] at hlen

theorem Escapes.parsePair_encodePair (h : Escapes enc) (pair : List UInt8 × List UInt8) :
    parsePair (encodePair enc pair) = pair := by
  have hall : ∀ b ∈ pair.1.flatMap enc, (b ≠ 61 : Bool) = true := by
    intro b hb
    rw [decide_eq_true_eq]
    intro heq
    exact (h.clean_flatMap pair.1).2 (heq ▸ hb)
  have htake : (encodePair enc pair).takeWhile (· ≠ 61) = pair.1.flatMap enc := by
    rw [encodePair, takeWhile_append_of_pos hall, takeWhile_cons_of_neg (by simp),
      append_nil]
  have hdrop : (encodePair enc pair).dropWhile (· ≠ 61) = 61 :: pair.2.flatMap enc := by
    rw [encodePair, dropWhile_append_of_pos hall, dropWhile_cons_of_neg (by simp)]
  rw [parsePair, htake, hdrop, drop_one, tail_cons, h.unescape_flatMap,
    h.unescape_flatMap]

theorem Escapes.parseForm_encodePairs (h : Escapes enc) (pairs : List (List UInt8 × List UInt8)) :
    parseForm (encodePairs enc pairs) = pairs := by
  induction pairs with
  | nil => rfl
  | cons pair pairs ih =>
    have hpiece := parseForm_piece (h.clean_encodePair pair) (encodePair_ne_nil enc pair)
    rw [h.parsePair_encodePair] at hpiece
    cases pairs with
    | nil => rwa [encodePairs_cons, flatMap_nil, append_nil]
    | cons next pairs =>
      rw [encodePairs_cons, flatMap_cons, cons_append, ← encodePairs_cons,
        parseForm_append, hpiece, ih, singleton_append]

end Cleonos.FormData
