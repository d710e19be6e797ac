import Cleonos.Browser.Fetch
import Cleonos.Lib.Probe

/-!
# Answers of the DNS

`browser_dns.c`: a name is written into a query, names are passed over in a response, and the
address of the first A record is taken from it.
-/

namespace Cleonos.Browser

open List Option
open Probe (Within fail result_bind result_touch touch)

/-! ## The query -/

/-- A byte that `encode_qname` reads in the host, or one that it writes into the packet. -/
inductive QnamePlace
  | host (i : ℕ)
  | out (i : ℕ)
  deriving DecidableEq, Repr

/-- The loop of `ush_browser_dns_encode_qname`: what is left of the name from `p` on are labels.
Each of them is read up to its end and then once more. -/
def encodeLoop (host : List UInt8) (outCap : ℕ) :
    List (List UInt8) → ℕ → List UInt8 → Probe QnamePlace (List UInt8)
  | [], p, out => touch [.host p, .out out.length] (out ++ [0])
  | label :: rest, p, out => do
      let dot := p + label.length
      touch ((List.range' p (label.length + 1)).map .host) ()
      if label.length = 0 ∨ label.length > 63 then fail
      else if out.length + 1 + label.length + 1 > outCap then fail
      else
        touch (.out out.length :: (List.range label.length).flatMap fun i =>
          [.host (p + i), .out (out.length + 1 + i)]) ()
        touch [.host dot] ()
        encodeLoop host outCap rest (if host[dot]? = some 46 then dot + 1 else dot)
          (out ++ UInt8.ofNat label.length :: label)

/-- The host has its bytes and the NUL behind them; the packet has `outCap` bytes. -/
def QnamePlace.Inside (hostLen outCap : ℕ) : QnamePlace → Prop
  | .host i => i ≤ hostLen
  | .out i => i < outCap

/-- `ush_browser_dns_encode_qname`. -/
def encodeQname (host : List UInt8) (outCap : ℕ) : Probe QnamePlace (List UInt8) := do
  if outCap < 2 then fail
  else
    touch [.host 0] ()
    if host = [] then fail else encodeLoop host outCap (labels host) 0 []

def byteOf (msg : List UInt8) (i : ℕ) : Probe ℕ UInt8 := touch [i] (msg.getD i 0)

/-- `ush_browser_read_be16`. -/
def readBe16 (msg : List UInt8) (i : ℕ) : Probe ℕ ℕ := do
  let high ← byteOf msg i
  let low ← byteOf msg (i + 1)
  return high.toNat <<< 8 ||| low.toNat

/-- The loop of `ush_browser_dns_skip_name`; `off` is what stands at `io_off`. -/
def skipLoop (msg : List UInt8) : ℕ → ℕ → ℕ → Bool → Probe ℕ ℕ
  | 0, _, _, _ => fail
  | fuel + 1, pos, off, jumped =>
    if pos ≥ msg.length then fail
    else do
      let len ← byteOf msg pos
      if len = 0 then return if jumped then off else pos + 1
      else if len.toNat &&& 0xC0 = 0xC0 then
        if pos + 1 ≥ msg.length then fail
        else do
          let low ← byteOf msg (pos + 1)
          let ptr := (len.toNat &&& 0x3F) <<< 8 ||| low.toNat
          if ptr ≥ msg.length then fail
          else skipLoop msg fuel ptr (if jumped then off else pos + 2) true
      else if len.toNat &&& 0xC0 ≠ 0 then fail
      else if pos + 1 + len.toNat > msg.length then fail
      else
        skipLoop msg fuel (pos + 1 + len.toNat) (if jumped then off else pos + 1 + len.toNat)
          jumped

/-- `ush_browser_dns_skip_name`: where the name at `off` ends. -/
def skipName (msg : List UInt8) (off : ℕ) : Probe ℕ ℕ :=
  if off ≥ msg.length then fail else skipLoop msg 32 off off false

/-- The loop over the questions of `ush_browser_dns_parse_first_a`. -/
def questionLoop (resp : List UInt8) : ℕ → ℕ → Probe ℕ ℕ
  | 0, off => return off
  | count + 1, off => do
      let off ← skipName resp off
      if off + 4 > resp.length then fail else questionLoop resp count (off + 4)

/-- The loop over the answers. -/
def answerLoop (resp : List UInt8) : ℕ → ℕ → Probe ℕ ℕ
  | 0, _ => fail
  | count + 1, off => do
      let off ← skipName resp off
      if off + 10 > resp.length then fail
      else do
        let type ← readBe16 resp off
        let klass ← readBe16 resp (off + 2)
        let rdlen ← readBe16 resp (off + 8)
        let off := off + 10
        if off + rdlen > resp.length then fail
        else if type = 1 ∧ klass = 1 ∧ rdlen = 4 then do
          let a ← byteOf resp off
          let b ← byteOf resp (off + 1)
          let c ← byteOf resp (off + 2)
          let d ← byteOf resp (off + 3)
          return a.toNat <<< 24 ||| b.toNat <<< 16 ||| c.toNat <<< 8 ||| d.toNat
        else answerLoop resp count (off + rdlen)

/-- `ush_browser_dns_parse_first_a`. -/
def parseFirstA (resp : List UInt8) (expectedId : ℕ) : Probe ℕ ℕ :=
  if resp.length < 12 then fail
  else do
    let id ← readBe16 resp 0
    if id ≠ expectedId then fail
    else do
      let flags ← readBe16 resp 2
      let qdcount ← readBe16 resp 4
      let ancount ← readBe16 resp 6
      if flags &&& 0x8000 = 0 then fail
      else if flags &&& 0x000F ≠ 0 then fail
      else do
        let off ← questionLoop resp qdcount 12
        answerLoop resp ancount off

/-- A name within the limits of the DNS. -/
structure DnsName where
  labels : List (List UInt8)
  sizes : ∀ label ∈ labels, 1 ≤ label.length ∧ label.length ≤ 63
  fits : (labels.map fun label => label.length + 1).sum + 1 ≤ 255

/-- The labels stand in the packet from `off` on, up to `next`; `steps` are the labels and the
pointers that one meets on the way. A pointer leads to what stands in front of it. -/
inductive NameAt (msg : List UInt8) : ℕ → List (List UInt8) → ℕ → ℕ → Prop
  | root {off : ℕ} (h : msg[off]? = some 0) : NameAt msg off [] (off + 1) 0
  | label {off next steps : ℕ} {label : List UInt8} {labels : List (List UInt8)}
      (hsize : 1 ≤ label.length ∧ label.length ≤ 63)
      (hlabel : UInt8.ofNat label.length :: label <+: msg.drop off)
      (hrest : NameAt msg (off + 1 + label.length) labels next steps) :
      NameAt msg off (label :: labels) next (steps + 1)
  | pointer {off next steps ptr : ℕ} {labels : List (List UInt8)} (hptr : ptr < off)
      (hbound : ptr < 2 ^ 14)
      (hbytes : [UInt8.ofNat (192 + ptr / 256), UInt8.ofNat (ptr % 256)] <+: msg.drop off)
      (hrest : NameAt msg ptr labels next steps) :
      NameAt msg off labels (off + 2) (steps + 1)

def be16 (v : UInt16) : List UInt8 := [UInt8.ofNat (v.toNat / 256), UInt8.ofNat (v.toNat % 256)]

/-- A question. -/
structure DnsQuestion where
  name : DnsName
  type : UInt16
  klass : UInt16

/-- A resource record. -/
structure DnsRecord where
  name : DnsName
  type : UInt16
  klass : UInt16
  ttl : UInt16 × UInt16
  rdata : List UInt8
  fits : rdata.length < 2 ^ 16

/-- The part of a record in front of its data, behind its name. -/
def DnsRecord.fixed (r : DnsRecord) : List UInt8 :=
  be16 r.type ++ (be16 r.klass ++ (be16 r.ttl.1 ++ (be16 r.ttl.2 ++
    be16 (UInt16.ofNat r.rdata.length))))

/-- An A record of the Internet. -/
def DnsRecord.IsA (r : DnsRecord) : Prop := r.type = 1 ∧ r.klass = 1

instance (r : DnsRecord) : Decidable r.IsA := inferInstanceAs (Decidable (_ ∧ _))

/-- The address in an A record. -/
def DnsRecord.address (r : DnsRecord) : ℕ := r.rdata.foldl (fun acc b => acc * 256 + b.toNat) 0

/-- A question stands at `off`. -/
def QuestionAt (msg : List UInt8) (off : ℕ) (q : DnsQuestion) (next steps : ℕ) : Prop :=
  ∃ mid, NameAt msg off q.name.labels mid steps ∧
    be16 q.type ++ be16 q.klass <+: msg.drop mid ∧ next = mid + 4

/-- A record stands at `off`. -/
def RecordAt (msg : List UInt8) (off : ℕ) (r : DnsRecord) (next steps : ℕ) : Prop :=
  ∃ mid, NameAt msg off r.name.labels mid steps ∧
    r.fixed ++ r.rdata <+: msg.drop mid ∧ next = mid + 10 + r.rdata.length

/-- Entries stand one behind the other; with each entry are the steps of its name. -/
inductive Section {α : Type} (At : ℕ → α → ℕ → ℕ → Prop) : ℕ → List (α × ℕ) → ℕ → Prop
  | nil (off : ℕ) : Section At off [] off
  | cons {off mid next steps : ℕ} {entry : α} {entries : List (α × ℕ)}
      (hentry : At off entry mid steps) (hrest : Section At mid entries next) :
      Section At off ((entry, steps) :: entries) next

/-- The packet is a response without error to the query `id`, with these questions and answers. -/
structure DnsResponse (resp : List UInt8) (id : UInt16) (questions : List (DnsQuestion × ℕ))
    (answers : List (DnsRecord × ℕ)) : Prop where
  header : ∃ flags nscount arcount : UInt16, 2 ^ 15 ≤ flags.toNat ∧ flags.toNat % 16 = 0 ∧
    be16 id ++ (be16 flags ++ (be16 (UInt16.ofNat questions.length) ++
      (be16 (UInt16.ofNat answers.length) ++ (be16 nscount ++ be16 arcount)))) <+: resp
  counts : questions.length < 2 ^ 16 ∧ answers.length < 2 ^ 16
  sections : ∃ mid next, Section (QuestionAt resp) 12 questions mid ∧
    Section (RecordAt resp) mid answers next
  addresses : ∀ r ∈ answers, r.1.IsA → r.1.rdata.length = 4

@[simp] theorem result_byteOf (msg : List UInt8) (i : ℕ) :
    (byteOf msg i).result = some (msg.getD i 0) := rfl

variable {msg resp : List UInt8} {off n i : ℕ} {id : UInt16} {questions : List (DnsQuestion × ℕ)}

theorem getD_of_prefix {bytes : List UInt8} (h : bytes <+: msg.drop off)
    (hi : i < bytes.length) : msg.getD (off + i) 0 = bytes.getD i 0 := by
  obtain ⟨rest, hrest⟩ := h
  have hdrop : (msg.drop off)[i]? = bytes[i]? := by
    rw [← hrest, List.getElem?_append_left hi]
  rw [List.getElem?_drop] at hdrop
  rw [getD_eq_getElem?_getD, getD_eq_getElem?_getD, hdrop]

theorem le_of_prefix {bytes : List UInt8} (h : bytes <+: msg.drop off)
    (hne : bytes ≠ []) : off + bytes.length ≤ msg.length := by
  have hle := h.length_le
  have hpos := length_pos_of_ne_nil hne
  rw [length_drop] at hle
  omega

theorem shift_or {high low : ℕ} (hlow : low < 256) : high <<< 8 ||| low = high * 256 + low := by
  rw [← Nat.shiftLeft_add_eq_or_of_lt (i := 8) hlow, Nat.shiftLeft_eq]

theorem result_readBe16 (msg : List UInt8) (i : ℕ) :
    (readBe16 msg i).result =
      some ((msg.getD i 0).toNat * 256 + (msg.getD (i + 1) 0).toNat) := by
  simp [readBe16, shift_or (UInt8.toNat_lt _)]

theorem result_readBe16_of_prefix {rest : List UInt8} {v : UInt16}
    (h : be16 v ++ rest <+: msg.drop off) : (readBe16 msg off).result = some v.toNat := by
  have hhigh := getD_of_prefix (i := 0) h (by simp [be16])
  have hlow := getD_of_prefix (i := 1) h (by simp [be16])
  have hv := v.toNat_lt
  rw [result_readBe16]
  simp only [be16, cons_append, getD_cons_zero, Nat.add_zero, getD_cons_succ]
    at hhigh hlow
  rw [hhigh, hlow, UInt8.toNat_ofNat', UInt8.toNat_ofNat']
  congr 1
  omega

theorem prefix_drop_of_append {front rest : List UInt8}
    (h : front ++ rest <+: msg.drop off) : rest <+: msg.drop (off + front.length) := by
  rw [← drop_drop]
  obtain ⟨tail, htail⟩ := h
  refine ⟨tail, ?_⟩
  rw [← htail, append_assoc, drop_left]

theorem low_mask_zero (h : n ≤ 63) : n &&& 0xC0 = 0 := by
  have hall : ∀ n < 64, n &&& 0xC0 = 0 := by decide
  exact hall n (by omega)

theorem pointer_mask (h : n < 64) : (192 + n) &&& 0xC0 = 0xC0 := by
  have hall : ∀ n < 64, (192 + n) &&& 0xC0 = 0xC0 := by decide
  exact hall n h

theorem pointer_bits (h : n < 64) : (192 + n) &&& 0x3F = n := by
  have hall : ∀ n < 64, (192 + n) &&& 0x3F = n := by decide
  exact hall n h

theorem NameAt.lt {msg : List UInt8} {off next steps : ℕ} {names : List (List UInt8)}
    (h : NameAt msg off names next steps) : off < msg.length := by
  cases h with
  | root h => exact (List.getElem?_eq_some_iff.1 h).1
  | label hsize hlabel hrest =>
    have hle := le_of_prefix hlabel (cons_ne_nil _ _)
    rw [length_cons] at hle
    omega
  | pointer hptr hbound hbytes hrest =>
    have hle := le_of_prefix hbytes (cons_ne_nil _ _)
    simp only [length_cons, length_nil] at hle
    omega

theorem skipLoop_label {label : List UInt8} {pos : ℕ} (fuel off : ℕ) (jumped : Bool)
    (hsize : 1 ≤ label.length ∧ label.length ≤ 63)
    (hlabel : UInt8.ofNat label.length :: label <+: msg.drop pos) :
    (skipLoop msg (fuel + 1) pos off jumped).result = (skipLoop msg fuel (pos + 1 + label.length)
        (if jumped then off else pos + 1 + label.length) jumped).result := by
  have hle := le_of_prefix hlabel (cons_ne_nil _ _)
  rw [length_cons] at hle
  have hbyte := getD_of_prefix (i := 0) hlabel (by simp)
  rw [Nat.add_zero, getD_cons_zero] at hbyte
  have hnat : (UInt8.ofNat label.length).toNat = label.length :=
    UInt8.toNat_ofNat_of_lt' (by change label.length < 256; omega)
  have hne : UInt8.ofNat label.length ≠ 0 := by
    intro hzero
    rw [hzero] at hnat
    change 0 = label.length at hnat
    omega
  rw [skipLoop, if_neg (by omega), result_bind, result_byteOf, bind_some, hbyte,
    if_neg hne, hnat, low_mask_zero hsize.2, if_neg (by decide), if_neg (by decide),
    if_neg (by omega)]

theorem skipLoop_pointer {pos ptr : ℕ} (fuel off : ℕ) (jumped : Bool)
    (hptr : ptr < pos) (hbound : ptr < 2 ^ 14)
    (hbytes : [UInt8.ofNat (192 + ptr / 256), UInt8.ofNat (ptr % 256)] <+: msg.drop pos) :
    (skipLoop msg (fuel + 1) pos off jumped).result =
      (skipLoop msg fuel ptr (if jumped then off else pos + 2) true).result := by
  have hle := le_of_prefix hbytes (cons_ne_nil _ _)
  simp only [length_cons, length_nil] at hle
  have hhigh := getD_of_prefix (i := 0) hbytes (by simp)
  have hlow := getD_of_prefix (i := 1) hbytes (by simp)
  rw [Nat.add_zero, getD_cons_zero] at hhigh
  rw [getD_cons_succ, getD_cons_zero] at hlow
  have hquot : ptr / 256 < 64 := by omega
  have hnat : (UInt8.ofNat (192 + ptr / 256)).toNat = 192 + ptr / 256 :=
    UInt8.toNat_ofNat_of_lt' (by change 192 + ptr / 256 < 256; omega)
  have hnat' : (UInt8.ofNat (ptr % 256)).toNat = ptr % 256 :=
    UInt8.toNat_ofNat_of_lt' (by change ptr % 256 < 256; omega)
  have hne : UInt8.ofNat (192 + ptr / 256) ≠ 0 := by
    intro hzero
    rw [hzero] at hnat
    change 0 = 192 + ptr / 256 at hnat
    omega
  rw [skipLoop, if_neg (by omega), result_bind, result_byteOf, bind_some, hhigh,
    if_neg hne, hnat, pointer_mask hquot, if_pos rfl, if_neg (by omega), result_bind,
    result_byteOf, bind_some, hlow, pointer_bits hquot, hnat', shift_or (by omega),
    Nat.div_add_mod', if_neg (by omega)]

theorem skipLoop_nameAt {msg : List UInt8} {pos next steps : ℕ} {names : List (List UInt8)}
    (h : NameAt msg pos names next steps) (fuel off : ℕ) (jumped : Bool) :
    (skipLoop msg fuel pos off jumped).result =
      if steps < fuel then some (if jumped then off else next) else none := by
  induction h generalizing fuel off jumped with
  | @root pos h =>
    cases fuel with
    | zero => rfl
    | succ fuel =>
      have hlt := (List.getElem?_eq_some_iff.1 h).1
      have hbyte : msg.getD pos 0 = 0 := by
        rw [getD_eq_getElem?_getD, h]
        rfl
      rw [skipLoop, if_neg (by omega), result_bind, result_byteOf, bind_some,
        hbyte, if_pos rfl, if_pos (Nat.succ_pos _)]
      rfl
  | label hsize hlabel hrest ih =>
    cases fuel with
    | zero => rfl
    | succ fuel =>
      rw [skipLoop_label fuel off jumped hsize hlabel, ih]
      cases jumped <;> simp
  | pointer hptr hbound hbytes hrest ih =>
    cases fuel with
    | zero => rfl
    | succ fuel =>
      rw [skipLoop_pointer fuel off jumped hptr hbound hbytes, ih]
      cases jumped <;> simp

theorem skipName_nameAt {next steps : ℕ} {names : List (List UInt8)}
    (h : NameAt msg off names next steps) :
    (skipName msg off).result = if steps ≤ 31 then some next else none := by
  rw [skipName, if_neg (Nat.not_le.2 h.lt), skipLoop_nameAt h]
  simp only [Nat.lt_succ_iff]
  rfl

theorem result_questionLoop {resp : List UInt8} {off next : ℕ} {questions : List (DnsQuestion × ℕ)}
    (h : Section (QuestionAt resp) off questions next) :
    (questionLoop resp questions.length off).result =
      if ∀ q ∈ questions, q.2 ≤ 31 then some next else none := by
  induction h with
  | nil off => simp [questionLoop]
  | @cons off mid next steps q questions hentry hrest ih =>
    obtain ⟨stop, hname, hfields, rfl⟩ := hentry
    have hle := le_of_prefix hfields (by simp [be16])
    simp only [be16, length_append, length_cons, length_nil] at hle
    rw [length_cons, questionLoop, result_bind, skipName_nameAt hname]
    by_cases hsteps : steps ≤ 31
    · rw [if_pos hsteps, bind_some, if_neg (by omega), ih]
      simp only [forall_mem_cons, hsteps, true_and]
    · rw [if_neg hsteps, bind_none, if_neg]
      intro hall
      exact hsteps (hall _ mem_cons_self)

theorem length_be16 (v : UInt16) : (be16 v).length = 2 := rfl

theorem DnsRecord.length_fixed (r : DnsRecord) : r.fixed.length = 10 := rfl

theorem shift_or_four {a b c d : ℕ} (hb : b < 256) (hc : c < 256) (hd : d < 256) :
    a <<< 24 ||| b <<< 16 ||| c <<< 8 ||| d = ((a * 256 + b) * 256 + c) * 256 + d := by
  have hlow : c <<< 8 ||| d < 2 ^ 16 := by
    rw [shift_or hd]
    omega
  have hmid : b <<< 16 ||| (c <<< 8 ||| d) < 2 ^ 24 := by
    rw [← Nat.shiftLeft_add_eq_or_of_lt hlow, Nat.shiftLeft_eq, shift_or hd]
    omega
  rw [Nat.or_assoc, Nat.or_assoc, ← Nat.shiftLeft_add_eq_or_of_lt hmid,
    ← Nat.shiftLeft_add_eq_or_of_lt hlow, shift_or hd, Nat.shiftLeft_eq, Nat.shiftLeft_eq]
  omega

theorem DnsRecord.address_of_four (r : DnsRecord) (h : r.rdata.length = 4) :
    r.address = (r.rdata.getD 0 0).toNat <<< 24 ||| (r.rdata.getD 1 0).toNat <<< 16 |||
      (r.rdata.getD 2 0).toNat <<< 8 ||| (r.rdata.getD 3 0).toNat := by
  rw [shift_or_four (UInt8.toNat_lt _) (UInt8.toNat_lt _) (UInt8.toNat_lt _), DnsRecord.address]
  match r.rdata, h with
  | [a, b, c, d], _ => simp

theorem result_answerLoop_succ {next steps : ℕ} {r : DnsRecord}
    (h : RecordAt resp off r next steps) (count : ℕ) : (answerLoop resp (count + 1) off).result =
      if steps ≤ 31 then
        if r.IsA ∧ r.rdata.length = 4 then some r.address else (answerLoop resp count next).result
      else none := by
  obtain ⟨mid, hname, hfields, rfl⟩ := h
  rw [answerLoop, result_bind, skipName_nameAt hname]
  by_cases hsteps : steps ≤ 31
  · have hle := le_of_prefix hfields (by simp [DnsRecord.fixed, be16])
    rw [length_append, r.length_fixed] at hle
    have hdata := prefix_drop_of_append hfields
    rw [r.length_fixed] at hdata
    simp only [DnsRecord.fixed, append_assoc] at hfields
    have htype := result_readBe16_of_prefix hfields
    have hfields' := prefix_drop_of_append hfields
    have hklass := result_readBe16_of_prefix hfields'
    have hfields := prefix_drop_of_append (prefix_drop_of_append (prefix_drop_of_append hfields'))
    have hlength := result_readBe16_of_prefix hfields
    simp only [length_be16, Nat.add_assoc] at hklass hlength
    rw [UInt16.toNat_ofNat_of_lt' (by exact r.fits)] at hlength
    rw [if_pos hsteps, bind_some, if_neg (by omega), if_pos hsteps, result_bind,
      htype, bind_some, result_bind, hklass, bind_some, result_bind,
      hlength, bind_some]
    rw [if_neg (by omega)]
    have hcond : (r.type.toNat = 1 ∧ r.klass.toNat = 1 ∧ r.rdata.length = 4) ↔
        (r.IsA ∧ r.rdata.length = 4) := by
      rw [DnsRecord.IsA, and_assoc, ← UInt16.toNat_inj, ← UInt16.toNat_inj]
      rfl
    by_cases hA : r.IsA ∧ r.rdata.length = 4
    · rw [if_pos (hcond.2 hA), if_pos hA, r.address_of_four hA.2]
      have hget : ∀ i < 4, resp.getD (mid + 10 + i) 0 = r.rdata.getD i 0 := by
        intro i hi
        exact getD_of_prefix hdata (by omega)
      simp only [result_bind, result_byteOf, bind_some, Probe.result_pure]
      rw [← hget 0 (by decide), ← hget 1 (by decide), ← hget 2 (by decide), ← hget 3 (by decide)]
    · rw [if_neg (fun h => hA (hcond.1 h)), if_neg hA]
  · rw [if_neg hsteps, if_neg hsteps, bind_none]

theorem result_answerLoop {resp : List UInt8} {off next k : ℕ} {r : DnsRecord}
    {before after : List (DnsRecord × ℕ)}
    (h : Section (RecordAt resp) off (before ++ (r, k) :: after) next)
    (hbefore : ∀ a ∈ before, ¬ a.1.IsA) (hA : r.IsA) (hdata : r.rdata.length = 4) :
    (answerLoop resp (before ++ (r, k) :: after).length off).result =
      if ∀ a ∈ before ++ [(r, k)], a.2 ≤ 31 then some r.address else none := by
  induction before generalizing off with
  | nil =>
    cases h with
    | cons hentry hrest =>
      have hfirst : r.IsA ∧ r.rdata.length = 4 := ⟨hA, hdata⟩
      rw [nil_append, length_cons, result_answerLoop_succ hentry, if_pos hfirst]
      simp
  | cons a before ih =>
    cases h with
    | @cons off mid next steps a _ hentry hrest =>
      have hnot := not_and_of_not_left (a.rdata.length = 4) (hbefore _ mem_cons_self)
      have hrun := ih hrest fun b hb => hbefore b (mem_cons_of_mem _ hb)
      rw [cons_append, length_cons, result_answerLoop_succ hentry, if_neg hnot, hrun]
      simp only [cons_append, forall_mem_cons]
      by_cases hsteps : steps ≤ 31
      · simp only [hsteps, true_and, if_true]
      · simp only [hsteps, false_and, if_false]

/-! ## Bytes that are read and written -/

open Probe (within_pure within_fail within_touch)

theorem within_byteOf (h : i < msg.length) : (byteOf msg i).Within (· < msg.length) := by
  apply within_touch
  intro j hj
  rwa [mem_singleton.1 hj]

theorem within_readBe16 (h : i + 1 < msg.length) : (readBe16 msg i).Within (· < msg.length) := by
  apply (within_byteOf (Nat.lt_of_succ_lt h)).bind
  intro high _
  apply (within_byteOf h).bind
  intro low _
  exact within_pure _

theorem within_skipLoop (msg : List UInt8) (fuel pos off : ℕ) (jumped : Bool) :
    (skipLoop msg fuel pos off jumped).Within (· < msg.length) := by
  induction fuel generalizing pos off jumped with
  | zero => exact within_fail
  | succ fuel ih =>
    rw [skipLoop]
    refine Within.ite (fun _ => within_fail) ?_
    intro hpos
    apply (within_byteOf (Nat.lt_of_not_le hpos)).bind
    intro len _
    refine Within.ite (fun _ => within_pure _) ?_
    intro _
    apply Within.ite
    · intro _
      refine Within.ite (fun _ => within_fail) ?_
      intro hnext
      apply (within_byteOf (Nat.lt_of_not_le hnext)).bind
      intro low _
      exact Within.ite (fun _ => within_fail) fun _ => ih _ _ _
    · intro _
      refine Within.ite (fun _ => within_fail) ?_
      intro _
      exact Within.ite (fun _ => within_fail) fun _ => ih _ _ _

theorem within_skipName (msg : List UInt8) (off : ℕ) :
    (skipName msg off).Within (· < msg.length) :=
  Within.ite (fun _ => within_fail) fun _ => within_skipLoop msg 32 off off false

theorem within_questionLoop (resp : List UInt8) (count off : ℕ) :
    (questionLoop resp count off).Within (· < resp.length) := by
  induction count generalizing off with
  | zero => exact within_pure _
  | succ count ih =>
    apply (within_skipName resp off).bind
    intro next _
    exact Within.ite (fun _ => within_fail) fun _ => ih _

theorem within_answerLoop (resp : List UInt8) (count off : ℕ) :
    (answerLoop resp count off).Within (· < resp.length) := by
  induction count generalizing off with
  | zero => exact within_fail
  | succ count ih =>
    apply (within_skipName resp off).bind
    intro next _
    refine Within.ite (fun _ => within_fail) ?_
    intro hfixed
    apply (within_readBe16 (by omega)).bind
    intro type _
    apply (within_readBe16 (by omega)).bind
    intro klass _
    apply (within_readBe16 (by omega)).bind
    intro rdlen _
    refine Within.ite (fun _ => within_fail) ?_
    intro hdata
    apply Within.ite
    · intro hA
      apply (within_byteOf (by omega)).bind
      intro a _
      apply (within_byteOf (by omega)).bind
      intro b _
      apply (within_byteOf (by omega)).bind
      intro c _
      apply (within_byteOf (by omega)).bind
      intro d _
      exact within_pure _
    · intro _
      exact ih _

theorem within_parseFirstA (resp : List UInt8) (expectedId : ℕ) :
    (parseFirstA resp expectedId).Within (· < resp.length) := by
  refine Within.ite (fun _ => within_fail) ?_
  intro hlen
  apply (within_readBe16 (by omega)).bind
  intro id _
  refine Within.ite (fun _ => within_fail) ?_
  intro _
  apply (within_readBe16 (by omega)).bind
  intro flags _
  apply (within_readBe16 (by omega)).bind
  intro qdcount _
  apply (within_readBe16 (by omega)).bind
  intro ancount _
  refine Within.ite (fun _ => within_fail) ?_
  intro _
  refine Within.ite (fun _ => within_fail) ?_
  intro _
  exact (within_questionLoop resp _ _).bind fun _ _ => within_answerLoop resp _ _

theorem within_encodeLoop (host : List UInt8) (outCap : ℕ) (rest : List (List UInt8)) (p : ℕ)
    (out : List UInt8) (hout : out.length < outCap) (hp : p ≤ host.length)
    (hrest : p + (rest.map fun label => label.length + 1).sum ≤ host.length + 1) :
    (encodeLoop host outCap rest p out).Within (QnamePlace.Inside host.length outCap) := by
  induction rest generalizing p out with
  | nil =>
    apply within_touch
    simp only [forall_mem_cons]
    exact ⟨hp, hout, by simp⟩
  | cons label rest ih =>
    rw [map_cons, sum_cons] at hrest
    apply Within.bind
    · apply within_touch
      intro place hplace
      obtain ⟨i, hi, rfl⟩ := mem_map.1 hplace
      have hrange := (mem_range'_1.1 hi).2
      change i ≤ host.length
      omega
    intro _ _
    refine Within.ite (fun _ => within_fail) ?_
    intro hsize
    refine Within.ite (fun _ => within_fail) ?_
    intro hcap
    apply Within.bind
    · apply within_touch
      rw [forall_mem_cons]
      refine ⟨hout, ?_⟩
      intro place hplace
      obtain ⟨i, hi, hplace⟩ := mem_flatMap.1 hplace
      have hrange := mem_range.1 hi
      simp only [mem_cons, not_mem_nil, or_false] at hplace
      cases hplace with
      | inl h =>
        rw [h]
        change p + i ≤ host.length
        omega
      | inr h =>
        rw [h]
        change out.length + 1 + i < outCap
        omega
    intro _ _
    apply Within.bind
    · apply within_touch
      intro place hplace
      rw [mem_singleton.1 hplace]
      change p + label.length ≤ host.length
      omega
    intro _ _
    apply ih
    · rw [length_append, length_cons]
      omega
    · split
      case isTrue hdot =>
        have hlt := (List.getElem?_eq_some_iff.1 hdot).1
        omega
      case isFalse => omega
    · split <;> omega

theorem sum_labels_le (host : List UInt8) :
    ((labels host).map fun label => label.length + 1).sum ≤ host.length + 1 := by
  rw [← Split.sum_length_splitOn 46 host]
  unfold labels
  dsimp only
  split
  case isTrue hlast =>
    have hsplit := dropLast_append_getLast? _ hlast
    conv_rhs => rw [← hsplit]
    simp
  case isFalse => exact le_rfl

theorem within_encodeQname (host : List UInt8) (outCap : ℕ) :
    (encodeQname host outCap).Within (QnamePlace.Inside host.length outCap) := by
  refine Within.ite (fun _ => within_fail) ?_
  intro hcap
  apply Within.bind
  · apply within_touch
    intro place hplace
    rw [mem_singleton.1 hplace]
    exact Nat.zero_le _
  intro _ _
  refine Within.ite (fun _ => within_fail) ?_
  intro _
  apply within_encodeLoop
  · change 0 < outCap
    omega
  · exact Nat.zero_le _
  · rw [Nat.zero_add]
    exact sum_labels_le host

def nameWire (labels : List (List UInt8)) : List UInt8 :=
  (labels.flatMap fun label => UInt8.ofNat label.length :: label) ++ [0]

theorem result_encodeLoop (host : List UInt8) (outCap : ℕ) (rest : List (List UInt8)) (p : ℕ)
    (out : List UInt8) :
    (encodeLoop host outCap rest p out).result =
      (rest.foldlM (fun out label =>
        if label.length = 0 ∨ label.length > 63 then none
        else if out.length + 1 + label.length + 1 > outCap then none
        else some (out ++ UInt8.ofNat label.length :: label)) out).map (· ++ [0]) := by
  induction rest generalizing p out with
  | nil => rfl
  | cons label rest ih =>
    rw [encodeLoop, result_bind, foldlM_cons, result_touch, bind_some]
    split
    · rfl
    · split
      · rfl
      · simp only [result_bind, result_touch, bind_some, ih]
        rfl

theorem result_encodeQname (host : List UInt8) :
    (encodeQname host (dnsPacketMax - 12)).result = dnsEncodeQname host := by
  rw [encodeQname, if_neg (by decide), result_bind, result_touch, bind_some,
    dnsEncodeQname]
  split
  · rfl
  · exact result_encodeLoop host _ _ _ _

theorem foldlM_labels {outCap : ℕ} {rest : List (List UInt8)} {out sent : List UInt8}
    (h : rest.foldlM (fun out label =>
      if label.length = 0 ∨ label.length > 63 then none
      else if out.length + 1 + label.length + 1 > outCap then none
      else some (out ++ UInt8.ofNat label.length :: label)) out = some sent) :
    sent = out ++ rest.flatMap (fun label => UInt8.ofNat label.length :: label) ∧
      ∀ label ∈ rest, 1 ≤ label.length ∧ label.length ≤ 63 := by
  induction rest generalizing out with
  | nil =>
    cases h
    simp
  | cons label rest ih =>
    rw [foldlM_cons] at h
    split at h
    case isTrue => cases h
    case isFalse hsize =>
      split at h
      case isTrue => cases h
      case isFalse =>
        have hrest := ih h
        rw [forall_mem_cons]
        refine ⟨?_, by omega, hrest.2⟩
        rw [hrest.1, flatMap_cons, append_assoc]

/-- The labels of the host are sent, and each of them is one. -/
theorem dnsEncodeQname_eq {host sent : List UInt8} (h : dnsEncodeQname host = some sent) :
    sent = nameWire (labels host) ∧
      ∀ label ∈ labels host, 1 ≤ label.length ∧ label.length ≤ 63 := by
  rw [dnsEncodeQname] at h
  split at h
  · cases h
  · obtain ⟨out, hfold, rfl⟩ := map_eq_some_iff.1 h
    have hlabels := foldlM_labels hfold
    rw [hlabels.1, nil_append]
    exact ⟨rfl, hlabels.2⟩

theorem nameAt_nameWire {msg rest : List UInt8} {off : ℕ} {names : List (List UInt8)}
    (hsizes : ∀ label ∈ names, 1 ≤ label.length ∧ label.length ≤ 63)
    (h : nameWire names ++ rest <+: msg.drop off) :
    NameAt msg off names (off + (nameWire names).length) names.length := by
  induction names generalizing off with
  | nil =>
    apply NameAt.root
    obtain ⟨tail, htail⟩ := h
    have hget : (msg.drop off)[0]? = some 0 := by
      rw [← htail]
      rfl
    rwa [List.getElem?_drop] at hget
  | cons label names ih =>
    have hcons : nameWire (label :: names) =
        (UInt8.ofNat label.length :: label) ++ nameWire names := by
      simp [nameWire]
    rw [hcons, append_assoc] at h
    have hrest := ih (fun l hl => hsizes l (mem_cons_of_mem _ hl)) (prefix_drop_of_append h)
    rw [length_cons, ← Nat.add_assoc, Nat.add_right_comm] at hrest
    have hlabel := NameAt.label (hsizes label mem_cons_self)
      ((prefix_append _ _).trans h) hrest
    rw [hcons, length_append, length_cons, length_cons]
    convert hlabel using 1
    omega

theorem flags_response {flags : UInt16} (h : 2 ^ 15 ≤ flags.toNat) :
    flags.toNat &&& 0x8000 ≠ 0 := by
  have hbit : flags.toNat.testBit 15 = true :=
    Nat.testBit_of_two_pow_le_and_two_pow_add_one_gt h flags.toNat_lt
  intro hzero
  have hand : (flags.toNat &&& 0x8000).testBit 15 = true := by
    rw [Nat.testBit_and, hbit]
    decide
  rw [hzero] at hand
  cases hand

theorem flags_no_error {flags : UInt16} (h : flags.toNat % 16 = 0) :
    flags.toNat &&& 0x000F = 0 := by
  rw [show (0x000F : ℕ) = 2 ^ 4 - 1 from rfl, Nat.and_two_pow_sub_one_eq_mod]
  exact h

theorem result_parseFirstA {answers : List (DnsRecord × ℕ)}
    (h : DnsResponse resp id questions answers) : (parseFirstA resp id.toNat).result =
      (questionLoop resp questions.length 12).result.bind fun off =>
        (answerLoop resp answers.length off).result := by
  obtain ⟨flags, nscount, arcount, hflags, herror, hheader⟩ := h.header
  rw [← drop_zero (l := resp)] at hheader
  have hle := le_of_prefix hheader (by simp [be16])
  simp only [be16, length_append, length_cons, length_nil] at hle
  have hid := result_readBe16_of_prefix hheader
  have hheader := prefix_drop_of_append hheader
  have hflagsRead := result_readBe16_of_prefix hheader
  have hheader := prefix_drop_of_append hheader
  have hqdcount := result_readBe16_of_prefix hheader
  have hheader := prefix_drop_of_append hheader
  have hancount := result_readBe16_of_prefix hheader
  simp only [length_be16, Nat.zero_add, Nat.reduceAdd] at hflagsRead hqdcount hancount
  rw [UInt16.toNat_ofNat_of_lt' h.counts.1] at hqdcount
  rw [UInt16.toNat_ofNat_of_lt' h.counts.2] at hancount
  rw [parseFirstA, if_neg (by omega), result_bind, hid, bind_some,
    if_neg (not_not_intro rfl), result_bind, hflagsRead, bind_some, result_bind,
    hqdcount, bind_some, result_bind, hancount, bind_some,
    if_neg (flags_response hflags), if_neg (not_not_intro (flags_no_error herror)),
    result_bind]

theorem result_parseFirstA_first {k : ℕ} {r : DnsRecord} {before after : List (DnsRecord × ℕ)}
    (h : DnsResponse resp id questions (before ++ (r, k) :: after))
    (hbefore : ∀ a ∈ before, ¬ a.1.IsA) (hA : r.IsA) : (parseFirstA resp id.toNat).result =
      if (∀ q ∈ questions, q.2 ≤ 31) ∧ ∀ a ∈ before ++ [(r, k)], a.2 ≤ 31 then some r.address
      else none := by
  obtain ⟨mid, next, hquestions, hanswers⟩ := h.sections
  have hdata : r.rdata.length = 4 :=
    h.addresses (r, k) (mem_append_right _ mem_cons_self) hA
  rw [result_parseFirstA h, result_questionLoop hquestions]
  by_cases hfirst : ∀ q ∈ questions, q.2 ≤ 31
  · rw [if_pos hfirst, bind_some, result_answerLoop hanswers hbefore hA hdata]
    simp only [and_iff_right hfirst]
  · rw [if_neg hfirst, bind_none, if_neg fun hall => hfirst hall.1]

def addressRecord (name : DnsName) (a b c d : UInt8) : DnsRecord where
  name := name
  type := 1
  klass := 1
  ttl := (0, 60)
  rdata := [a, b, c, d]
  fits := by
    change 4 < 2 ^ 16
    decide

/-- The question, and one answer to it that points to the name in the question. -/
def reply (id : UInt16) (name : DnsName) (r : DnsRecord) : List UInt8 :=
  (be16 id ++ (be16 0x8180 ++ (be16 1 ++ (be16 1 ++ (be16 0 ++ be16 0))))) ++
    (nameWire name.labels ++ ((be16 1 ++ be16 1) ++ ([192, 12] ++ (r.fixed ++ r.rdata))))

theorem response_reply (id : UInt16) (name : DnsName) (a b c d : UInt8) :
    DnsResponse (reply id name (addressRecord name a b c d)) id
      [(⟨name, 1, 1⟩, name.labels.length)]
      ([] ++ (addressRecord name a b c d, name.labels.length + 1) :: []) := by
  have hall : reply id name (addressRecord name a b c d) <+:
      (reply id name (addressRecord name a b c d)).drop 0 := prefix_rfl
  have hquestion := prefix_drop_of_append hall
  have hname := nameAt_nameWire name.sizes hquestion
  have hfields := prefix_drop_of_append hquestion
  have hanswer := prefix_drop_of_append hfields
  have hdata := prefix_drop_of_append hanswer
  constructor
  · refine ⟨0x8180, 0, 0, by decide, by decide, ?_⟩
    exact prefix_append _ _
  · change 1 < 2 ^ 16 ∧ 1 < 2 ^ 16
    decide
  · refine ⟨_, _, Section.cons ⟨_, hname, (prefix_append _ _).trans hfields, rfl⟩
      (Section.nil _), Section.cons ⟨_, ?_, hdata, rfl⟩ (Section.nil _)⟩
    have hpointer := (prefix_append [192, 12] _).trans hanswer
    refine @NameAt.pointer _ _ _ _ 12 _ ?_ (by decide) hpointer hname
    simp only [length_append, length_be16]
    omega
  · intro r hr _
    rw [mem_singleton.1 hr]
    rfl

theorem result_reply (id : UInt16) (name : DnsName) (a b c d : UInt8) :
    (parseFirstA (reply id name (addressRecord name a b c d)) id.toNat).result =
      if name.labels.length ≤ 30 then some (addressRecord name a b c d).address else none := by
  rw [result_parseFirstA_first (response_reply id name a b c d) (by simp) ⟨rfl, rfl⟩]
  simp only [nil_append, mem_singleton, forall_eq]
  by_cases hlen : name.labels.length ≤ 30
  · rw [if_pos hlen, if_pos (by omega)]
  · rw [if_neg hlen, if_neg (by omega)]

/-- A name that is encoded, and that a packet can have, stands in the question as it was sent; and
from a reply that points to it the address is taken just if it has no more than 30 labels. -/
theorem reply_to_encoded {host sent : List UInt8}
    (h : (encodeQname host (dnsPacketMax - 12)).result = some sent) (hfits : sent.length ≤ 255) :
    ∃ name : DnsName, name.labels = labels host ∧ sent = nameWire name.labels ∧
      ∀ (id : UInt16) (a b c d : UInt8),
        (parseFirstA (reply id name (addressRecord name a b c d)) id.toNat).result =
          if (labels host).length ≤ 30 then some (addressRecord name a b c d).address
          else none := by
  rw [result_encodeQname] at h
  obtain ⟨rfl, hsizes⟩ := dnsEncodeQname_eq h
  have hlen : ((labels host).map fun label => label.length + 1).sum + 1 ≤ 255 := by
    simpa [nameWire, length_flatMap] using hfits
  exact ⟨⟨labels host, hsizes, hlen⟩, rfl, rfl, fun id a b c d => result_reply id _ a b c d⟩

/-- The name `a.b`. -/
theorem reply_to_two_labels : ∃ name : DnsName, name.labels = [[97], [98]] ∧
    (parseFirstA (reply 7 name (addressRecord name 10 0 2 2)) 7).result = some 167772674 := by
  obtain ⟨name, hlabels, -, hreply⟩ := @reply_to_encoded [97, 46, 98] [1, 97, 1, 98, 0] (by decide)
    (by decide)
  have hhost : labels [97, 46, 98] = [[97], [98]] := by decide
  exact ⟨name, hlabels.trans hhost, (hreply 7 10 0 2 2).trans (by rw [hhost]; rfl)⟩

/-- All bytes that are read and written are inside. The address of the first A record is returned
exactly when the names of the questions, and those of the answers up to the record, take at most
31 labels and pointers each. -/
theorem parse_first_a_iff (resp : List UInt8) :
    (∀ host outCap, (encodeQname host outCap).Within (QnamePlace.Inside host.length outCap)) ∧
      (∀ off, (skipName resp off).Within (· < resp.length)) ∧
      (∀ id, (parseFirstA resp id).Within (· < resp.length)) ∧
      ∀ (id : UInt16) (questions : List (DnsQuestion × ℕ))
        (before after : List (DnsRecord × ℕ)) (r : DnsRecord) (k : ℕ),
        DnsResponse resp id questions (before ++ (r, k) :: after) →
        (∀ a ∈ before, ¬ a.1.IsA) → r.IsA →
        ((parseFirstA resp id.toNat).result = some r.address ↔
          (∀ q ∈ questions, q.2 ≤ 31) ∧ ∀ a ∈ before ++ [(r, k)], a.2 ≤ 31) := by
  refine ⟨within_encodeQname, within_skipName resp, within_parseFirstA resp, ?_⟩
  intro id questions before after r k h hbefore hA
  rw [result_parseFirstA_first h hbefore hA]
  constructor
  · intro hsome
    by_contra hlong
    rw [if_neg hlong] at hsome
    cases hsome
  · intro hshort
    rw [if_pos hshort]

/-- The name `a`. -/
def shortName : DnsName := ⟨[[97]], by decide, by decide⟩

theorem parse_first_a_short :
    (parseFirstA (reply 7 shortName (addressRecord shortName 10 0 2 2)) 7).result =
      some 167772674 :=
  ((parse_first_a_iff _).2.2.2 7 _ [] [] _ _ (response_reply 7 shortName 10 0 2 2) (by simp)
    ⟨rfl, rfl⟩).2 (by decide)

def longName : DnsName := ⟨List.replicate 32 [97], by decide, by decide⟩

/-- The name is sent, and the reply to it is not understood. -/
theorem long_name_not_parsed :
    dnsEncodeQname (List.intercalate [46] longName.labels) = some (nameWire longName.labels) ∧
      ¬ ∀ (resp : List UInt8) (id : UInt16) (questions : List (DnsQuestion × ℕ))
        (before after : List (DnsRecord × ℕ)) (r : DnsRecord) (k : ℕ),
        DnsResponse resp id questions (before ++ (r, k) :: after) →
        (∀ a ∈ before, ¬ a.1.IsA) → r.IsA →
        (parseFirstA resp id.toNat).result = some r.address := by
  constructor
  · decide +kernel
  · intro hall
    have hreply := hall _ _ _ _ _ _ _ (response_reply 7 longName 10 0 2 2) (by simp) ⟨rfl, rfl⟩
    rw [result_reply, if_neg (by decide)] at hreply
    cases hreply

end Cleonos.Browser
