import Cleonos.Httpd.Model

/-!
# What the server opens and sends

Only paths below the root are opened, whatever the request; and a response that is sent in full
is framed by its header, with the content of the file as its body if it is one.
-/

namespace Cleonos.Httpd

open List Option
open Attempt Kernel LexicalPath
open Libc (decimal digit_of_mem_decimal length_decimal_le)

variable {kernel : System} {root path s h buf data body urlPath reason fd : List UInt8}
  {tl : List (List UInt8)} {w w' : World} {size fuel reads code : ℕ}

/-! ## Paths -/

theorem safePathLoop_dotdot (hsafe : safePathLoop s = true) : [dot, dot] ∉ s.splitOn slash := by
  induction s with
  | nil => simp
  | cons c s ih =>
    rw [safePathLoop] at hsafe
    split at hsafe
    · exact absurd hsafe (by simp)
    · split at hsafe
      · exact absurd hsafe (by simp)
      · rename_i hdots
        have ih := ih hsafe
        by_cases hc : c = slash
        · subst hc
          rw [splitOn_slash_cons]
          simpa using ih
        · obtain ⟨h, tl, hs⟩ := exists_cons_of_ne_nil (splitOn_ne_nil slash s)
          rw [splitOn_cons_of_ne hc hs]
          rw [hs, mem_cons, not_or] at ih
          rw [mem_cons, not_or]
          refine ⟨?_, ih.2⟩
          intro he
          rw [List.cons.injEq] at he
          apply hdots
          refine ⟨he.1.symm, ?_⟩
          -- the rest begins with the second dot
          cases s with
          | nil =>
            rw [splitOn_nil] at hs
            cases hs
            exact absurd he.2 (by simp)
          | cons d s =>
            by_cases hd : d = slash
            · subst hd
              rw [splitOn_slash_cons] at hs
              cases hs
              exact absurd he.2 (by simp)
            · obtain ⟨h', tl', hs'⟩ := exists_cons_of_ne_nil (splitOn_ne_nil slash s)
              rw [splitOn_cons_of_ne hd hs'] at hs
              cases hs
              rw [List.cons.injEq] at he
              exact he.2.1.symm

theorem safePath_eq_true (hsafe : safePath path = true) :
    path.head? = some slash ∧ [dot, dot] ∉ components path := by
  rw [safePath] at hsafe
  split at hsafe
  · exact absurd hsafe (by simp)
  · rename_i hhead
    rw [not_not] at hhead
    refine ⟨?_, ?_⟩
    · cases path with
      | nil => exact absurd hhead (by decide)
      | cons c s => simpa using hhead
    · rw [mem_components_iff (by simp)]
      exact safePathLoop_dotdot hsafe

theorem buildFilePath_eq_some (hbuild : buildFilePath size root urlPath = some path) :
    normalise (components root) <+: normalise (components path) := by
  have hbelow : ∀ suffix : List UInt8, suffix.head? = some slash →
      [dot, dot] ∉ components suffix →
        normalise (components root) <+: normalise (components (root ++ suffix)) := by
    intro suffix hhead hdots
    obtain ⟨rest, rfl⟩ := List.head?_eq_some_iff.1 hhead
    rw [components_slash_cons] at hdots
    rw [components_append_slash, normalise_append_of_no_dotdot hdots]
    exact prefix_append _ _
  rw [buildFilePath] at hbuild
  split at hbuild
  · exact absurd hbuild (by simp)
  · split at hbuild
    · exact absurd hbuild (by simp)
    · rename_i hsafe
      rw [Bool.not_eq_false] at hsafe
      dsimp only at hbuild
      generalize hsuffix : (if urlPath = [slash] then lit "/index.html" else urlPath) = suffix
        at hbuild
      split at hbuild
      · rw [Option.some.injEq] at hbuild
        rw [← hbuild, ← hsuffix]
        split
        · exact hbelow _ (by decide) (by decide)
        · exact hbelow _ (safePath_eq_true hsafe).1 (safePath_eq_true hsafe).2
      · exact absurd hbuild (by simp)

/-- The paths that are opened meanwhile lie below the root. -/
def Opens (root : List UInt8) (w w' : World) : Prop :=
  ∃ paths, w'.opened = w.opened ++ paths ∧
    ∀ path ∈ paths, normalise (components root) <+: normalise (components path)

instance (root : List UInt8) : IsPreorder World (Opens root) where
  refl w := ⟨[], by simp, by simp⟩
  trans w w' w'' := by
    rintro ⟨paths, hw, hpaths⟩ ⟨paths', hw', hpaths'⟩
    refine ⟨paths ++ paths', by rw [hw', hw, List.append_assoc], ?_⟩
    intro path hpath
    rcases List.mem_append.1 hpath with hm | hm
    · exact hpaths path hm
    · exact hpaths' path hm

theorem opens_of_eq (h : w'.opened = w.opened) : Opens root w w' :=
  ⟨[], by rw [h, append_nil], by simp⟩

theorem sendAll_cons {b : UInt8} : sendAll kernel (fuel + 1) (b :: data) w =
    if (tcpSend kernel (b :: data) w).1 = 0 then (false, (tcpSend kernel (b :: data) w).2)
    else sendAll kernel fuel ((b :: data).drop (tcpSend kernel (b :: data) w).1)
      (tcpSend kernel (b :: data) w).2 := rfl

theorem opened_sendAll : (sendAll kernel fuel data w).2.opened = w.opened := by
  induction fuel generalizing data w with
  | zero => cases data <;> rfl
  | succ fuel ih =>
    cases data with
    | nil => rfl
    | cons b data =>
      rw [sendAll_cons]
      split
      · rfl
      · exact ih

theorem keeps_sendAll : Keeps (Opens root) (sendAll kernel fuel data) :=
  fun _ => opens_of_eq opened_sendAll

theorem keeps_sendTextResponse :
    Keeps (Opens root) (sendTextResponse kernel code reason body) := by
  rw [sendTextResponse]
  exact keeps_ite (fun _ => keeps_check) fun _ =>
    keeps_sendAll.andThen (keeps_ite (fun _ => keeps_sendAll) fun _ => keeps_succeed)

theorem opened_fdRead : (fdRead kernel fd size w).2.opened = w.opened := by
  rw [fdRead]
  split <;> rfl

theorem keeps_fileLoop : Keeps (Opens root) (fileLoop kernel fd reads) := by
  induction reads with
  | zero => exact keeps_check
  | succ reads ih =>
    intro w
    have hread : Opens root w (fdRead kernel fd fileChunk w).2 := opens_of_eq opened_fdRead
    rw [fileLoop]
    dsimp only
    split
    · rename_i w' hfd
      rw [hfd] at hread
      exact hread
    · rename_i got w' hfd
      rw [hfd] at hread
      split
      · exact hread
      · exact trans_of (Opens root) hread (keeps_sendAll.andThen ih w')

theorem opened_fdOpen : (fdOpen kernel path w).2.opened = w.opened ++ [path] := by
  rw [fdOpen]
  split <;> rfl

theorem keeps_sendFile (hpath : normalise (components root) <+: normalise (components path)) :
    Keeps (Opens root) (sendFile kernel reads path) := by
  intro w
  have hopen : Opens root w (fdOpen kernel path w).2 := ⟨[path], opened_fdOpen, by simpa using hpath⟩
  rw [sendFile]
  dsimp only
  split
  · exact keeps_sendTextResponse w
  · split
    · rename_i w' hfd
      rw [hfd] at hopen
      exact trans_of (Opens root) hopen (keeps_sendTextResponse w')
    · rename_i fd w' hfd
      rw [hfd] at hopen
      split
      · exact hopen
      · exact trans_of (Opens root) hopen (keeps_sendAll.andThen keeps_fileLoop w')

theorem opened_recvLoop : (recvLoop kernel fuel buf w).2.opened = w.opened := by
  induction fuel generalizing buf w with
  | zero => rfl
  | succ fuel ih =>
    rw [recvLoop]
    split
    · rfl
    · dsimp only
      split
      · rfl
      · split
        · rfl
        · exact ih

theorem keeps_handleClient : Keeps (Opens root) (handleClient kernel reads root) := by
  intro w
  have hrecv : Opens root w (recvLoop kernel (reqMax + 1) [] w).2 := opens_of_eq opened_recvLoop
  rw [handleClient]
  split
  · rename_i w' hloop
    rw [hloop] at hrecv
    exact trans_of (Opens root) hrecv (keeps_sendTextResponse w')
  · rename_i buf w' hloop
    rw [hloop] at hrecv
    split
    · exact hrecv
    · split
      · exact trans_of (Opens root) hrecv (keeps_sendTextResponse w')
      · split
        · exact trans_of (Opens root) hrecv (keeps_sendTextResponse w')
        · rename_i filePath hbuild
          exact trans_of (Opens root) hrecv (keeps_sendFile (buildFilePath_eq_some hbuild) w')

theorem sendAll_eq_true (hsend : sendAll kernel fuel data w = (true, w')) :
    w'.sent = w.sent ++ data ∧ w'.offset = w.offset := by
  induction fuel generalizing data w with
  | zero =>
    cases data with
    | nil =>
      cases hsend
      exact ⟨(append_nil _).symm, rfl⟩
    | cons b data => exact absurd (congrArg Prod.fst hsend) (by simp [sendAll, check])
  | succ fuel ih =>
    cases data with
    | nil =>
      cases hsend
      exact ⟨(append_nil _).symm, rfl⟩
    | cons b data =>
      rw [sendAll_cons] at hsend
      split at hsend
      · exact absurd (congrArg Prod.fst hsend) (by simp)
      · obtain ⟨hsent, hoffset⟩ := ih hsend
        refine ⟨?_, hoffset⟩
        rw [hsent]
        dsimp only [tcpSend]
        rw [append_assoc, take_append_drop]

theorem sendTextResponse_eq_true
    (hsend : sendTextResponse kernel code reason body w = (true, w')) :
    w'.sent = w.sent ++ (textHeader code reason body ++ body) := by
  rw [sendTextResponse] at hsend
  split at hsend
  · exact absurd (congrArg Prod.fst hsend) (by simp [check])
  · obtain ⟨mid, hhead, hbody⟩ := andThen_eq_true.1 hsend
    have hmid := (sendAll_eq_true hhead).1
    rw [← append_assoc, ← hmid]
    split at hbody
    · exact (sendAll_eq_true hbody).1
    · rename_i hempty
      have hnil : body = [] := by simpa using hempty
      rw [succeed_eq_true.1 hbody, hnil, append_nil]

theorem fileLoop_eq_true (hnode : nodeAt kernel fd = some (.file data))
    (hloop : fileLoop kernel fd reads w = (true, w')) :
    w'.sent = w.sent ++ data.drop w.offset := by
  induction reads generalizing w with
  | zero => exact absurd (congrArg Prod.fst hloop) (by simp [fileLoop, check])
  | succ reads ih =>
    rw [fileLoop] at hloop
    dsimp only at hloop
    rw [fdRead, hnode] at hloop
    cases hgives : kernel.gives w.calls with
    | none =>
      rw [hgives] at hloop
      exact absurd (congrArg Prod.fst hloop) (by simp)
    | some n =>
      rw [hgives] at hloop
      dsimp only at hloop
      generalize hgot : (data.drop w.offset).take (min (n + 1) fileChunk) = got at hloop
      split at hloop
      · rename_i hnil
        cases hloop
        rw [← hgot, length_eq_zero_iff, take_eq_nil_iff] at hnil
        have hpos : min (n + 1) fileChunk ≠ 0 := by
          rw [fileChunk]
          omega
        rw [hnil.resolve_left hpos, append_nil]
      · obtain ⟨mid, hsend, hrest⟩ := andThen_eq_true.1 hloop
        obtain ⟨hsent, hoffset⟩ := sendAll_eq_true hsend
        have hpre : got <+: data.drop w.offset := hgot ▸ take_prefix _ _
        rw [ih hrest, hsent, hoffset, append_assoc, ← drop_drop]
        exact congrArg (w.sent ++ ·) (prefix_append_drop hpre).symm

/-- A response whose header is a list of lines, none of them empty or broken, of which exactly
one tells the length of the body. -/
def Framed (response body : List UInt8) : Prop :=
  ∃ lines, response = header lines ++ body ∧
    (∀ line ∈ lines, line ≠ [] ∧ (13 : UInt8) ∉ line ∧ (10 : UInt8) ∉ line) ∧
    lines.filter (fun line => decide (lit "Content-Length: " <+: line)) =
      [lit "Content-Length: " ++ decimal body.length]

def Unbroken (text : List UInt8) : Prop := (13 : UInt8) ∉ text ∧ (10 : UInt8) ∉ text

instance (text : List UInt8) : Decidable (Unbroken text) := inferInstanceAs (Decidable (_ ∧ _))

theorem Unbroken.append {a b : List UInt8} (ha : Unbroken a) (hb : Unbroken b) :
    Unbroken (a ++ b) := by
  simp only [Unbroken, mem_append, not_or]
  exact ⟨⟨ha.1, hb.1⟩, ha.2, hb.2⟩

theorem unbroken_decimal (value : ℕ) : Unbroken (decimal value) :=
  ⟨fun hm => absurd (digit_of_mem_decimal hm) (by decide),
    fun hm => absurd (digit_of_mem_decimal hm) (by decide)⟩

theorem framed_five {status kind : List UInt8} (hstatus : Unbroken (lit "HTTP/1.1 " ++ status))
    (hkind : Unbroken (lit "Content-Type: " ++ kind)) :
    Framed (header [lit "HTTP/1.1 " ++ status, lit "Server: cleonos-httpd/0.1",
      lit "Content-Type: " ++ kind, lit "Content-Length: " ++ decimal body.length,
      lit "Connection: close"] ++ body) body := by
  have hlength : Unbroken (lit "Content-Length: " ++ decimal body.length) :=
    Unbroken.append (by decide) (unbroken_decimal _)
  refine ⟨_, rfl, ?_, ?_⟩
  · intro line hline
    simp only [List.mem_cons, List.not_mem_nil, or_false] at hline
    rcases hline with rfl | rfl | rfl | rfl | rfl
    · exact ⟨by simp [lit], hstatus⟩
    · decide
    · exact ⟨by simp [lit], hkind⟩
    · exact ⟨by simp [lit], hlength⟩
    · decide
  · have h1 : ¬ lit "Content-Length: " <+: lit "HTTP/1.1 " ++ status := by
      simp [lit, List.cons_prefix_cons]
    have h3 : ¬ lit "Content-Length: " <+: lit "Content-Type: " ++ kind := by
      simp [lit, List.cons_prefix_cons]
    rw [List.filter_cons_of_neg (by simpa using h1), List.filter_cons_of_neg (by decide),
      List.filter_cons_of_neg (by simpa using h3),
      List.filter_cons_of_pos (by simp), List.filter_cons_of_neg (by decide), List.filter_nil]

theorem unbroken_contentType (path : List UInt8) :
    Unbroken (lit "Content-Type: " ++ contentType path) := by
  rw [contentType]
  split
  · decide
  · split
    · decide
    split
    · decide
    split
    · decide
    split
    · decide
    split
    · decide
    split
    · decide
    split <;> decide

theorem framed_textHeader (hreason : Unbroken reason) :
    Framed (textHeader code reason body ++ body) body := by
  have hstatus : Unbroken (lit "HTTP/1.1 " ++ (decimal code ++ [space] ++ reason)) :=
    Unbroken.append (by decide)
      (Unbroken.append (Unbroken.append (unbroken_decimal code) (by decide)) hreason)
  have hframed := @framed_five body _ _ hstatus
    (show Unbroken (lit "Content-Type: " ++ lit "text/plain; charset=utf-8") by decide)
  rw [textHeader, List.append_assoc (lit "HTTP/1.1 "), List.append_assoc (lit "HTTP/1.1 ")]
  exact hframed

theorem framed_fileHeader (hsize : data.length < 2 ^ 64) :
    Framed (fileHeader path (UInt64.ofNat data.length) ++ data) data := by
  have hframed := @framed_five data (lit "200 OK") (contentType path) (by decide)
    (unbroken_contentType path)
  rw [fileHeader, UInt64.toNat_ofNat', Nat.mod_eq_of_lt hsize]
  exact hframed

/-- The responses of the server: an error with a text, or a file that was opened; what is sent of
a device is not told. -/
inductive Response (kernel : System) (opened : List (List UInt8)) : List UInt8 → Prop
  | error {code : ℕ} {reason body : List UInt8} (hcode : code ≠ 200)
      (hframed : Framed (textHeader code reason body ++ body) body) :
      Response kernel opened (textHeader code reason body ++ body)
  | file {path data : List UInt8} (hopened : path ∈ opened)
      (hnode : nodeAt kernel path = some (.file data))
      (hframed : Framed (fileHeader path (UInt64.ofNat data.length) ++ data) data) :
      Response kernel opened (fileHeader path (UInt64.ofNat data.length) ++ data)
  | device {path response : List UInt8} (hopened : path ∈ opened)
      (hnode : nodeAt kernel path = some .device) : Response kernel opened response

theorem response_of_text {opened : List (List UInt8)} (hcode : code ≠ 200)
    (hreason : Unbroken reason) (hsend : sendTextResponse kernel code reason body w = (true, w')) :
    ∃ response, w'.sent = w.sent ++ response ∧ Response kernel opened response :=
  ⟨_, sendTextResponse_eq_true hsend, .error hcode (framed_textHeader hreason)⟩

theorem recvLoop_sent : (recvLoop kernel fuel buf w).2.sent = w.sent := by
  induction fuel generalizing buf w with
  | zero => rfl
  | succ fuel ih =>
    rw [recvLoop]
    split
    · rfl
    · dsimp only
      split
      · rfl
      · split
        · rfl
        · exact ih

/-- More is sent, and nothing is taken back. -/
def Sends (w w' : World) : Prop := w.sent <+: w'.sent

instance : IsPreorder World Sends where
  refl _ := List.prefix_refl _
  trans _ _ _ := List.IsPrefix.trans

theorem sends_sendAll : Keeps Sends (sendAll kernel fuel data) := by
  induction fuel generalizing data with
  | zero =>
    cases data with
    | nil => exact keeps_succeed
    | cons b data => exact keeps_check
  | succ fuel ih =>
    cases data with
    | nil => exact keeps_succeed
    | cons b data =>
      intro w
      rw [sendAll_cons]
      have hsend : Sends w (tcpSend kernel (b :: data) w).2 := prefix_append _ _
      split
      · exact hsend
      · exact trans_of Sends hsend (ih _)

theorem sends_fileLoop : Keeps Sends (fileLoop kernel fd reads) := by
  induction reads with
  | zero => exact keeps_check
  | succ reads ih =>
    intro w
    have hread : Sends w (fdRead kernel fd fileChunk w).2 := by
      rw [fdRead]
      split <;> exact prefix_refl _
    rw [fileLoop]
    dsimp only
    split
    · rename_i w' hfd
      rw [hfd] at hread
      exact hread
    · rename_i got w' hfd
      rw [hfd] at hread
      split
      · exact hread
      · exact trans_of Sends hread (sends_sendAll.andThen ih w')

theorem fdOpen_eq_some (hopen : fdOpen kernel path w = (some fd, w')) :
    fd = path ∧ nodeAt kernel path ≠ none ∧
      w'.opened = w.opened ++ [path] ∧ w'.sent = w.sent ∧ w'.offset = 0 := by
  rw [fdOpen] at hopen
  split at hopen
  · exact absurd (congrArg Prod.fst hopen) (by simp)
  · rename_i hok
    rw [not_or] at hok
    cases hopen
    exact ⟨rfl, hok.1, rfl, rfl, rfl⟩

theorem statSize_file (hnode : nodeAt kernel path = some (.file data)) :
    statSize kernel path = UInt64.ofNat data.length := by
  rw [statSize, hnode]

theorem length_lt_of_nodeAt (hnode : nodeAt kernel path = some (.file data)) :
    data.length < 2 ^ 64 := by
  obtain ⟨key, -, hkey⟩ := bind_eq_some_iff.1 hnode
  exact kernel.sizes key data hkey

theorem sendFile_eq_true (hsend : sendFile kernel reads path w = (true, w')) :
    ∃ response, w'.sent = w.sent ++ response ∧ Response kernel w'.opened response := by
  rw [sendFile] at hsend
  dsimp only at hsend
  split at hsend
  · exact response_of_text (by decide) (by decide) hsend
  · rename_i hstat
    rw [not_or, not_not] at hstat
    split at hsend
    · rename_i opened hopen
      have hsent : opened.sent = w.sent := by
        have := congrArg (fun r => r.2.sent) hopen
        rw [fdOpen] at this
        split at this <;> exact this.symm
      rw [← hsent]
      exact response_of_text (by decide) (by decide) hsend
    · rename_i fd opened hopen
      obtain ⟨rfl, hnone, hopened, hsent, hoffset⟩ := fdOpen_eq_some hopen
      split at hsend
      · exact absurd (congrArg Prod.fst hsend) (by simp)
      · obtain ⟨mid, hhead, hbody⟩ := andThen_eq_true.1 hsend
        obtain ⟨hmid, hmidOffset⟩ := sendAll_eq_true hhead
        have hmem : fd ∈ w'.opened := by
          obtain ⟨paths, hpaths, -⟩ :=
            (@keeps_sendAll kernel [] _ _).andThen (@keeps_fileLoop kernel [] fd reads) opened
          rw [hsend] at hpaths
          rw [hpaths, hopened]
          simp
        obtain ⟨node, hnode⟩ := ne_none_iff_exists'.1 hnone
        cases node with
        | dir =>
          have htype : statType kernel.tree fd = 2 := by
            rw [statType]
            change nodeAt kernel fd = _ at hnode
            rw [nodeAt] at hnode
            rw [hnode]
          rw [htype] at hstat
          exact absurd hstat.2 (by decide)
        | file data =>
          rw [statSize_file hnode] at hmid
          have hall := fileLoop_eq_true hnode hbody
          rw [hmidOffset, hoffset, drop_zero, hmid, hsent, append_assoc] at hall
          exact ⟨_, hall, .file hmem hnode (framed_fileHeader (length_lt_of_nodeAt hnode))⟩
        | device =>
          have hbodySends : Sends mid w' := by
            have hkeep := @sends_fileLoop kernel fd reads mid
            rw [hbody] at hkeep
            exact hkeep
          have hsends : Sends opened w' := trans_of Sends ⟨_, hmid.symm⟩ hbodySends
          obtain ⟨response, hresponse⟩ := hsends
          exact ⟨response, by rw [← hresponse, hsent], .device hmem hnode⟩

theorem handleClient_eq_true (hsend : handleClient kernel reads root w = (true, w')) :
    ∃ response, w'.sent = w.sent ++ response ∧ Response kernel w'.opened response := by
  have hrecv : (recvLoop kernel (reqMax + 1) [] w).2.sent = w.sent := recvLoop_sent
  rw [handleClient] at hsend
  split at hsend
  · rename_i received hloop
    rw [hloop] at hrecv
    rw [← hrecv]
    exact response_of_text (by decide) (by decide) hsend
  · rename_i buf received hloop
    rw [hloop] at hrecv
    rw [← hrecv]
    split at hsend
    · exact absurd (congrArg Prod.fst hsend) (by simp)
    · split at hsend
      · exact response_of_text (by decide) (by decide) hsend
      · split at hsend
        · exact response_of_text (by decide) (by decide) hsend
        · exact sendFile_eq_true hsend

/-! ## Files that are sent -/

/-- A kernel that refuses nothing. -/
structure Willing (kernel : System) : Prop where
  takes : ∀ n, 0 < kernel.takes n
  opens : ∀ n, kernel.opens n = true
  gives : ∀ n, kernel.gives n ≠ none

theorem Willing.sendAll (hk : Willing kernel) (hfuel : data.length ≤ fuel) :
    (sendAll kernel fuel data w).1 = true := by
  induction fuel generalizing data w with
  | zero =>
    have hnil : data = [] := length_eq_zero_iff.1 (Nat.le_zero.1 hfuel)
    rw [hnil]
    rfl
  | succ fuel ih =>
    cases data with
    | nil => rfl
    | cons b data =>
      rw [sendAll_cons]
      have hpos := hk.takes w.calls
      have hsent : (tcpSend kernel (b :: data) w).1 ≠ 0 := by
        dsimp only [tcpSend]
        rw [length_cons]
        omega
      rw [if_neg hsent]
      apply ih
      rw [length_drop]
      omega

theorem Willing.fileLoop (hk : Willing kernel) (hnode : nodeAt kernel fd = some (.file data))
    (hreads : data.length - w.offset < reads) : (fileLoop kernel fd reads w).1 = true := by
  induction reads generalizing w with
  | zero => omega
  | succ reads ih =>
    obtain ⟨n, hn⟩ := ne_none_iff_exists'.1 (hk.gives w.calls)
    rw [Httpd.fileLoop]
    dsimp only
    rw [fdRead, hnode, hn]
    dsimp only
    generalize hgot : (data.drop w.offset).take (min (n + 1) fileChunk) = got
    split
    · rfl
    · rename_i hpos
      have hlen : got.length ≤ data.length - w.offset := by
        rw [← hgot, length_take, length_drop]
        omega
      rw [andThen, if_pos (hk.sendAll le_rfl)]
      apply ih
      have hoffset := (sendAll_eq_true (Prod.ext (hk.sendAll (Nat.le_refl got.length)) rfl :
        Httpd.sendAll kernel got.length got
          ⟨w.opened, w.sent, w.offset + got.length, w.calls + 1⟩ = (true, _))).2
      rw [hoffset]
      dsimp only
      omega

theorem length_contentType_le (path : List UInt8) : (contentType path).length ≤ 25 := by
  rw [contentType]
  split
  · decide
  · split
    · decide
    split
    · decide
    split
    · decide
    split
    · decide
    split
    · decide
    split
    · decide
    split <;> decide

theorem length_fileHeader_lt (path : List UInt8) (size : UInt64) :
    (fileHeader path size).length < headerMax := by
  have htype := length_contentType_le path
  have hsize := length_decimal_le size.toNat_lt
  have h1 : (lit "HTTP/1.1 200 OK").length = 15 := rfl
  have h2 : (lit "Server: cleonos-httpd/0.1").length = 25 := rfl
  have h3 : (lit "Content-Type: ").length = 14 := rfl
  have h4 : (lit "Content-Length: ").length = 16 := rfl
  have h5 : (lit "Connection: close").length = 17 := rfl
  simp only [fileHeader, header, crlf, headerMax, List.flatMap_cons, List.flatMap_nil,
    List.length_append, List.length_cons, List.length_nil, h1, h2, h3, h4, h5]
  omega

theorem Willing.sendText (hk : Willing kernel) {code : ℕ}
    (hlen : (textHeader code reason body).length < headerMax) :
    (sendTextResponse kernel code reason body w).1 = true := by
  rw [sendTextResponse, if_neg (Nat.not_le.2 hlen), andThen, if_pos (hk.sendAll le_rfl)]
  split
  · exact hk.sendAll le_rfl
  · rfl

/-- There are no devices, and `reads` reads of a file take all its bytes and find its end. -/
def Readable (kernel : System) (reads : ℕ) : Prop :=
  ∀ key node, kernel.tree.node key = some node →
    node = .dir ∨ ∃ data, node = .file data ∧ data.length < reads

theorem Willing.sendFile (hk : Willing kernel) (hfiles : Readable kernel reads) :
    (sendFile kernel reads path w).1 = true := by
  rw [Httpd.sendFile]
  dsimp only
  split
  · exact hk.sendText (by decide +kernel)
  · rename_i hfile
    obtain ⟨data, hnode, hreads⟩ :
        ∃ data, nodeAt kernel path = some (.file data) ∧ data.length < reads := by
      have htype := not_not.1 (not_or.1 hfile).2
      rw [statType, ← nodeAt] at htype
      cases hnode : nodeAt kernel path with
      | none =>
        rw [hnode] at htype
        cases htype
      | some node =>
        obtain ⟨key, -, hat⟩ := Option.bind_eq_some_iff.1 hnode
        rcases hfiles key node hat with rfl | ⟨data, rfl, hreads⟩
        · rw [hnode] at htype
          cases htype
        · exact ⟨data, rfl, hreads⟩
    have hfd : fdOpen kernel path w =
        (some path, ⟨w.opened ++ [path], w.sent, 0, w.calls + 1⟩) := by
      rw [fdOpen, if_neg]
      simp [hnode, hk.opens]
    rw [hfd]
    dsimp only
    have hhead := hk.sendAll (w := ⟨w.opened ++ [path], w.sent, 0, w.calls + 1⟩)
      (Nat.le_refl (fileHeader path (statSize kernel path)).length)
    rw [if_neg (Nat.not_le.2 (length_fileHeader_lt path _)), andThen, if_pos hhead]
    apply hk.fileLoop hnode
    rw [(sendAll_eq_true (Prod.ext hhead rfl)).2]
    dsimp only
    omega

theorem recvLoop_ne_nil {got : List UInt8} (h : (recvLoop kernel fuel buf w).1 = some got)
    (hsends : buf ≠ [] ∨ kernel.incoming w.calls ≠ []) : got ≠ [] := by
  induction fuel generalizing buf w with
  | zero => cases h
  | succ fuel ih =>
    rw [recvLoop] at h
    split at h
    · cases h
    · rename_i hroom
      dsimp only [tcpRecv] at h
      split at h
      · rename_i hnone
        cases h
        refine hsends.resolve_right fun hincoming => hincoming ?_
        rw [List.length_take] at hnone
        exact List.length_eq_zero_iff.1 (by omega)
      · rename_i hsome
        have hne : buf ++ (kernel.incoming w.calls).take (reqMax - buf.length) ≠ [] := by
          intro hnil
          rw [(List.append_eq_nil_iff.1 hnil).2] at hsome
          exact hsome rfl
        split at h
        · cases h
          exact hne
        · exact ih h (.inl hne)

/-- Where the kernel refuses nothing, there are no devices, and every file can be read to its end, a
client that sends something is answered in full, with one framed response. -/
theorem handleClient_answers (hk : Willing kernel) (hfiles : Readable kernel reads)
    (hsends : kernel.incoming w.calls ≠ []) (root : List UInt8) :
    (handleClient kernel reads root w).1 = true ∧
      ∃ response, (handleClient kernel reads root w).2.sent = w.sent ++ response ∧
        Response kernel (handleClient kernel reads root w).2.opened response := by
  have hok : (handleClient kernel reads root w).1 = true := by
    rw [handleClient]
    split
    · exact hk.sendText (by decide +kernel)
    · rename_i buf w' hrecv
      have hne : buf ≠ [] := recvLoop_ne_nil (congrArg Prod.fst hrecv) (.inr hsends)
      rw [if_neg (mt List.length_eq_zero_iff.1 hne)]
      split
      · exact hk.sendText (by decide +kernel)
      · split
        · exact hk.sendText (by decide +kernel)
        · exact hk.sendFile hfiles
  exact ⟨hok, handleClient_eq_true (Prod.ext hok rfl)⟩

/-- A disk with nothing but the root. -/
def rootOnly : FileTree (List UInt8) :=
  ⟨fun k => if k = [] then some .dir else none, if_pos rfl, fun k c h => by simp at h⟩

theorem rootOnly_node {key : List (List UInt8)} {node : Node} (h : rootOnly.node key = some node) :
    node = .dir := by
  rw [rootOnly, Option.ite_none_right_eq_some] at h
  exact (Option.some.inj h.2).symm

/-- A kernel that takes a byte at a time, and a client that asks for the root. -/
def emptyHost : System where
  tree := rootOnly
  incoming := fun _ => lit "GET / HTTP/1.0\n\n"
  takes := fun _ => 1
  opens := fun _ => true
  gives := fun _ => some 0
  device := fun _ => []
  deviceSize := 0
  sizes := fun _ _ h => by cases rootOnly_node h

/-- The client is told that there is nothing. -/
theorem emptyHost_answers : ∃ response,
    (handleClient emptyHost 1 (lit "/www") ⟨[], [], 0, 0⟩).2.sent = [] ++ response ∧
      Response emptyHost (handleClient emptyHost 1 (lit "/www") ⟨[], [], 0, 0⟩).2.opened response :=
  (handleClient_answers ⟨fun _ => Nat.one_pos, fun _ => rfl, fun _ => Option.some_ne_none 0⟩
    (fun _ _ h => .inl (rootOnly_node h)) (by decide) _).2

/-- Whatever the request and however it is cut into reads: only paths whose normal form lies below
that of the root are opened; and what is sent when a response is sent in full is framed, with the
content of the file as its body where a file is sent. -/
theorem handleClient_confined_framed (kernel : System) (reads : ℕ) (root : List UInt8)
    (w : World) :
    (∃ paths, (handleClient kernel reads root w).2.opened = w.opened ++ paths ∧
      ∀ path ∈ paths, normalise (components root) <+: normalise (components path)) ∧
    ((handleClient kernel reads root w).1 = true →
      ∃ response, (handleClient kernel reads root w).2.sent = w.sent ++ response ∧
        Response kernel (handleClient kernel reads root w).2.opened response) :=
  ⟨keeps_handleClient w, fun hok => handleClient_eq_true (Prod.ext hok rfl)⟩

end Cleonos.Httpd
