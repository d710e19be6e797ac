import Cleonos.WebConsole.Html

/-!
# The links of the file page

The file page has a row for each child of a directory, with links to open, view, download or
delete it.
-/

namespace Cleonos.WebConsole

open List

variable {h : Html} {dir name child link text : List UInt8}

/-- `wc_join_path`, into a buffer for a path. -/
def wcJoinPath (outSize : ℕ) (dir name : List UInt8) : Option (List UInt8) :=
  let path := if cstr dir = lit "/" then 47 :: cstr name else cstr dir ++ 47 :: cstr name
  if path.length > 0 ∧ path.length < outSize then some path else none

/-- What the file system says of a path: its type, 1 for a file and 2 for a directory, and its
size. -/
structure FileStat where
  type : ℕ
  size : ℕ

/-- The row of one child, in the loop of `wc_render_files`; a name that cannot be read or joined
has none. -/
def fileRow (stat : List UInt8 → FileStat) (dir : List UInt8) (h : Html) (name : Option (List UInt8)) :
    Html :=
  match name with
  | none => h
  | some name =>
    match wcJoinPath ushPathMax dir name with
    | none => h
    | some child =>
      let h := wcRaw h (lit "<tr><td>")
      let h :=
        if (stat child).type = 2 then
          let h := wcRaw h (lit "<a href=\"/?view=files&path=")
          let h := wcUrlenc h child
          let h := wcRaw h (lit "\">")
          let h := wcEsc h (cstr name)
          wcRaw h (lit "</a>")
        else
          let h := wcRaw h (lit "<a href=\"/?view=files&action=view&path=")
          let h := wcUrlenc h child
          let h := wcRaw h (lit "\">")
          let h := wcEsc h (cstr name)
          wcRaw h (lit "</a>")
      let h := wcRaw h (lit "</td><td>")
      let h := wcRaw h (if (stat child).type = 2 then lit "dir" else lit "file")
      let h := wcRaw h (lit "</td><td align=\"right\">")
      let h := wcU64 h (stat child).size
      let h := wcRaw h (lit "</td><td>")
      let h :=
        if (stat child).type = 1 then
          let h := wcRaw h (lit "<a href=\"/?view=files&action=view&path=")
          let h := wcUrlenc h child
          let h := wcRaw h (lit "\">view</a> <a href=\"/?view=files&action=download&path=")
          let h := wcUrlenc h child
          wcRaw h (lit "\">download</a> ")
        else h
      let h := wcRaw h (lit "<a href=\"/?view=files&action=delete&path=")
      let h := wcUrlenc h child
      wcRaw h (lit "\">delete</a></td></tr>")

/-! ## Reading a page -/

/-- The character references of `wcEsc`, undone. -/
def unescapeHtml : List UInt8 → List UInt8
  | [] => []
  | 38 :: 97 :: 109 :: 112 :: 59 :: rest => 38 :: unescapeHtml rest
  | 38 :: 108 :: 116 :: 59 :: rest => 60 :: unescapeHtml rest
  | 38 :: 103 :: 116 :: 59 :: rest => 62 :: unescapeHtml rest
  | 38 :: 113 :: 117 :: 111 :: 116 :: 59 :: rest => 34 :: unescapeHtml rest
  | 38 :: 35 :: 51 :: 57 :: 59 :: rest => 39 :: unescapeHtml rest
  | c :: rest => c :: unescapeHtml rest

/-- What stands in front of a link. -/
def opening : List UInt8 := lit "<a href=\""

/-- A reader of a page: the value of a link that is being read, or how much of `opening` has been
seen, and the links so far. -/
structure Reader where
  value : Option (List UInt8)
  seen : ℕ
  links : List (List UInt8)

/-- A value ends at a quotation mark. -/
def Reader.step (r : Reader) (c : UInt8) : Reader :=
  match r.value with
  | some value =>
    if c = 34 then ⟨none, 0, r.links ++ [unescapeHtml value]⟩ else { r with value := some (value ++ [c]) }
  | none =>
    if opening[r.seen]? = some c then
      if r.seen + 1 = opening.length then { r with value := some [], seen := 0 }
      else { r with seen := r.seen + 1 }
    else { r with seen := if c = 60 then 1 else 0 }

/-- A reader that is in no tag. -/
def Reader.between (links : List (List UInt8)) : Reader := ⟨none, 0, links⟩

/-- The links that a reader finds in a part of a page; one that the end of the page cuts off is no
link. -/
def pageLinks (text : List UInt8) : List (List UInt8) := (text.foldl Reader.step (Reader.between [])).links

/-- A request for a link, and anything behind it. -/
def requestOf (link rest : List UInt8) : List UInt8 := lit "GET " ++ link ++ 32 :: rest

/-- The path that a request is for. -/
def requestedPath (pkgNameMax : ℕ) (req : List UInt8) : Option (List UInt8) :=
  (wcParseRequestPath req ushPathMax).map fun reqPath => (wcParseQuery pkgNameMax reqPath).path

/-- A link to a path, with an action. -/
def linkTo (action path : List UInt8) : List UInt8 :=
  lit "/?view=files" ++ action ++ lit "&path=" ++ path.flatMap urlencCh

/-- The actions that a link may have. -/
def actions : List (List UInt8) := [[], lit "&action=view", lit "&action=download", lit "&action=delete"]

/-- The links of the row of a child of a type, in order. -/
def rowLinks (type : ℕ) (child : List UInt8) : List (List UInt8) :=
  [linkTo (if type = 2 then [] else lit "&action=view") child] ++
    (if type = 1 then [linkTo (lit "&action=view") child, linkTo (lit "&action=download") child] else []) ++
    [linkTo (lit "&action=delete") child]

theorem mem_rowLinks {type : ℕ} (hlink : link ∈ rowLinks type child) :
    ∃ action ∈ actions, link = linkTo action child := by
  simp only [rowLinks, mem_append, mem_singleton] at hlink
  rcases hlink with (rfl | hlink) | rfl
  · split
    · exact ⟨[], by decide, rfl⟩
    · exact ⟨lit "&action=view", by decide, rfl⟩
  · split at hlink
    · simp only [mem_cons, not_mem_nil, or_false] at hlink
      rcases hlink with rfl | rfl
      · exact ⟨lit "&action=view", by decide, rfl⟩
      · exact ⟨lit "&action=download", by decide, rfl⟩
    · cases hlink
  · exact ⟨lit "&action=delete", by decide, rfl⟩

theorem notMem_linkTo {action : List UInt8} (haction : action ∈ actions) {b : UInt8}
    (hplain : isPlain b = false) (hmark : b ∉ lit "%&=?") : b ∉ linkTo action child := by
  have hfixed : ∀ c ∈ lit "/?view=files" ++ action ++ lit "&path=", isPlain c = true ∨ c ∈ lit "%&=?" := by
    have hall : ∀ action ∈ actions, (lit "/?view=files" ++ action ++ lit "&path=").all
        (fun c => isPlain c || decide (c ∈ lit "%&=?")) = true := by decide +kernel
    intro c hc
    simpa using all_eq_true.1 (hall action haction) c hc
  intro hmem
  rw [linkTo, mem_append] at hmem
  cases hmem with
  | inl hmem =>
    rcases hfixed b hmem with hplain' | hmark'
    · rw [hplain] at hplain'
      cases hplain'
    · exact hmark hmark'
  | inr hmem =>
    apply notMem_urlencCh hplain _ hmem
    intro hpercent
    rw [hpercent] at hmark
    exact hmark (by decide)

theorem unescapeHtml_of_notMem (htext : 59 ∉ text) : unescapeHtml text = text := by
  fun_induction unescapeHtml text with
  | case1 => rfl
  | case2 rest ih => simp at htext
  | case3 rest ih => simp at htext
  | case4 rest ih => simp at htext
  | case5 rest ih => simp at htext
  | case6 rest ih => simp at htext
  | case7 c rest h₁ h₂ h₃ h₄ h₅ ih =>
    rw [mem_cons, not_or] at htext
    rw [ih htext.2]

theorem join_cstr {outSize : ℕ} (hjoin : wcJoinPath outSize dir name = some child) :
    child ≠ [] ∧ 0 ∉ child := by
  have hpath : 0 ∉ if cstr dir = lit "/" then 47 :: cstr name else cstr dir ++ 47 :: cstr name := by
    have hdir := notMem_cstr dir
    have hname := notMem_cstr name
    split <;> simp [hdir, hname]
  simp only [wcJoinPath] at hjoin
  generalize (if cstr dir = lit "/" then 47 :: cstr name else cstr dir ++ 47 :: cstr name) = path at hpath hjoin
  split at hjoin
  · rename_i hlen
    cases hjoin
    exact ⟨ne_nil_of_length_pos hlen.1, hpath⟩
  · cases hjoin

variable {action : List UInt8}

theorem path_linkTo (haction : action ∈ actions) (hzero : 0 ∉ child)
    (hne : child ≠ []) (hshort : (linkTo action child).length < ushPathMax) (pkgNameMax : ℕ) :
    (wcParseQuery pkgNameMax (linkTo action child)).path = child := by
  have hcoded : (child.flatMap urlencCh).length < ushPathMax := by
    rw [linkTo, length_append] at hshort
    omega
  have hfound : queryFrom (lit "path") ushPathMax true (lit "path" ++ 61 :: child.flatMap urlencCh) =
      child := queryFrom_coded hzero hcoded
  have hview (rest : List UInt8) : ¬ lit "path" ++ [61] <+: lit "view=files" ++ 38 :: rest := by
    rintro ⟨t, ht⟩
    have hhead : some (112 : UInt8) = some 118 := congrArg List.head? ht
    exact absurd hhead (by decide)
  have haction' (value rest : List UInt8) : ¬ lit "path" ++ [61] <+: lit "action=" ++ value ++ 38 :: rest := by
    rintro ⟨t, ht⟩
    have hhead : some (112 : UInt8) = some 97 := congrArg List.head? ht
    exact absurd hhead (by decide)
  have hskip {rest : List UInt8} (hrest : queryFrom (lit "path") ushPathMax true rest = child) :
      queryFrom (lit "path") ushPathMax true (lit "view=files" ++ 38 :: rest) = child := by
    rw [queryFrom_skip (by decide) (fun _ => hview rest), hrest]
  have hskip' (value : List UInt8) (hclean : 38 ∉ lit "action=" ++ value) :
      queryFrom (lit "path") ushPathMax true
        (lit "action=" ++ value ++ 38 :: (lit "path" ++ 61 :: child.flatMap urlencCh)) = child := by
    rw [queryFrom_skip hclean (fun _ => haction' value _), hfound]
  have hvalue : wcQueryValue (((linkTo action child).dropWhile (· ≠ 63)).drop 1) (lit "path") ushPathMax =
      child := by
    rw [wcQueryValue]
    simp only [actions, mem_cons, not_mem_nil, or_false] at haction
    rcases haction with rfl | rfl | rfl | rfl
    · exact hskip hfound
    · exact hskip (hskip' (lit "view") (by decide))
    · exact hskip (hskip' (lit "download") (by decide))
    · exact hskip (hskip' (lit "delete") (by decide))
  have hmark : 63 ∈ linkTo action child := mem_cons_of_mem _ mem_cons_self
  rw [wcParseQuery, if_pos hmark]
  change orElse (wcQueryValue _ _ _) _ = child
  rw [hvalue, orElse, if_neg hne]

theorem requestedPath_linkTo (haction : action ∈ actions) (hzero : 0 ∉ child)
    (hne : child ≠ []) (pkgNameMax : ℕ) (rest : List UInt8) :
    requestedPath pkgNameMax (requestOf (linkTo action child) rest) =
      if (linkTo action child).length < ushPathMax then some child else none := by
  have hlink : ∀ b ∈ linkTo action child, decide (b ≠ 32) = true := by
    intro b hb
    rw [decide_eq_true_eq]
    rintro rfl
    exact notMem_linkTo haction (by decide) (by decide) hb
  have htext : cstr (requestOf (linkTo action child) rest) =
      lit "GET " ++ (linkTo action child ++ 32 :: cstr rest) := by
    rw [cstr, requestOf, takeWhile_append_of_pos, append_assoc]
    · rfl
    · intro b hb
      rw [decide_eq_true_eq]
      rintro rfl
      rw [mem_append] at hb
      cases hb with
      | inl hget => exact absurd hget (by decide)
      | inr hmem => exact notMem_linkTo haction (by decide) (by decide) hmem
  have htake : (linkTo action child ++ 32 :: cstr rest).takeWhile (· ≠ 32) = linkTo action child := by
    rw [takeWhile_append_of_pos hlink, takeWhile_cons_of_neg (by simp), append_nil]
  have hlong : (linkTo action child).length ≠ 0 := Nat.succ_ne_zero _
  have hdrop : (lit "GET " ++ (linkTo action child ++ 32 :: cstr rest)).drop 4 =
      linkTo action child ++ 32 :: cstr rest := rfl
  rw [requestedPath, wcParseRequestPath, htext, if_pos (prefix_append _ _), hdrop,
    if_pos (mem_append_right _ mem_cons_self), htake]
  by_cases hshort : (linkTo action child).length < ushPathMax
  · rw [if_pos hshort, if_neg (by omega), Option.map_some, path_linkTo haction hzero hne hshort]
  · rw [if_neg hshort, if_pos (by omega), Option.map_none]

/-- A text that leaves a reader between the tags, with these links. -/
def Yields (text : List UInt8) (links : List (List UInt8)) : Prop :=
  ∀ before, text.foldl Reader.step (Reader.between before) = Reader.between (before ++ links)

theorem Yields.append {links links' : List (List UInt8)} (h : Yields text links) {text' : List UInt8}
    (h' : Yields text' links') : Yields (text ++ text') (links ++ links') := by
  intro before
  rw [foldl_append, h, h', append_assoc]

theorem yields_of_notMem (htext : 60 ∉ text) : Yields text [] := by
  intro before
  induction text with
  | nil => rw [foldl_nil, append_nil]
  | cons c text ih =>
    rw [mem_cons, not_or] at htext
    have hstep : (Reader.between before).step c = Reader.between before := by
      have hseen : opening[0]? ≠ some c := by
        intro hc
        exact htext.1 (Option.some.inj hc)
      simp [Reader.step, Reader.between, hseen, Ne.symm htext.1]
    rw [foldl_cons, hstep, ih htext.2]

theorem opening_eq : opening = [60, 97, 32, 104, 114, 101, 102, 61, 34] := by decide

/-- A fixed text in which no link begins; `seen` is how much of one has been seen before it. -/
def quietFrom (seen : ℕ) : List UInt8 → Bool
  | [] => seen = 0
  | c :: rest =>
    if opening[seen]? = some c then seen + 1 ≠ opening.length && quietFrom (seen + 1) rest
    else quietFrom (if c = 60 then 1 else 0) rest

theorem foldl_quiet {seen : ℕ} (hquiet : quietFrom seen text = true) (before : List (List UInt8)) :
    text.foldl Reader.step ⟨none, seen, before⟩ = Reader.between before := by
  induction text generalizing seen with
  | nil =>
    rw [quietFrom, decide_eq_true_eq] at hquiet
    rw [hquiet, foldl_nil, Reader.between]
  | cons c rest ih =>
    rw [quietFrom] at hquiet
    rw [foldl_cons, Reader.step]
    split at hquiet
    · rename_i hseen
      rw [Bool.and_eq_true, decide_eq_true_eq] at hquiet
      simp only [if_pos hseen, if_neg hquiet.1]
      exact ih hquiet.2
    · rename_i hseen
      simp only [if_neg hseen]
      exact ih hquiet

theorem yields_of_quiet (hquiet : quietFrom 0 text = true) : Yields text [] := by
  intro before
  rw [append_nil]
  exact foldl_quiet hquiet before

theorem yields_link (hquote : 34 ∉ link) (hreference : 59 ∉ link) : Yields (opening ++ link ++ [34]) [link] := by
  have hvalue (value before) : link.foldl Reader.step ⟨some value, 0, before⟩ = ⟨some (value ++ link), 0, before⟩ := by
    induction link generalizing value with
    | nil => rw [foldl_nil, append_nil]
    | cons c link ih =>
      rw [mem_cons, not_or] at hquote hreference
      have hstep : Reader.step ⟨some value, 0, before⟩ c = ⟨some (value ++ [c]), 0, before⟩ :=
        if_neg (Ne.symm hquote.1)
      rw [foldl_cons, hstep, ih hquote.2 hreference.2, append_assoc, singleton_append]
  intro before
  have hopen : opening.foldl Reader.step (Reader.between before) = ⟨some [], 0, before⟩ := by
    simp [opening_eq, Reader.step, Reader.between]
  rw [foldl_append, foldl_append, hopen, hvalue, nil_append]
  change (⟨none, 0, before ++ [unescapeHtml link]⟩ : Reader) = _
  rw [unescapeHtml_of_notMem hreference]
  rfl

theorem pageLinks_take (text : List UInt8) (n : ℕ) : pageLinks (text.take n) <+: pageLinks text := by
  have hstep (r : Reader) (c : UInt8) : r.links <+: (r.step c).links := by
    rw [Reader.step]
    split
    · split
      · exact prefix_append _ _
      · exact prefix_rfl
    · split
      · split <;> exact prefix_rfl
      · exact prefix_rfl
  have hall (r : Reader) (text : List UInt8) : r.links <+: (text.foldl Reader.step r).links := by
    induction text generalizing r with
    | nil => exact prefix_rfl
    | cons c text ih => exact (hstep r c).trans (ih (r.step c))
  have hsplit : text.foldl Reader.step (Reader.between []) =
      (text.drop n).foldl Reader.step ((text.take n).foldl Reader.step (Reader.between [])) := by
    rw [← foldl_append, take_append_drop]
  rw [pageLinks, pageLinks, hsplit]
  exact hall _ _

theorem Yields.pageLinks {links : List (List UInt8)} (h : Yields text links) : pageLinks text = links := by
  rw [WebConsole.pageLinks, h, nil_append]
  rfl

theorem notMem_decimal (value : ℕ) : 60 ∉ decimal value := by
  have hfrom (value room : ℕ) (digits : List UInt8) (hdigits : 60 ∉ digits) :
      60 ∉ digitsFrom value digits room := by
    induction room generalizing value digits with
    | zero => exact hdigits
    | succ room ih =>
      rw [digitsFrom]
      split
      · exact hdigits
      · apply ih
        rw [mem_cons, not_or]
        constructor
        · have hall : ∀ k < 10, (60 : UInt8) ≠ UInt8.ofNat (48 + k) := by decide
          exact hall _ (Nat.mod_lt _ (by omega))
        · exact hdigits
  rw [decimal]
  split
  · decide
  · exact hfrom value 32 [] (by simp)

/-- A link with its label, and what follows. -/
def cell (link label : List UInt8) : List UInt8 := opening ++ link ++ [34] ++ 62 :: label

def rowText (type size : ℕ) (child name : List UInt8) : List UInt8 :=
  lit "<tr><td>" ++
    cell (linkTo (if type = 2 then [] else lit "&action=view") child) (name.flatMap escCh) ++
    lit "</a></td><td>" ++ (if type = 2 then lit "dir" else lit "file") ++ lit "</td><td align=\"right\">" ++
    decimal size ++ lit "</td><td>" ++
    (if type = 1 then
      cell (linkTo (lit "&action=view") child) (lit "view</a> ") ++
        cell (linkTo (lit "&action=download") child) (lit "download</a> ")
      else []) ++
    cell (linkTo (lit "&action=delete") child) (lit "delete</a></td></tr>")

theorem lit_pieces :
    lit "<a href=\"/?view=files&path=" = opening ++ (lit "/?view=files" ++ ([] ++ lit "&path=")) ∧
    lit "<a href=\"/?view=files&action=view&path=" =
      opening ++ (lit "/?view=files" ++ (lit "&action=view" ++ lit "&path=")) ∧
    lit "<a href=\"/?view=files&action=delete&path=" =
      opening ++ (lit "/?view=files" ++ (lit "&action=delete" ++ lit "&path=")) ∧
    lit "\">view</a> <a href=\"/?view=files&action=download&path=" =
      [34] ++ (62 :: (lit "view</a> " ++ (opening ++ (lit "/?view=files" ++ (lit "&action=download" ++ lit "&path="))))) ∧
    lit "\">" = [34] ++ [62] ∧ lit "\">download</a> " = [34] ++ (62 :: lit "download</a> ") ∧
    lit "\">delete</a></td></tr>" = [34] ++ (62 :: lit "delete</a></td></tr>") ∧
    lit "</a></td><td>" = lit "</a>" ++ lit "</td><td>" := by
  decide +kernel

theorem fileRow_eq {stat : List UInt8 → FileStat} (hjoin : wcJoinPath ushPathMax dir name = some child) :
    fileRow stat dir h (some name) =
      h.put (rowText (stat child).type (stat child).size child (cstr name)) := by
  obtain ⟨hopen, hview, hdelete, hdownload, hclose, hend, hlast, hcell⟩ := lit_pieces
  simp only [fileRow, hjoin, wcRaw_eq, wcUrlenc_eq, wcEsc_eq, wcU64_eq, put_put, rowText, cell, linkTo]
  rw [hopen, hview, hdelete, hdownload, hclose, hend, hlast, hcell]
  split <;> split <;> simp

theorem yields_cell {label : List UInt8} (haction : action ∈ actions) {links : List (List UInt8)}
    (hlabel : Yields (62 :: label) links) : Yields (cell (linkTo action child) label) (linkTo action child :: links) :=
  (yields_link (notMem_linkTo haction (by decide) (by decide))
    (notMem_linkTo haction (by decide) (by decide))).append hlabel

theorem yields_rowText (type size : ℕ) (child name : List UInt8) :
    Yields (rowText type size child name) (rowLinks type child) := by
  have hopen : Yields (lit "<tr><td>") [] := yields_of_quiet (by decide +kernel)
  have hfirst : Yields (cell (linkTo (if type = 2 then [] else lit "&action=view") child) (name.flatMap escCh))
      [linkTo (if type = 2 then [] else lit "&action=view") child] := by
    apply yields_cell
    · split <;> decide +kernel
    · apply yields_of_notMem
      rw [mem_cons, not_or]
      exact ⟨by decide, notMem_escCh name⟩
  have hbetween : Yields (lit "</a></td><td>") [] := yields_of_quiet (by decide +kernel)
  have htype : Yields (if type = 2 then lit "dir" else lit "file") [] := by
    split <;> exact yields_of_quiet (by decide +kernel)
  have hright : Yields (lit "</td><td align=\"right\">") [] := yields_of_quiet (by decide +kernel)
  have hsize : Yields (decimal size) [] := yields_of_notMem (notMem_decimal size)
  have hlast : Yields (lit "</td><td>") [] := yields_of_quiet (by decide +kernel)
  have hfile : Yields
      (if type = 1 then
        cell (linkTo (lit "&action=view") child) (lit "view</a> ") ++
          cell (linkTo (lit "&action=download") child) (lit "download</a> ")
        else [])
      (if type = 1 then [linkTo (lit "&action=view") child, linkTo (lit "&action=download") child] else []) := by
    split
    · exact (yields_cell (by decide +kernel) (yields_of_quiet (by decide +kernel))).append
        (yields_cell (by decide +kernel) (yields_of_quiet (by decide +kernel)))
    · exact yields_of_quiet (by decide +kernel)
  have hdelete : Yields (cell (linkTo (lit "&action=delete") child) (lit "delete</a></td></tr>"))
      [linkTo (lit "&action=delete") child] :=
    yields_cell (by decide +kernel) (yields_of_quiet (by decide +kernel))
  have hrow := (((((((hopen.append hfirst).append hbetween).append htype).append hright).append hsize).append
    hlast).append hfile).append hdelete
  simpa only [rowText, rowLinks, append_nil, nil_append] using hrow

theorem added_fileRow {stat : List UInt8 → FileStat}
    (hjoin : wcJoinPath ushPathMax dir name = some child) :
    (fileRow stat dir h (some name)).buf.drop h.buf.length =
      (rowText (stat child).type (stat child).size child (cstr name)).take
        (h.cap - 1 - h.buf.length) := by
  have hfits := h.fits
  rw [fileRow_eq hjoin, buf_put, take_append, take_of_length_le (by omega),
    drop_left]

/-- Any link that a reader finds in what a row adds to a page, requested back, leads to the child of
the row, or the request is refused because the link is too long. -/
theorem links_lead_back (h : Html) (stat : List UInt8 → FileStat)
    (hjoin : wcJoinPath ushPathMax dir name = some child)
    (hlink : link ∈ pageLinks ((fileRow stat dir h (some name)).buf.drop h.buf.length)) (pkgNameMax : ℕ)
    (rest : List UInt8) :
    requestedPath pkgNameMax (requestOf link rest) =
      if link.length < ushPathMax then some child else none := by
  rw [added_fileRow hjoin] at hlink
  have hrow : link ∈ rowLinks (stat child).type child := by
    rw [← (yields_rowText (stat child).type (stat child).size child (cstr name)).pageLinks]
    exact (pageLinks_take _ _).subset hlink
  obtain ⟨action, haction, rfl⟩ := mem_rowLinks hrow
  obtain ⟨hne, hzero⟩ := join_cstr hjoin
  exact requestedPath_linkTo haction hzero hne pkgNameMax rest

/-- The file page of the root has a link to a child whose name is all marks. -/
theorem links_lead_back_marks : requestedPath 64
      (requestOf (lit "/?view=files&action=delete&path=/%26%2B%25%22%20%23") (lit "HTTP/1.1")) =
    some (lit "/&+%\" #") := by
  have hjoin : wcJoinPath ushPathMax (lit "/") (lit "&+%\" #") = some (lit "/&+%\" #") := by decide +kernel
  have hlink : lit "/?view=files&action=delete&path=/%26%2B%25%22%20%23" ∈ pageLinks
      ((fileRow (fun _ => ⟨1, 12⟩) (lit "/") (wcInit 131072 (by decide)) (some (lit "&+%\" #"))).buf.drop
        (wcInit 131072 (by decide)).buf.length) := by
    have hroom : (rowText 1 12 (lit "/&+%\" #") (cstr (lit "&+%\" #"))).length ≤
        (wcInit 131072 (by decide)).cap - 1 - (wcInit 131072 (by decide)).buf.length := by
      decide +kernel
    rw [added_fileRow hjoin, take_of_length_le hroom, (yields_rowText _ _ _ _).pageLinks]
    apply mem_append_right
    rw [mem_singleton]
    decide +kernel
  have hback := links_lead_back (wcInit 131072 (by decide)) (fun _ => ⟨1, 12⟩) hjoin hlink 64 (lit "HTTP/1.1")
  rw [hback]
  decide +kernel

end Cleonos.WebConsole
