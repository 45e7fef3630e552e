import SiteCode.Hugo
/-!
# `code-file.html`: a file, or some of its lines

The shortcode shows a file that belongs to a page. With `lines="a-b"` it selects
lines of the file by their index from 0 on, and tells `highlight` the number of
the first one. The text and the numbers are worked out separately, from the same
attribute.
-/

namespace SiteCode.CodeFile

open Lib Hugo

/-- The attributes of a call; `.Get` of one that is left out is an empty string. -/
structure Params where
  file : Str := []
  lang : Str := []
  lines : Str := []
  header : Str := []
  linenos : Str := []

structure Resource where
  Content : Str
  RelPermalink : Str

/-- What a call gets from the page, and from the version of the generator. -/
structure Page where
  /-- `.Page.Resources.Get` -/
  Resources : Str → Option Resource
  /-- `.Page.File.Path` -/
  Path : Str
  /-- The numbers that `int` reads besides integer literals. -/
  otherInt : Str → Option Int

/-- What the box around a listing shows. -/
structure Header where
  lang : Str
  RelPermalink : Str
  file : Str
  lines : Option Str
  deriving DecidableEq, Repr

inductive Out where
  | errorf (message : Str)
  | code (header : Option Header) (listing : Listing)
  deriving DecidableEq, Repr

/-! ## The shortcode -/

/-- `{{ range $idx, $line := $lineArr }}` -/
def range_body (start end_ : Int) (selectedLines : List Str) (p : Str × Nat) : List Str :=
  let (line, idx) := p
  if start ≤ idx ∧ idx < end_ then append line selectedLines else selectedLines

/-- `{{ if $lines }}`: the lines to display, and the options. -/
def select (page : Page) (raw lines : Str) (optsSlice : List Str) : Except Error (Str × List Str) := do
  let lineArr := split raw '\n'
  let parts := split lines '-'
  let start := (← int page.otherInt (index parts 0)) - 1
  let end_ ← int page.otherInt (index parts 1)
  let start := if start < 0 then 0 else start
  let end_ : Int := if end_ > lineArr.length then lineArr.length else end_
  let selectedLines := lineArr.zipIdx.foldl (range_body start end_) []
  let startLine ← int page.otherInt (index parts 0)
  let optsSlice := if startLine > 1 then append (printf "lineNoStart=%d" startLine) optsSlice else optsSlice
  return (delimit selectedLines '\n', optsSlice)

/-- From `{{ if eq (.Get "linenos") "false" }}` on: the text, highlighted, in a box or without one. -/
def display (params : Params) (res : Resource) (displayContent : Str) (optsSlice : List Str) : Except Error Out := do
  let file := params.file
  let lang := default_ (TrimPrefix "." (Ext file)) params.lang
  let lines := params.lines
  let header := default_ "true" params.header
  let optsSlice : List Str := if params.linenos = "false" then ["lineNos=false", "noClasses=false"] else optsSlice
  let highlightOpts := delimit optsSlice ','
  let listing ← highlight displayContent lang highlightOpts
  if header = "true" then
    return .code (some ⟨lang, res.RelPermalink, file, if lines ≠ [] then some lines else none⟩) listing
  else
    return .code none listing

def code_file (page : Page) (params : Params) : Except Error Out := do
  let file := params.file
  let lines := params.lines
  match page.Resources file with
  | none => return .errorf ("code-file: 找不到文件 '" ++ file ++ "'，位于页面 '" ++ page.Path ++ "'")
  | some res =>
    let raw := res.Content
    let optsSlice : List Str := ["lineNos=table", "noClasses=false"]
    if lines ≠ [] then
      let (displayContent, optsSlice) ← select page raw lines optsSlice
      display params res displayContent optsSlice
    else
      display params res raw optsSlice

/-! ## The selection -/

theorem foldl_range_body (start end_ : Int) (ps : List (Str × Nat)) (acc : List Str) :
    ps.foldl (range_body start end_) acc = acc ++ (ps.filter fun p => start ≤ p.2 ∧ p.2 < end_).map Prod.fst := by
  induction ps generalizing acc with
  | nil => simp
  | cons p ps ih =>
    rw [List.foldl_cons, ih, List.filter_cons]
    by_cases h : start ≤ p.2 ∧ p.2 < end_
    · simp [range_body, append, h]
    · simp [range_body, h]

/-- The loop takes indices between bounds that are cut off at both ends of the file,
and these are the lines with the numbers `a` to `b`. -/
theorem range_eq_between (a b : Int) (xs : List Str) :
    xs.zipIdx.foldl (range_body (if a - 1 < 0 then 0 else a - 1) (if b > xs.length then xs.length else b)) [] =
      (between a.toNat b.toNat xs).map Prod.fst := by
  have hshift : xs.zipIdx 1 = xs.zipIdx.map fun p => (p.1, p.2 + 1) := List.zipIdx_succ
  have hfst : (Prod.fst ∘ fun p : Str × Nat => (p.1, p.2 + 1)) = Prod.fst := rfl
  rw [foldl_range_body, List.nil_append, between, hshift, List.filter_map, List.map_map, hfst]
  congr 1
  apply List.filter_congr
  intro p hp
  have hlt : p.2 < xs.length := by simpa using List.snd_lt_add_of_mem_zipIdx hp
  simp only [Function.comp_apply, decide_eq_decide]
  split <;> split <;> omega

/-- The lines and the options for the parts that are numbers. -/
theorem select_eq {page : Page} (raw : Str) (optsSlice : List Str) {lines : Str} {i j : Int}
    (hi : int page.otherInt (index (split lines '-') 0) = .ok i)
    (hj : int page.otherInt (index (split lines '-') 1) = .ok j) : select page raw lines optsSlice =
      .ok (delimit ((between i.toNat j.toNat (split raw '\n')).map Prod.fst) '\n',
        if 1 < i.toNat then append (printf "lineNoStart=%d" i.toNat) optsSlice else optsSlice) := by
  have hloop := range_eq_between i j (split raw '\n')
  unfold select
  simp only [hi, hj, bind, Except.bind, pure, Except.pure, hloop]
  by_cases h : i > 1
  · have hnat : 1 < i.toNat := by omega
    have hcast : (i.toNat : Int) = i := Int.toNat_of_nonneg (by omega)
    rw [if_pos h, if_pos hnat, hcast]
  · have hnat : ¬ 1 < i.toNat := by omega
    rw [if_neg h, if_neg hnat]

/-! ## The options -/

/-- The options that `select` makes for a listing from line `a` on. -/
def startingAt (a : Nat) : List Str :=
  if 1 < a then append (printf "lineNoStart=%d" a) ["lineNos=table", "noClasses=false"]
  else ["lineNos=table", "noClasses=false"]

/-- The options that `highlight` gets. -/
def numbering (linenos : Str) (a : Nat) : List Str :=
  if linenos = "false" then ["lineNos=false", "noClasses=false"] else startingAt a

theorem printf_lineNoStart (a : Nat) : printf "lineNoStart=%d" a = ("lineNoStart" : Str) ++ '=' :: decimal a := by
  have hpos : ¬ (a : Int) < 0 := by omega
  change ("lineNoStart=" : Str) ++ ((if (a : Int) < 0 then '-' :: decimal (a : Int).natAbs
    else decimal (a : Int).natAbs) ++ []) = _
  rw [if_neg hpos, List.append_nil, Int.natAbs_natCast]
  rfl

/-- `highlight` reads the options back: a listing that is numbered starts with the
number `a`, or with 1 where `a` is 0. -/
theorem highlight_numbering (code lang linenos : Str) {a : Nat} (ha : a < 2 ^ 63) : ∃ l,
    highlight code lang (delimit (numbering linenos a) ',') = .ok l ∧ l.code = code ∧
      (linenos ≠ "false" → l.lineNos ∧ l.lineNoStart = (max a 1 : Nat)) := by
  by_cases hl : linenos = "false"
  · refine ⟨⟨code, lang, [("lineNos", "false"), ("noClasses", "false")], 1⟩, ?_, rfl, fun h => absurd hl h⟩
    rw [numbering, if_pos hl]
    rfl
  by_cases h1 : 1 < a
  · refine ⟨⟨code, lang, [("lineNos", "table"), ("noClasses", "false"), ("lineNoStart", decimal a)], a⟩, ?_, rfl,
      fun _ => ⟨rfl, ?_⟩⟩
    · rw [numbering, if_neg hl, startingAt, if_pos h1, printf_lineNoStart]
      apply highlight_eq
      · exact List.cons_ne_nil _ _
      · have hcomma := not_mem_decimal (c := ',') rfl a
        simp [append, hcomma]
      · exact List.cons_ne_nil _ _
      · have hequals := not_mem_decimal (c := '=') rfl a
        have hstart : option (("lineNoStart" : Str) ++ '=' :: decimal a) = .ok ("lineNoStart", decimal a) :=
          option_eq (by decide) hequals
        have htable : option "lineNos=table" = .ok ("lineNos", "table") := rfl
        have hclasses : option "noClasses=false" = .ok ("noClasses", "false") := rfl
        rw [append, List.cons_append, List.mapM_cons, htable, List.cons_append, List.mapM_cons, hclasses,
          List.nil_append, List.mapM_cons, hstart]
        rfl
      · have hint := int_decimal (fun _ => none) a
        rwa [if_pos ha] at hint
    · simp only
      omega
  · refine ⟨⟨code, lang, [("lineNos", "table"), ("noClasses", "false")], 1⟩, ?_, rfl, fun _ => ⟨rfl, ?_⟩⟩
    · rw [numbering, if_neg hl, startingAt, if_neg h1]
      rfl
    · simp only
      omega

/-! ## Listings -/

/-- The listing on the page, if there is one. -/
def listing (page : Page) (params : Params) : Option Listing :=
  match code_file page params with
  | .ok (.code _ listing) => some listing
  | _ => none

/-- The language of a listing. -/
def language (params : Params) : Str := default_ (TrimPrefix "." (Ext params.file)) params.lang

/-- `a-b` -/
def range (a b : Nat) : Str := decimal a ++ '-' :: decimal b

theorem range_ne_nil (a b : Nat) : range a b ≠ [] := by simp [range]

theorem split_range (a b : Nat) : split (range a b) '-' = [decimal a, decimal b] := by
  rw [split, range, List.splitOn_append_cons_self_of_not_mem (not_mem_decimal rfl a),
    List.splitOn_eq_singleton (not_mem_decimal rfl b)]

/-- A text is shown as `highlight` shows it, with its options or without numbers. -/
theorem display_eq (params : Params) (res : Resource) {content : Str} {opts : List Str} {l : Listing}
    (hl : highlight content (language params)
      (delimit (if params.linenos = "false" then ["lineNos=false", "noClasses=false"] else opts) ',') = .ok l) :
    ∃ header, display params res content opts = .ok (.code header l) := by
  unfold language at hl
  unfold display
  simp only [hl, bind, Except.bind, pure, Except.pure]
  split
  · exact ⟨_, rfl⟩
  · exact ⟨_, rfl⟩

section
variable {page : Page} {params : Params} {res : Resource} (hres : page.Resources params.file = some res)
include hres

/-- The listing of a whole file. -/
theorem listing_whole {l : Listing}
    (hl : highlight res.Content (language params) (delimit (numbering params.linenos 1) ',') = .ok l) :
    listing page { params with lines := [] } = some l := by
  obtain ⟨header, hd⟩ := display_eq { params with lines := [] } res hl
  have hcode : code_file page { params with lines := [] } = .ok (.code header l) := by
    unfold code_file
    simp only [hres]
    rw [if_neg (not_not.2 rfl)]
    exact hd
  rw [listing, hcode]

/-- The listing for `lines="a-b"`. -/
theorem listing_range {a b : Nat} (ha : a < 2 ^ 63) (hb : b < 2 ^ 63) {l : Listing}
    (hl : highlight (delimit ((between a b (split res.Content '\n')).map Prod.fst) '\n') (language params)
      (delimit (numbering params.linenos a) ',') = .ok l) :
    listing page { params with lines := range a b } = some l := by
  have hia := int_decimal page.otherInt a
  have hib := int_decimal page.otherInt b
  rw [if_pos ha, ← index_zero (decimal a) [decimal b], ← split_range] at hia
  rw [if_pos hb, ← index_one (decimal a) (decimal b) [], ← split_range] at hib
  have hsel := select_eq res.Content ["lineNos=table", "noClasses=false"] hia hib
  obtain ⟨header, hd⟩ := display_eq { params with lines := range a b } res hl
  have hcode : code_file page { params with lines := range a b } = .ok (.code header l) := by
    unfold code_file
    simp only [hres]
    rw [if_pos (range_ne_nil a b), hsel]
    exact hd
  rw [listing, hcode]

/-- Any two bounds that fit give a listing of the lines between them. -/
theorem listing_between {a b : Nat} (ha : a < 2 ^ 63) (hb : b < 2 ^ 63) :
    ∃ l, listing page { params with lines := range a b } = some l ∧
      l.code = delimit ((between a b (split res.Content '\n')).map Prod.fst) '\n' ∧
      (params.linenos ≠ "false" → l.lineNos ∧ l.lineNoStart = (max a 1 : Nat)) := by
  obtain ⟨l, hl, hcode, hnos⟩ := highlight_numbering
    (delimit ((between a b (split res.Content '\n')).map Prod.fst) '\n') (language params) params.linenos ha
  exact ⟨l, listing_range hres ha hb hl, hcode, hnos⟩

/-- From the first line to the last one or beyond it, the listing is that of the whole file. -/
theorem listing_range_all {b : Nat} (hb : b < 2 ^ 63) (hN : (split res.Content '\n').length ≤ b) :
    listing page { params with lines := range 1 b } = listing page { params with lines := [] } := by
  obtain ⟨l, hl, -, -⟩ := highlight_numbering res.Content (language params) params.linenos (a := 1) (by decide)
  have htext : delimit ((between 1 b (split res.Content '\n')).map Prod.fst) '\n' = res.Content := by
    rw [between_all hN]
    exact List.intercalate_splitOn '\n'
  have hrange : listing page { params with lines := range 1 b } = some l := by
    apply listing_range hres (by decide) hb
    rwa [htext]
  rw [hrange, listing_whole hres hl]

/-- A number that does not fit ends the rendering, and the error names it. -/
theorem code_file_cast {a b : Nat} (h : 2 ^ 63 ≤ a ∨ 2 ^ 63 ≤ b) :
    code_file page { params with lines := range a b } =
      .error (.cast (if 2 ^ 63 ≤ a then decimal a else decimal b)) := by
  have hsel : select page res.Content (range a b) ["lineNos=table", "noClasses=false"] =
      .error (.cast (if 2 ^ 63 ≤ a then decimal a else decimal b)) := by
    have hia := int_decimal page.otherInt a
    have hib := int_decimal page.otherInt b
    unfold select
    by_cases ha : 2 ^ 63 ≤ a
    · rw [if_neg (Nat.not_lt.2 ha)] at hia
      simp only [split_range, index_zero, hia, if_pos ha, bind, Except.bind]
    · rw [if_pos (Nat.not_le.1 ha)] at hia
      rw [if_neg (Nat.not_lt.2 (h.resolve_left ha))] at hib
      simp only [split_range, index_zero, index_one, hia, hib, if_neg ha, bind, Except.bind]
  unfold code_file
  simp only [hres]
  rw [if_pos (range_ne_nil a b), hsel]
  rfl

end

/-! ## What is shown -/

/-- The rows of a part of a file, numbered from its first number on, have the numbers
of the file. -/
theorem rows_eq {l : Listing} {a b : Nat} {content : Str} (hne : between a b (split content '\n') ≠ [])
    (hcode : l.code = delimit ((between a b (split content '\n')).map Prod.fst) '\n')
    (hnos : l.lineNos) (hstart : l.lineNoStart = (max a 1 : Nat)) :
    l.rows = (between a b (split content '\n')).map fun (line, k) => (some (k : Int), line) := by
  have hsplit : split l.code '\n' = (between a b (split content '\n')).map Prod.fst := by
    rw [hcode]
    exact splitOn_between hne
  unfold Listing.rows
  rw [hsplit, hnos, hstart]
  nth_rewrite 2 [← zipIdx_map_fst_between a b (split content '\n')]
  rw [List.zipIdx_eq_map_add (i := max a 1), List.map_map]
  apply List.map_congr_left
  rintro ⟨line, i⟩ -
  simp

/-- With `lines="p-q"` the lines with the numbers `a` to `b` are shown, under their numbers. -/
def Shows (page : Page) (params : Params) (content p q : Str) (a b : Nat) : Prop :=
  let lineArr := split content '\n'
  let selected := between (max a 1) (min b lineArr.length) lineArr
  ∃ l, listing page { params with lines := p ++ '-' :: q } = some l ∧
    l.code = delimit (selected.map Prod.fst) '\n' ∧
    (params.linenos ≠ "false" → selected ≠ [] → l.rows = selected.map fun (line, k) => (some (k : Int), line))

theorem shows_range {page : Page} {params : Params} {res : Resource} (hres : page.Resources params.file = some res)
    {a b : Nat} (ha : a < 2 ^ 63) (hb : b < 2 ^ 63) :
    Shows page params res.Content (decimal a) (decimal b) a b := by
  obtain ⟨l, hl, hcode, hnos⟩ := listing_between hres ha hb
  unfold Shows
  simp only [between_clamp]
  refine ⟨l, hl, hcode, fun hon hne => ?_⟩
  obtain ⟨h1, h2⟩ := hnos hon
  exact rows_eq hne hcode h1 h2

/-- The text of two parts that meet, with a newline between them. -/
theorem text_append {content : Str} {a m b : Nat} (h1 : 1 ≤ a) (h2 : a ≤ m) (h3 : m < b)
    (h4 : b ≤ (split content '\n').length) :
    delimit ((between a m (split content '\n')).map Prod.fst) '\n' ++
        '\n' :: delimit ((between (m + 1) b (split content '\n')).map Prod.fst) '\n' =
      delimit ((between a b (split content '\n')).map Prod.fst) '\n' := by
  have hne₁ : between a m (split content '\n') ≠ [] := between_ne_nil h1 h2 (by omega)
  have hne₂ : between (m + 1) b (split content '\n') ≠ [] := between_ne_nil (by omega) h3 (by omega)
  rw [← between_append (Nat.le_succ_of_le h2) (Nat.le_of_lt h3), List.map_append]
  exact (intercalate_append '\n' (by simpa using hne₁) (by simpa using hne₂)).symm

/-- For `a` and `b` that fit in a word, `lines="a-b"` shows the lines of the file with
the numbers `a` to `b`, under these numbers. From 1 to the last line or beyond it, the
listing is that of the whole file; and a text that is shown in two parts is the two
parts with a newline between them. -/
theorem code_file_lines (page : Page) (params : Params) (res : Resource)
    (hres : page.Resources params.file = some res) (a b : Nat) (ha : a < 2 ^ 63) (hb : b < 2 ^ 63) :
    let N := (split res.Content '\n').length
    let shown := fun a b => listing page { params with lines := decimal a ++ '-' :: decimal b }
    Shows page params res.Content (decimal a) (decimal b) a b ∧
      (a = 1 → N ≤ b → shown a b = listing page { params with lines := [] }) ∧
      ∀ m, 1 ≤ a → a ≤ m → m < b → b ≤ N → ∃ l₁ l₂ l, shown a m = some l₁ ∧ shown (m + 1) b = some l₂ ∧
        shown a b = some l ∧ l₁.code ++ '\n' :: l₂.code = l.code := by
  intro N shown
  refine ⟨shows_range hres ha hb, ?_, ?_⟩
  · rintro rfl hN
    exact listing_range_all hres hb hN
  · intro m h1 h2 h3 h4
    obtain ⟨l₁, hl₁, hcode₁, -⟩ := listing_between hres ha (Nat.lt_trans h3 hb)
    obtain ⟨l₂, hl₂, hcode₂, -⟩ := listing_between hres (Nat.lt_of_le_of_lt h3 hb) hb
    obtain ⟨l, hl, hcode, -⟩ := listing_between hres ha hb
    refine ⟨l₁, l₂, l, hl₁, hl₂, hl, ?_⟩
    rw [hcode₁, hcode₂, hcode]
    exact text_append h1 h2 h3 h4

def tenLines : Str := "0\n1\n2\n3\n4\n5\n6\n7\n8\n9"

/-- A page with a file of ten lines. -/
def ten : Page := ⟨fun _ => some ⟨tenLines, "/notes/ten.txt"⟩, "notes/index.md", fun _ => none⟩

/-- From the ninth line to beyond the last one. -/
theorem code_file_lines_ten : Shows ten { file := "ten.txt" } tenLines "9" "12" 9 12 :=
  (code_file_lines ten { file := "ten.txt" } ⟨tenLines, "/notes/ten.txt"⟩ rfl 9 12 (by decide) (by decide)).1

/-- A number that does not fit in a word ends the rendering, and one with a zero in
front is octal: line 8 is shown for line 10. -/
theorem code_file_lines_ten_not :
    ¬ Shows ten { file := "ten.txt" } tenLines "1" "9223372036854775808" 1 9223372036854775808 ∧
      ¬ Shows ten { file := "ten.txt" } tenLines "010" "010" 10 10 := by
  constructor
  · rintro ⟨l, hl, -⟩
    have hnone : listing ten { file := "ten.txt", lines := "1-9223372036854775808" } = none := by decide
    cases hnone.symm.trans hl
  · rintro ⟨l, hl, hcode, -⟩
    have hseven : (listing ten { file := "ten.txt", lines := "010-010" }).map Listing.code = some ("7" : Str) := by
      decide
    have hnine : l.code = ("9" : Str) := hcode.trans (by decide)
    have heq := congrArg (Option.map Listing.code) hl
    rw [Option.map_some, hnine] at heq
    exact absurd (hseven.symm.trans heq) (by decide)

end SiteCode.CodeFile
