import SiteCode.CodeFile
/-!
# `code-file.html`: what any attributes give

A call of the shortcode reads a range of lines out of its `lines` attribute, or fails,
and then shows that range. Without the attribute the range is the whole file.
-/

namespace SiteCode.CodeFile

open Lib Hugo

/-! ## What a call asks for -/

/-- The numbers of the first and the last line, from the parts around the first dashes.
A part that is not there is 0. -/
def requested (page : Page) (content lines : Str) : Except Error (Nat × Nat) :=
  if lines = [] then .ok (1, (split content '\n').length)
  else do
    let parts := split lines '-'
    let a ← int page.otherInt (index parts 0)
    let b ← int page.otherInt (index parts 1)
    return (a.toNat, b.toNat)

/-- The rows for a range: its lines with their numbers, and an empty row if there are none. -/
def rangeRows (linenos : Str) (content : Str) (a b : Nat) : List (Option Int × Str) :=
  let number := fun k : Nat => if linenos = "false" then none else some (k : Int)
  let selected := between a b (split content '\n')
  if selected = [] then [(number (max a 1), [])] else selected.map fun (line, k) => (number k, line)

/-- The box around the listing. -/
def box (params : Params) (res : Resource) : Option Header :=
  if default_ "true" params.header = "true" then
    some ⟨language params, res.RelPermalink, params.file, if params.lines ≠ [] then some params.lines else none⟩
  else none

/-! ## Reading the range -/

/-- The range is read, and then its lines are selected. -/
theorem select_requested (page : Page) (raw lines : Str) (hl : lines ≠ []) (optsSlice : List Str) :
    match requested page raw lines with
    | .error e => select page raw lines optsSlice = .error e
    | .ok (a, b) => a < 2 ^ 63 ∧ select page raw lines optsSlice =
      .ok (delimit ((between a b (split raw '\n')).map Prod.fst) '\n',
        if 1 < a then append (printf "lineNoStart=%d" a) optsSlice else optsSlice) := by
  unfold requested
  rw [if_neg hl]
  cases hi : int page.otherInt (index (split lines '-') 0) with
  | error e => simp [select, hi, bind, Except.bind]
  | ok i =>
    cases hj : int page.otherInt (index (split lines '-') 1) with
    | error e => simp [select, hi, hj, bind, Except.bind]
    | ok j =>
      simp only [hi, hj, bind, Except.bind, pure, Except.pure]
      have hlt := int_lt hi
      exact ⟨by omega, select_eq raw optsSlice hi hj⟩

/-! ## Showing it -/

theorem highlight_ok {code lang opts : Str} {l : Listing} (h : highlight code lang opts = .ok l) :
    l.code = code ∧ l.lang = lang := by
  have hlast : ∀ options, (lineNoStart options >>= fun start => pure (⟨code, lang, options, start⟩ : Listing)) =
      (.ok l : Except Error Listing) → l.code = code ∧ l.lang = lang := by
    intro options h
    cases hstart : lineNoStart options with
    | error e =>
      rw [hstart] at h
      cases h
    | ok start =>
      rw [hstart] at h
      cases h
      exact ⟨rfl, rfl⟩
  unfold highlight at h
  by_cases ho : opts = []
  · rw [if_pos ho] at h
    exact hlast [] h
  · rw [if_neg ho] at h
    cases hoptions : (split opts ',').mapM option with
    | error e =>
      rw [hoptions] at h
      cases h
    | ok options =>
      rw [hoptions] at h
      exact hlast options h

/-- Without numbers the options are fixed. -/
theorem highlight_plain (code lang : Str) (a : Nat) : highlight code lang (delimit (numbering "false" a) ',') =
    .ok ⟨code, lang, [("lineNos", "false"), ("noClasses", "false")], 1⟩ := rfl

/-- A listing of the lines `a` to `b`, with the options for it, has the rows of that range. -/
theorem rows_of_highlight {content lang linenos : Str} {a b : Nat} {l : Listing} (ha : a < 2 ^ 63)
    (hl : highlight (delimit ((between a b (split content '\n')).map Prod.fst) '\n') lang
      (delimit (numbering linenos a) ',') = .ok l) : l.rows = rangeRows linenos content a b := by
  have hcode := (highlight_ok hl).1
  have hsplit : split l.code '\n' =
      if between a b (split content '\n') = [] then [[]] else (between a b (split content '\n')).map Prod.fst := by
    rw [hcode]
    split
    · rename_i hnil
      rw [hnil]
      rfl
    · rename_i hne
      exact splitOn_between hne
  unfold rangeRows
  by_cases hoff : linenos = "false"
  · subst hoff
    have hplain := Except.ok.inj ((highlight_plain _ _ a).symm.trans hl)
    have hnos : l.lineNos = false := by
      rw [← hplain]
      rfl
    unfold Listing.rows
    simp only [hnos, hsplit, if_pos, Bool.false_eq_true, if_false]
    split
    · rfl
    · have hnone : (fun p : Str × Nat => ((none : Option Int), p.1)) = (fun line => (none, line)) ∘ Prod.fst := rfl
      rw [hnone, ← List.map_map, ← List.map_map, List.zipIdx_map_fst]
  · obtain ⟨l', hl', -, hnumbers⟩ :=
      highlight_numbering (delimit ((between a b (split content '\n')).map Prod.fst) '\n')
      lang linenos ha
    obtain rfl := Except.ok.inj (hl'.symm.trans hl)
    obtain ⟨hnos, hstart⟩ := hnumbers hoff
    simp only [if_neg hoff]
    split
    · rename_i hnil
      rw [if_pos hnil] at hsplit
      unfold Listing.rows
      simp [hsplit, hnos, hstart]
    · rename_i hne
      exact rows_eq hne hcode hnos hstart

theorem display_box (params : Params) (res : Resource) {content : Str} {opts : List Str} {l : Listing}
    (hl : highlight content (language params)
      (delimit (if params.linenos = "false" then ["lineNos=false", "noClasses=false"] else opts) ',') = .ok l) :
    display params res content opts = .ok (.code (box params res) l) := by
  unfold language at hl
  unfold display box
  simp only [hl, bind, Except.bind, pure, Except.pure]
  split <;> rfl

/-- A range is shown in its rows. -/
theorem display_range (params : Params) (res : Resource) {a b : Nat} (ha : a < 2 ^ 63) :
    ∃ l, display params res (delimit ((between a b (split res.Content '\n')).map Prod.fst) '\n') (startingAt a) =
        .ok (.code (box params res) l) ∧
      l.lang = language params ∧ l.rows = rangeRows params.linenos res.Content a b := by
  obtain ⟨l, hl, -⟩ := highlight_numbering (delimit ((between a b (split res.Content '\n')).map Prod.fst) '\n')
    (language params) params.linenos ha
  exact ⟨l, display_box params res hl, (highlight_ok hl).2, rows_of_highlight ha hl⟩

/-- Without a second part no line is shown. -/
example : requested ten tenLines "5" = .ok (5, 0) := by decide

end SiteCode.CodeFile
