import SiteCode.Dup
/-!
# `dup.c`: where the command writes

The note takes `dup.c` as a run of `ls` whose standard output is a file. The command
inherits the table as it is when `system` is called, and this is what it looks like.
-/

namespace SiteCode.Dup

open Lib FdTable

variable {F : Type} {o : Outcome} {t : FdTable F}

/-- What the command inherits from a small table. -/
theorem redirect_check : ∀ open0 open1 open2 open_out open_err dup_1 dup_2 : Bool,
    let c := (redirect ⟨open_out, open_err, dup_1, dup_2, 0⟩ (entry (small open0 open1 open2))).2
    (c.file 1 = some (.opened "outfile") ∧ c.file 2 = some (.opened "errfile") ↔
      open_out ∧ open_err ∧ open1 ∧ open2) ∧
    (open1 → open2 → c.file 1 = some (if open_out then .opened "outfile" else .inherited 1) ∧
      c.file 2 = some (if open_err then .opened "errfile" else .inherited 2)) ∧
    (open0 → c.file 0 = some (.inherited 0)) := by
  decide +kernel

theorem named_inherited {k : Fin 3} {f : F} (hk : t.file k = some f) : named t (.inherited k) = .inherited f := by
  simp [named, hk]

/-- Only the name of a new file stands for a new file. -/
theorem named_eq_opened {path : String} (hpath : path ≠ "") {f : File (Fin 3)} :
    named t f = .opened path ↔ f = .opened path := by
  cases f with
  | inherited k => cases h : t.file k <;> simp [named, h, hpath.symm]
  | opened path' => simp [named]

/-- The files of the copies of the calls, through the small table. -/
theorem file_redirect (o : Outcome) (t : FdTable F) {i : Nat} (hi : i < 3) :
    (redirect o (entry t)).2.file i =
      ((redirect { o with status := 0 } (entry (smallOf t))).2.file i).map (named t) := by
  obtain ⟨-, hs⟩ := redirect_follows o t _ _ (sim_entry t)
  have hfile := hs.file i
  rwa [numbers_of_lt hi] at hfile

theorem file_redirect_opened (o : Outcome) (t : FdTable F) {i : Nat} (hi : i < 3) {path : String}
    (hpath : path ≠ "") :
    (redirect o (entry t)).2.file i = some (.opened path) ↔
      (redirect { o with status := 0 } (entry (smallOf t))).2.file i = some (.opened path) := by
  rw [file_redirect o t hi, Option.map_eq_some_iff]
  constructor
  · rintro ⟨f, hf, hnamed⟩
    rw [hf, (named_eq_opened hpath).1 hnamed]
  · exact fun hf => ⟨_, hf, rfl⟩

/-- A descriptor that no number reaches is open on the same file. -/
theorem file_redirect_of_ge (o : Outcome) (t : FdTable F) {i : Nat} (hi : 3 ≤ i) (hopen : (t.file i).isSome) :
    (redirect o (entry t)).2.file i = (entry t).file i := by
  obtain ⟨-, hs⟩ := redirect_follows o t _ _ (sim_entry t)
  refine hs.other i fun hmem => ?_
  rcases mem_range_numbers.1 hmem with hlt | hnone
  · omega
  · simp [hnone] at hopen

theorem file_redirect_inherited (o : Outcome) (t : FdTable F) (k : Fin 3) (hopen : (t.file k).isSome)
    (hsmall : (redirect { o with status := 0 } (entry (smallOf t))).2.file k = some (.inherited k)) :
    (redirect o (entry t)).2.file k = (entry t).file k := by
  obtain ⟨f, hf⟩ := Option.isSome_iff_exists.1 hopen
  rw [file_redirect o t k.isLt, hsmall, file_entry, hf]
  exact congrArg some (named_inherited hf)

/-- Whatever is open at entry, and whichever calls succeed, `system` runs its command
with descriptors 1 and 2 on the two new files exactly when both files could be made
and 1 and 2 were open. If they were open, each is left as it was when its file could
not be made, whether the copies could be made or not; and every other descriptor that
was open is as it was. -/
theorem dup_redirects_iff (o : Outcome) (t : FdTable F) :
    let c := (redirect o (entry t)).2
    (c.file 1 = some (.opened "outfile") ∧ c.file 2 = some (.opened "errfile") ↔
      o.open_out ∧ o.open_err ∧ (t.file 1).isSome ∧ (t.file 2).isSome) ∧
    ((t.file 1).isSome → (t.file 2).isSome →
      c.file 1 = (if o.open_out then some (.opened "outfile") else (entry t).file 1) ∧
      c.file 2 = if o.open_err then some (.opened "errfile") else (entry t).file 2) ∧
    ∀ i, i ≠ 1 → i ≠ 2 → (t.file i).isSome → c.file i = (entry t).file i := by
  intro c
  obtain ⟨hboth, hopen, hzero⟩ := redirect_check (t.file 0).isSome (t.file 1).isSome (t.file 2).isSome
    o.open_out o.open_err o.dup_1 o.dup_2
  refine ⟨?_, fun h1 h2 => ?_, fun i hi1 hi2 hi => ?_⟩
  · rw [file_redirect_opened o t (by decide) (by decide), file_redirect_opened o t (by decide) (by decide)]
    exact hboth
  · obtain ⟨hout, herr⟩ := hopen h1 h2
    constructor
    · split
      · rename_i ho
        rw [if_pos ho] at hout
        exact (file_redirect_opened o t (by decide) (by decide)).2 hout
      · rename_i ho
        rw [if_neg ho] at hout
        exact file_redirect_inherited o t 1 h1 hout
    · split
      · rename_i ho
        rw [if_pos ho] at herr
        exact (file_redirect_opened o t (by decide) (by decide)).2 herr
      · rename_i ho
        rw [if_neg ho] at herr
        exact file_redirect_inherited o t 2 h2 herr
  · by_cases h3 : 3 ≤ i
    · exact file_redirect_of_ge o t h3 hi
    · obtain rfl : i = 0 := by omega
      exact file_redirect_inherited o t 0 hi (hzero hi)

end SiteCode.Dup
