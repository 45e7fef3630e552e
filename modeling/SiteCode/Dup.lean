import Mathlib.Data.Fintype.Basic
import Mathlib.Data.Nat.Nth
import SiteCode.Lib.Descriptors
/-!
# `dup.c`: standard output and error in files, and back

The program points descriptors 1 and 2 to two files, runs a command and points
them back to copies that it kept. No result is checked, so what a call does with
the number of an earlier call depends on which descriptors were free, and on which
calls succeeded.
-/

namespace SiteCode.Dup

open Lib FdTable

/-- A file of the table at entry, or the new file that `open` makes for a path. -/
inductive File (F : Type) where
  | inherited (f : F)
  | opened (path : String)
  deriving DecidableEq, Repr

/-- Which calls find a free descriptor, and what the command returns. -/
structure Outcome where
  open_out : Bool
  open_err : Bool
  dup_1 : Bool
  dup_2 : Bool
  status : Int

/-- `system(command)` runs in another process. -/
def system {F : Type} (status : Int) (_command : String) : StateM (FdTable F) Int := fun t => (status, t)

def main {F : Type} (o : Outcome) : StateM (FdTable (File F)) Unit := do
  let outfile := "outfile"
  let errfile := "errfile"
  let out ← open_ o.open_out (.opened outfile)
  let err ← open_ o.open_err (.opened errfile)
  let oldout ← dup o.dup_1 1
  let olderr ← dup o.dup_2 2
  let _ ← dup2 out 1
  let _ ← dup2 err 2
  let _ ← close out
  let _ ← close err
  let _status ← system o.status "ls"
  let _ ← dup2 oldout 1
  let _ ← dup2 olderr 2
  let _ ← close oldout
  let _ ← close olderr

/-- `main` up to the call of `system`: the numbers of the copies. -/
def redirect {F : Type} (o : Outcome) : StateM (FdTable (File F)) (Int × Int) := do
  let outfile := "outfile"
  let errfile := "errfile"
  let out ← open_ o.open_out (.opened outfile)
  let err ← open_ o.open_err (.opened errfile)
  let oldout ← dup o.dup_1 1
  let olderr ← dup o.dup_2 2
  let _ ← dup2 out 1
  let _ ← dup2 err 2
  let _ ← close out
  let _ ← close err
  return (oldout, olderr)

/-- `main` from the call of `system` on. -/
def restore {F : Type} (o : Outcome) (copies : Int × Int) : StateM (FdTable (File F)) Unit := do
  let _status ← system o.status "ls"
  let _ ← dup2 copies.1 1
  let _ ← dup2 copies.2 2
  let _ ← close copies.1
  let _ ← close copies.2

theorem main_eq {F : Type} (o : Outcome) : (main o : StateM (FdTable (File F)) Unit) = redirect o >>= restore o := rfl

/-- The table at entry. -/
def entry {F : Type} (t : FdTable F) : FdTable (File F) := t.map (·.map .inherited)

/-! ## When a descriptor is restored -/

/-- The closed descriptors below `fd`. -/
def closedBelow {F : Type} (t : FdTable F) (fd : Nat) : Nat :=
  ((List.range fd).filter fun i => (t.file i).isNone).length

/-- A descriptor that is open at entry needs its copy where it is redirected. One
that is closed must not be taken by `out` or `err` and then be copied; and where
they do not take it, it must not be redirected. -/
def Restores {F : Type} (o : Outcome) (t : FdTable F) (fd : Nat) (opened copied : Bool) : Prop :=
  if (t.file fd).isSome then opened → copied
  else if closedBelow t fd < o.open_out.toNat + o.open_err.toNat then ¬ copied else ¬ opened

instance {F : Type} (o : Outcome) (t : FdTable F) (fd : Nat) (opened copied : Bool) :
    Decidable (Restores o t fd opened copied) := inferInstanceAs (Decidable (ite _ _ _))

/-! ## The first three descriptors -/

/-- A table in which at most 0, 1 and 2 are open, on files of these names. -/
def small (open0 open1 open2 : Bool) : FdTable (Fin 3) :=
  [if open0 then some 0 else none, if open1 then some 1 else none, if open2 then some 2 else none]

/-- The descriptor `i` of `t'` is not as in `t`, whatever the files are. -/
def differs {F : Type} (t t' : FdTable (File F)) (i : Nat) : Bool :=
  match t.file i, t'.file i with
  | none, some _ | some _, none | some (.inherited _), some (.opened _) => true
  | _, _ => false

theorem small_check : ∀ open0 open1 open2 open_out open_err dup_1 dup_2 : Bool,
    let o : Outcome := ⟨open_out, open_err, dup_1, dup_2, 0⟩
    let t := small open0 open1 open2
    let t' := (main o (entry t)).2
    t'.length ≤ 7 ∧
      if Restores o t 1 open_out dup_1 ∧ Restores o t 2 open_err dup_2 then
        ∀ i < 7, t'.file i = (entry t).file i
      else ∃ i < 3, differs (entry t) t' i := by
  decide +kernel

/-! ## Any table -/

variable {F : Type} {o : Outcome} {t : FdTable F}

theorem file_entry (t : FdTable F) (i : Nat) : (entry t).file i = (t.file i).map .inherited := by
  induction t generalizing i with
  | nil => simp [entry]
  | cons f t ih => cases i with
    | zero => rfl
    | succ i => exact ih i

/-- The numbers that matter: 0, 1, 2 and the closed ones, in order. -/
noncomputable def numbers (t : FdTable F) : Nat → Nat := Nat.nth fun x => x < 3 ∨ t.file x = none

theorem numbers_infinite (t : FdTable F) : (Set.ofPred fun x => x < 3 ∨ t.file x = none).Infinite := by
  apply Set.infinite_of_forall_exists_gt
  intro n
  exact ⟨max t.length (n + 1), .inr (file_of_length_le (le_max_left _ _)), by simp⟩

theorem numbers_strictMono (t : FdTable F) : StrictMono (numbers t) := Nat.nth_strictMono (numbers_infinite t)

theorem mem_range_numbers {x : Nat} : x ∈ Set.range (numbers t) ↔ x < 3 ∨ t.file x = none := by
  rw [numbers, Nat.range_nth_of_infinite (numbers_infinite t)]
  rfl

theorem numbers_of_lt {i : Nat} (hi : i < 3) : numbers t i = i := by
  classical
  have hcount : Nat.count (fun x => x < 3 ∨ t.file x = none) i = i :=
    Nat.count_iff_forall.2 fun j hj => .inl (hj.trans hi)
  have hnth := Nat.nth_count (p := fun x => x < 3 ∨ t.file x = none) (n := i) (.inl hi)
  rwa [hcount] at hnth

theorem along_numbers {i : Nat} (hi : i < 3) : along (numbers t) i = i := by
  simp [along, numbers_of_lt hi]

theorem file_numbers_of_ge {i : Nat} (hi : 3 ≤ i) : t.file (numbers t i) = none := by
  have hle : i ≤ numbers t i := (numbers_strictMono t).le_apply
  have hmem : numbers t i < 3 ∨ t.file (numbers t i) = none := mem_range_numbers.1 ⟨i, rfl⟩
  exact hmem.resolve_left (by omega)

/-- The file that a name of a small table stands for. -/
def named (t : FdTable F) : File (Fin 3) → File F
  | .inherited i => ((t.file i).map .inherited).getD (.opened "")
  | .opened path => .opened path

/-- The small table of a table. -/
def smallOf (t : FdTable F) : FdTable (Fin 3) := small (t.file 0).isSome (t.file 1).isSome (t.file 2).isSome

theorem file_smallOf (t : FdTable F) : ∀ i : Fin 3, (smallOf t).file i = (t.file i).map fun _ => i := by
  intro i
  match i with
  | 0 => cases h : t.file 0 <;> simp [smallOf, small, file, h]
  | 1 => cases h : t.file 1 <;> simp [smallOf, small, file, h]
  | 2 => cases h : t.file 2 <;> simp [smallOf, small, file, h]

theorem file_smallOf_of_ge {i : Nat} (hi : 3 ≤ i) : (smallOf t).file i = none := file_of_length_le hi

theorem sim_entry (t : FdTable F) : Sim (numbers t) (named t) (entry t) (entry t) (entry (smallOf t)) := by
  refine ⟨fun i => ?_, fun _ _ => rfl⟩
  rw [file_entry, file_entry]
  by_cases hi : i < 3
  · have hfile := file_smallOf t ⟨i, hi⟩
    simp only at hfile
    rw [numbers_of_lt hi, hfile]
    cases h : t.file i <;> simp [named, h]
  · have hi : 3 ≤ i := Nat.not_lt.1 hi
    rw [file_numbers_of_ge hi, file_smallOf_of_ge hi]
    rfl

/-- Descriptors that no number reaches are open. -/
theorem entry_full (x : Nat) (hx : x ∉ Set.range (numbers t)) : (entry t).file x ≠ none := by
  rw [mem_range_numbers, not_or] at hx
  simpa [file_entry] using hx.2

theorem follows_system (status : Int) (command : String) : Follows (numbers t) (named t) (entry t) (fun _ _ => True)
    (system status command) (system 0 command) := fun _ _ hs => ⟨trivial, hs⟩

/-- Copies to descriptors 1 and 2. -/
theorem follows_dup2_to (fd : Int) {i : Nat} (hi : i < 3) :
    Follows (numbers t) (named t) (entry t) (fun fd fd' => fd = along (numbers t) fd')
      (dup2 (along (numbers t) fd) i) (dup2 fd i) := by
  have h := follows_dup2 (named t) (entry t) (numbers_strictMono t) fd i
  rwa [along_numbers hi] at h

/-- Copies of them. -/
theorem follows_dup_of (ok : Bool) {i : Nat} (hi : i < 3) :
    Follows (numbers t) (named t) (entry t) (fun fd fd' => fd = along (numbers t) fd') (dup ok i) (dup ok i) := by
  have h := follows_dup (g := named t) (numbers_strictMono t) entry_full ok i
  rwa [along_numbers hi] at h

/-- The calls before `system` on a table follow those on its small table. -/
theorem redirect_follows (o : Outcome) (t : FdTable F) :
    Follows (numbers t) (named t) (entry t)
      (fun copies copies' => copies = (along (numbers t) copies'.1, along (numbers t) copies'.2)) (redirect o)
      (redirect { o with status := 0 }) := by
  have he := numbers_strictMono t
  have hclose := fun fd => follows_close (named t) (entry t) he fd
  unfold redirect
  refine (follows_open he entry_full o.open_out (File.opened "outfile")).bind ?_
  rintro _ out rfl
  refine (follows_open he entry_full o.open_err (File.opened "errfile")).bind ?_
  rintro _ err rfl
  refine (follows_dup_of o.dup_1 (i := 1) (by decide)).bind ?_
  rintro _ oldout rfl
  refine (follows_dup_of o.dup_2 (i := 2) (by decide)).bind ?_
  rintro _ olderr rfl
  refine (follows_dup2_to out (i := 1) (by decide)).bind fun _ _ _ =>
    (follows_dup2_to err (i := 2) (by decide)).bind fun _ _ _ => (hclose out).bind fun _ _ _ =>
    (hclose err).bind fun _ _ _ => fun _ _ hs => ⟨rfl, hs⟩

/-- The program on a table follows the program on its small table. -/
theorem main_follows (o : Outcome) (t : FdTable F) :
    Follows (numbers t) (named t) (entry t) (fun _ _ => True) (main o) (main { o with status := 0 }) := by
  have hclose := fun fd => follows_close (named t) (entry t) (numbers_strictMono t) fd
  rw [main_eq, main_eq]
  refine (redirect_follows o t).bind ?_
  rintro _ ⟨oldout, olderr⟩ rfl
  refine (follows_system o.status "ls").bind fun _ _ _ => ?_
  refine (follows_dup2_to oldout (i := 1) (by decide)).bind fun _ _ _ =>
    (follows_dup2_to olderr (i := 2) (by decide)).bind fun _ _ _ => (hclose oldout).bind fun _ _ _ =>
    (hclose olderr).bind fun _ _ _ => fun _ _ hs => ⟨trivial, hs⟩

theorem isSome_file_smallOf {i : Nat} (hi : i < 3) : ((smallOf t).file i).isSome = (t.file i).isSome := by
  have hfile := file_smallOf t ⟨i, hi⟩
  simp only at hfile
  rw [hfile, Option.isSome_map]

theorem restores_smallOf {fd : Nat} (hfd : fd < 3) (opened copied : Bool) :
    Restores o (smallOf t) fd opened copied ↔ Restores o t fd opened copied := by
  have hbelow : closedBelow (smallOf t) fd = closedBelow t fd := by
    unfold closedBelow
    congr 1
    apply List.filter_congr
    intro i hi
    have hi : i < 3 := (List.mem_range.1 hi).trans hfd
    rw [← Option.not_isSome, ← Option.not_isSome, isSome_file_smallOf hi]
  unfold Restores
  rw [isSome_file_smallOf hfd, hbelow]

/-- The check of the small table of `t`. -/
theorem check_smallOf (o : Outcome) (t : FdTable F) :
    let t' := (main { o with status := 0 } (entry (smallOf t))).2
    t'.length ≤ 7 ∧
      if Restores o t 1 o.open_out o.dup_1 ∧ Restores o t 2 o.open_err o.dup_2 then
        ∀ i < 7, t'.file i = (entry (smallOf t)).file i
      else ∃ i < 3, differs (entry (smallOf t)) t' i := by
  have h1 : Restores o (smallOf t) 1 o.open_out o.dup_1 ↔ Restores o t 1 o.open_out o.dup_1 :=
    restores_smallOf (by decide) _ _
  have h2 : Restores o (smallOf t) 2 o.open_err o.dup_2 ↔ Restores o t 2 o.open_err o.dup_2 :=
    restores_smallOf (by decide) _ _
  simp only [← h1, ← h2]
  exact small_check (t.file 0).isSome (t.file 1).isSome (t.file 2).isSome o.open_out o.open_err o.dup_1 o.dup_2

/-- A descriptor that differs in the small table differs in the table. -/
theorem file_ne_of_differs {t' : FdTable (File (Fin 3))} {t₁ : FdTable (File F)} {i : Nat} (hi : i < 3)
    (hs : Sim (numbers t) (named t) (entry t) t₁ t') (hd : differs (entry (smallOf t)) t' i) :
    t₁.file i ≠ (entry t).file i := by
  have hfile := file_smallOf t ⟨i, hi⟩
  have hs' := hs.file i
  simp only at hfile
  rw [numbers_of_lt hi] at hs'
  rw [hs', file_entry]
  unfold differs at hd
  rw [file_entry, hfile] at hd
  cases ht : t.file i with
  | none =>
    cases ht' : t'.file i with
    | none => simp [ht, ht'] at hd
    | some f => simp
  | some f =>
    cases ht' : t'.file i with
    | none => simp
    | some f' =>
      cases f' with
      | inherited k => simp [ht, ht'] at hd
      | opened path => simp [named]

/-- Whatever is open at entry, and whichever calls succeed, the table at the end is
the table at entry exactly when descriptor 1 and descriptor 2 both meet `Restores`. -/
theorem dup_restores_iff (o : Outcome) (t : FdTable F) :
    (∀ i, (main o (entry t)).2.file i = (entry t).file i) ↔
      Restores o t 1 o.open_out o.dup_1 ∧ Restores o t 2 o.open_err o.dup_2 := by
  obtain ⟨-, hs⟩ := main_follows o t _ _ (sim_entry t)
  obtain ⟨hlen, hcheck⟩ := check_smallOf o t
  split at hcheck
  · rename_i hr
    refine ⟨fun _ => hr, fun _ i => ?_⟩
    by_cases hi : i ∈ Set.range (numbers t)
    · obtain ⟨j, rfl⟩ := hi
      rw [hs.file j, (sim_entry t).file j]
      by_cases h7 : j < 7
      · rw [hcheck j h7]
      · rw [file_of_length_le (hlen.trans (Nat.not_lt.1 h7)), file_entry, file_smallOf_of_ge (by omega)]
        rfl
    · exact hs.other i hi
  · rename_i hr
    obtain ⟨i, hi, hd⟩ := hcheck
    exact ⟨fun h => absurd (h i) (file_ne_of_differs hi hs hd), fun h => absurd h hr⟩

/-- Descriptor 1 ends on the new file when it was open and its copy failed, and
when it was closed and all calls succeed. -/
theorem dup_not_restored :
    (¬ ∀ i, (main ⟨true, true, false, true, 0⟩ (entry [some 0, some 1, some 2])).2.file i =
      (entry [some 0, some 1, some 2]).file i) ∧
    ¬ ∀ i, (main ⟨true, true, true, true, 0⟩ (entry [some 0, none, some 2])).2.file i =
      (entry [some 0, none, some 2]).file i :=
  ⟨fun h => absurd (h 1) (by decide), fun h => absurd (h 1) (by decide)⟩

end SiteCode.Dup
