import Mathlib.Data.List.TakeWhile
/-!
# `popen.c`: copying what a command prints

The loop reads a line, or 79 bytes of one, and prints it up to its first zero byte. So
it copies text as it is; a zero byte takes the rest of what was read with it away.
-/

namespace SiteCode.Popen

/-- `'\n'` -/
def newline : UInt8 := 10

/-- The bytes that `fgets` stores with room for so many, and what is left in the stream. -/
def fgets_from : (room : Nat) → List UInt8 → List UInt8 × List UInt8
  | 0, s => ([], s)
  | _ + 1, [] => ([], [])
  | room + 1, b :: s =>
    if b = newline then ([b], s)
    else
      let (line, s) := fgets_from room s
      (b :: line, s)

/-- `fgets(s, size, stream)`: NULL at the end of the stream. -/
def fgets (size : Nat) (stream : List UInt8) : Option (List UInt8 × List UInt8) :=
  if stream = [] then none else some (fgets_from (size - 1) stream)

/-- `fputs(s, stream)` of a buffer, which ends at its first zero. -/
def fputs (s stream : List UInt8) : List UInt8 := stream ++ s.takeWhile (· ≠ 0)

/-- The processing loop: the output, or `none` if it is not over after `fuel` tests. -/
def copy : (fuel : Nat) → (pipein_fp stdout : List UInt8) → Option (List UInt8)
  | 0, _, _ => none
  | fuel + 1, pipein_fp, stdout =>
    match fgets 80 pipein_fp with
    | none => some stdout
    | some (readbuf, pipein_fp) => copy fuel pipein_fp (fputs readbuf stdout)

/-- How the process ends: its status, its output, and the call that it complains about. -/
structure Result where
  status : Int
  stdout : List UInt8
  perror : Option String
  deriving DecidableEq, Repr

/-- The whole program, on what the command prints, or on a `popen` that fails. -/
def main (fuel : Nat) (popen : Option (List UInt8)) : Option Result :=
  match popen with
  | none => some ⟨1, [], some "popen"⟩
  | some pipein_fp => (copy fuel pipein_fp []).map fun stdout => ⟨0, stdout, none⟩

/-! ## One line -/

variable {room : Nat} {s u v : List UInt8}

/-- What is read and what is left are the stream. -/
theorem fgets_from_append (room : Nat) (s : List UInt8) : (fgets_from room s).1 ++ (fgets_from room s).2 = s := by
  induction s generalizing room with
  | nil => cases room <;> rfl
  | cons b s ih =>
    cases room with
    | zero => rfl
    | succ room =>
      unfold fgets_from
      split
      · rfl
      · simp [ih]

theorem fgets_from_length_lt (hs : s ≠ []) : (fgets_from (room + 1) s).2.length < s.length := by
  obtain ⟨b, t, rfl⟩ := List.exists_cons_of_ne_nil hs
  unfold fgets_from
  split
  · exact Nat.lt_succ_self _
  · have hlen := congrArg List.length (fgets_from_append room t)
    rw [List.length_append] at hlen
    simp only [List.length_cons]
    omega

/-- A stream that ends in a newline, or is at its end. -/
def Lines (u : List UInt8) : Prop := u = [] ∨ u.getLast? = some newline

theorem Lines.of_cons {b : UInt8} (h : Lines (b :: u)) (hb : b ≠ newline) : u ≠ [] ∧ Lines u := by
  cases u with
  | nil => exact absurd (by simpa [Lines] using h) hb
  | cons c u => exact ⟨by simp, by simpa [Lines] using h⟩

/-- Reading does not go beyond a newline. -/
theorem fgets_from_lines (room : Nat) (hu : Lines u) (hne : u ≠ []) (v : List UInt8) :
    fgets_from room (u ++ v) = ((fgets_from room u).1, (fgets_from room u).2 ++ v) ∧ Lines (fgets_from room u).2 := by
  induction u generalizing room with
  | nil => exact absurd rfl hne
  | cons b u ih =>
    cases room with
    | zero => exact ⟨rfl, hu⟩
    | succ room =>
      by_cases hb : b = newline
      · simp only [List.cons_append, fgets_from, if_pos hb, true_and]
        cases u with
        | nil => exact .inl rfl
        | cons c u => exact .inr (by simpa [Lines] using hu)
      · obtain ⟨hne', hu'⟩ := hu.of_cons hb
        obtain ⟨h1, h2⟩ := ih room hu' hne'
        simp only [List.cons_append, fgets_from, if_neg hb, h1]
        exact ⟨trivial, h2⟩

/-! ## The loop -/

/-- What the loop prints of a stream. -/
def output (s : List UInt8) : List UInt8 :=
  if s = [] then []
  else (fgets_from 79 s).1.takeWhile (· ≠ 0) ++ output (fgets_from 79 s).2
termination_by s.length
decreasing_by exact fgets_from_length_lt ‹_›

theorem output_nil : output [] = [] := by
  rw [output, if_pos rfl]

theorem output_of_ne (hs : s ≠ []) :
    output s = (fgets_from 79 s).1.takeWhile (· ≠ 0) ++ output (fgets_from 79 s).2 := by
  rw [output, if_neg hs]

theorem copy_eq (s out : List UInt8) {fuel : Nat} (hf : s.length < fuel) :
    copy fuel s out = some (out ++ output s) := by
  induction fuel generalizing s out with
  | zero => cases hf
  | succ fuel ih =>
    unfold copy fgets
    by_cases hs : s = []
    · simp [hs, output_nil]
    · have hlt : (fgets_from 79 s).2.length < s.length := fgets_from_length_lt hs
      rw [if_neg hs, output_of_ne hs, ← List.append_assoc]
      exact ih _ _ (Nat.lt_of_lt_of_le hlt (Nat.le_of_lt_succ hf))

/-- Induction along the lines that are read. -/
theorem lines_induction {C : List UInt8 → Prop} (nil : C []) (line : ∀ s, s ≠ [] → C (fgets_from 79 s).2 → C s)
    (s : List UInt8) : C s := by
  induction hn : s.length using Nat.strong_induction_on generalizing s with
  | _ n ih =>
    by_cases hs : s = []
    · exact hs ▸ nil
    · exact line s hs (ih _ (hn ▸ fgets_from_length_lt hs) _ rfl)

theorem output_sublist (s : List UInt8) : (output s).Sublist s := by
  induction s using lines_induction with
  | nil => simp [output_nil]
  | line s hs ih =>
    rw [output_of_ne hs]
    have hsub := ((List.takeWhile_sublist (· ≠ 0)).append ih : List.Sublist _ ((fgets_from 79 s).1 ++ _))
    rwa [fgets_from_append] at hsub

theorem takeWhile_eq_self_iff_not_mem : s.takeWhile (· ≠ 0) = s ↔ 0 ∉ s := by
  rw [List.takeWhile_eq_self_iff]
  constructor
  · exact fun h h0 => absurd (h 0 h0) (by simp)
  · intro h b hb
    have hne : b ≠ 0 := fun e => h (e ▸ hb)
    simpa using hne

/-- Nothing is lost exactly if there is no zero. -/
theorem output_eq_iff (s : List UInt8) : output s = s ↔ 0 ∉ s := by
  induction s using lines_induction with
  | nil => simp [output_nil]
  | line s hs ih =>
    have hsplit := fgets_from_append 79 s
    rw [output_of_ne hs]
    constructor
    · intro h
      have hline := (List.takeWhile_sublist (p := (· ≠ 0)) (l := (fgets_from 79 s).1)).length_le
      have hrest := (output_sublist (fgets_from 79 s).2).length_le
      have hlen := congrArg List.length (h.trans hsplit.symm)
      rw [List.length_append, List.length_append] at hlen
      have h1 := (List.takeWhile_sublist (p := (· ≠ 0)) (l := (fgets_from 79 s).1)).eq_of_length (by omega)
      have h2 := (output_sublist (fgets_from 79 s).2).eq_of_length (by omega)
      rw [← hsplit, List.mem_append, not_or]
      exact ⟨takeWhile_eq_self_iff_not_mem.1 h1, ih.1 h2⟩
    · intro h
      rw [← hsplit, List.mem_append, not_or] at h
      rw [takeWhile_eq_self_iff_not_mem.2 h.1, ih.2 h.2, hsplit]

/-- Lines are copied one by one. -/
theorem output_append (hu : Lines u) (v : List UInt8) : output (u ++ v) = output u ++ output v := by
  induction u using lines_induction with
  | nil => rw [output_nil, List.nil_append, List.nil_append]
  | line u hne ih =>
    obtain ⟨h1, h2⟩ := fgets_from_lines 79 hu hne v
    rw [output_of_ne (by simp [hne]), h1, ih h2, output_of_ne hne, List.append_assoc]

/-- The loop ends on whatever the command prints. It prints all of it exactly if no
byte is zero, and never anything else or in another order; and each line is copied no
matter what the lines in front of it are. -/
theorem popen_copies : ∃ output : List UInt8 → List UInt8,
    (∀ input fuel, input.length < fuel → main fuel (some input) = some ⟨0, output input, none⟩) ∧
    (∀ input, output input = input ↔ 0 ∉ input) ∧ (∀ input, (output input).Sublist input) ∧
    ∀ u v, u.getLast? = some newline → output (u ++ v) = output u ++ output v := by
  refine ⟨output, fun input fuel hf => ?_, output_eq_iff, output_sublist, fun u v hu => output_append (.inr hu) v⟩
  rw [main, copy_eq input [] hf]
  rfl

end SiteCode.Popen
