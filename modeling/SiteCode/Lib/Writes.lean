import Mathlib.Data.List.Basic
import Mathlib.Logic.Function.Basic
/-!
# Writes that others see one by one

A sequence of operations writes to the cells of a memory. Who reads a cell in between
sees the memory after some of the writes.
-/

namespace SiteCode.Lib

variable {κ α : Type*} [DecidableEq κ] {m : κ → α} {ws ws' : List (κ × α)} {c : κ} {P : α → Prop}

/-- The memory after writes. -/
def after (m : κ → α) (ws : List (κ × α)) : κ → α := ws.foldl (fun m w => Function.update m w.1 w.2) m

@[simp] theorem after_nil (m : κ → α) : after m [] = m := rfl

@[simp] theorem after_cons (m : κ → α) (w : κ × α) (ws : List (κ × α)) :
    after m (w :: ws) = after (Function.update m w.1 w.2) ws := rfl

theorem after_append (m : κ → α) (ws ws' : List (κ × α)) : after m (ws ++ ws') = after (after m ws) ws' :=
  List.foldl_append

theorem after_of_not_written (h : ∀ w ∈ ws, w.1 ≠ c) : after m ws c = m c := by
  induction ws generalizing m with
  | nil => rfl
  | cons w ws ih =>
    rw [after_cons, ih fun w hw => h w (List.mem_cons_of_mem _ hw),
      Function.update_of_ne (h w List.mem_cons_self).symm]

/-- A cell that is written once has its old or its new value at every moment. -/
theorem after_take_of_once (h : ws.countP (fun w => w.1 = c) ≤ 1) (i : Nat) :
    after m (ws.take i) c = m c ∨ after m (ws.take i) c = after m ws c := by
  induction ws generalizing m i with
  | nil => exact .inl (by rw [List.take_nil, after_nil])
  | cons w ws ih =>
    rcases i with _ | i
    · exact .inl rfl
    · rw [List.take_succ_cons, after_cons, after_cons]
      by_cases hw : w.1 = c
      · -- no further write to the cell
        have hnone : ∀ w' ∈ ws, w'.1 ≠ c := by
          rw [List.countP_cons_of_pos (by simpa using hw)] at h
          have hzero : ws.countP (fun w => w.1 = c) = 0 := by omega
          simpa using List.countP_eq_zero.1 hzero
        right
        rw [after_of_not_written hnone, after_of_not_written fun w' hw' => hnone w' (List.mem_of_mem_take hw')]
      · rw [List.countP_cons_of_neg (by simpa using hw)] at h
        have hkeep : Function.update m w.1 w.2 c = m c := Function.update_of_ne (Ne.symm hw) _ _
        have hrest := ih (m := Function.update m w.1 w.2) h i
        rwa [hkeep] at hrest

/-- Whenever the cell is read, its value has `P`. -/
def Throughout (P : α → Prop) (c : κ) (m : κ → α) (ws : List (κ × α)) : Prop := ∀ i, P (after m (ws.take i) c)

theorem Throughout.start (h : Throughout P c m ws) : P (m c) := h 0

theorem Throughout.end (h : Throughout P c m ws) : P (after m ws c) := by
  have hall := h ws.length
  rwa [List.take_length] at hall

theorem Throughout.append (h : Throughout P c m ws) (h' : Throughout P c (after m ws) ws') :
    Throughout P c m (ws ++ ws') := by
  intro i
  rw [List.take_append, after_append]
  by_cases hi : i ≤ ws.length
  · rw [Nat.sub_eq_zero_of_le hi]
    exact h i
  · rw [List.take_of_length_le (by omega)]
    exact h' _

theorem Throughout.of_once (hs : P (m c)) (he : P (after m ws c)) (h : ws.countP (fun w => w.1 = c) ≤ 1) :
    Throughout P c m ws := by
  intro i
  rcases after_take_of_once (m := m) h i with e | e
  · exact e ▸ hs
  · exact e ▸ he

theorem Throughout.of_not_written (hs : P (m c)) (h : ∀ w ∈ ws, w.1 ≠ c) : Throughout P c m ws := by
  intro i
  rw [after_of_not_written fun w hw => h w (List.mem_of_mem_take hw)]
  exact hs

/-- One write decides when the cell gets a value with `P`. -/
theorem Throughout.take_iff {w : κ × α} (h : Throughout (fun x => ¬ P x) c m ws)
    (h' : Throughout P c (after m (ws ++ [w])) ws') (i : Nat) :
    P (after m ((ws ++ w :: ws').take i) c) ↔ ws.length < i := by
  rw [List.take_append, after_append]
  rcases Nat.lt_or_ge ws.length i with hi | hi
  · obtain ⟨k, hk⟩ : ∃ k, i - ws.length = k + 1 := ⟨i - ws.length - 1, by omega⟩
    rw [List.take_of_length_le (Nat.le_of_lt hi), hk, List.take_succ_cons, after_cons]
    have hrest := h' k
    rw [after_append, after_cons, after_nil] at hrest
    exact iff_of_true hrest hi
  · rw [Nat.sub_eq_zero_of_le hi, List.take_zero, after_nil]
    exact iff_of_false (h i) (by omega)

end SiteCode.Lib
