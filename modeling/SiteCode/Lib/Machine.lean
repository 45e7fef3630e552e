import Mathlib.Data.Option.Basic
/-!
# Machines that step or fault
-/

namespace SiteCode.Lib

variable {σ : Type} {step : σ → Option σ} {s t u : σ}

/-- The state after `n` steps; `none` is a fault on the way. -/
def steps (step : σ → Option σ) : Nat → σ → Option σ
  | 0, s => some s
  | n + 1, s => (step s).bind (steps step n)

/-- What every step keeps holds after any run. -/
theorem steps_inv {I : σ → Prop} (hI : ∀ s t, I s → step s = some t → I t) (n : Nat) (hs : I s)
    (h : steps step n s = some t) : I t := by
  induction n generalizing s with
  | zero => cases h; exact hs
  | succ n ih =>
    obtain ⟨s₁, h1, h2⟩ := Option.bind_eq_some_iff.1 h
    exact ih (hI s s₁ hs h1) h2

/-- A run that faults gets to a state that faults. -/
theorem exists_fault (n : Nat) (h : steps step n s = none) :
    ∃ m < n, ∃ t, steps step m s = some t ∧ step t = none := by
  induction n generalizing s with
  | zero => cases h
  | succ n ih =>
    cases hs : step s with
    | none => exact ⟨0, by omega, s, rfl, hs⟩
    | some s₁ =>
      obtain ⟨m, hm, t, h1, h2⟩ := ih (s := s₁) (by simpa [steps, hs] using h)
      exact ⟨m + 1, by omega, t, by simpa [steps, hs] using h1, h2⟩

def Reaches (step : σ → Option σ) (s t : σ) : Prop := ∃ n, steps step n s = some t

theorem Reaches.refl (s : σ) : Reaches step s s := ⟨0, rfl⟩

theorem Reaches.head (h : step s = some t) (ht : Reaches step t u) : Reaches step s u := by
  obtain ⟨n, hn⟩ := ht
  exact ⟨n + 1, by simpa [steps, h] using hn⟩

theorem Reaches.trans (hs : Reaches step s t) (ht : Reaches step t u) : Reaches step s u := by
  obtain ⟨n, hn⟩ := hs
  induction n generalizing s with
  | zero => cases hn; exact ht
  | succ n ih =>
    obtain ⟨s₁, h1, h2⟩ := Option.bind_eq_some_iff.1 hn
    exact .head h1 (ih h2)

end SiteCode.Lib
