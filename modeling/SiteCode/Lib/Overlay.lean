import Mathlib.Data.List.Basic
/-!
# A partial function under pieces

Pieces lie over a partial function `base`. Where a piece covers an argument it gives the
value. Pieces that cover no argument together can be taken away in any order.
-/

namespace SiteCode.Lib

variable {A B P : Type} {covers : P → A → Bool} {value : P → A → B} {base : A → Option B} {ps : List P} {p : P} {a : A}

def overlay (covers : P → A → Bool) (value : P → A → B) (base : A → Option B) (ps : List P) (a : A) : Option B :=
  match ps.find? (covers · a) with
  | some p => some (value p a)
  | none => base a

/-- No argument is covered by two pieces. -/
def Apart (covers : P → A → Bool) (ps : List P) : Prop := ps.Pairwise fun p q => ∀ a, covers p a → ¬ covers q a

theorem overlay_cons (a : A) : overlay covers value base (p :: ps) a =
    if covers p a then some (value p a) else overlay covers value base ps a := by
  unfold overlay
  by_cases h : covers p a <;> simp [h]

theorem overlay_of_not_covered (h : ∀ p ∈ ps, ¬ covers p a) : overlay covers value base ps a = base a := by
  unfold overlay
  rw [List.find?_eq_none.2 h]

theorem not_covered_of_overlay (h : overlay covers value base ps a = none) : ∀ p ∈ ps, ¬ covers p a := by
  unfold overlay at h
  split at h
  · cases h
  · next hnone => exact List.find?_eq_none.1 hnone

theorem overlay_of_covers (hps : Apart covers ps) (hp : p ∈ ps) (h : covers p a) :
    overlay covers value base ps a = some (value p a) := by
  induction ps with
  | nil => cases hp
  | cons q ps ih =>
    obtain ⟨hq, hps⟩ := List.pairwise_cons.1 hps
    rw [overlay_cons]
    rcases List.mem_cons.1 hp with rfl | hp
    · rw [if_pos h]
    · have hqa : ¬ covers q a := fun hqa => hq p hp a hqa h
      rw [if_neg hqa, ih hps hp]

/-- Taking away a piece gives back what is under it. -/
theorem overlay_erase [DecidableEq P] (hps : Apart covers ps) (hp : p ∈ ps) (a : A) :
    overlay covers value base (ps.erase p) a = if covers p a then base a else overlay covers value base ps a := by
  induction ps with
  | nil => cases hp
  | cons q ps ih =>
    obtain ⟨hq, hps⟩ := List.pairwise_cons.1 hps
    by_cases hqp : q = p
    · subst hqp
      rw [List.erase_cons_head, overlay_cons]
      by_cases ha : covers q a
      · rw [if_pos ha, overlay_of_not_covered fun r hr hra => hq r hr a ha hra]
      · rw [if_neg ha, if_neg ha]
    · have hp : p ∈ ps := (List.mem_cons.1 hp).resolve_left (Ne.symm hqp)
      rw [List.erase_cons_tail (by simpa using hqp), overlay_cons, overlay_cons, ih hps hp]
      by_cases ha : covers p a
      · have hqa : ¬ covers q a := fun hqa => hq p hp a hqa ha
        simp [ha, hqa]
      · simp [ha]

end SiteCode.Lib
