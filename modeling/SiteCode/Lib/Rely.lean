import Mathlib.Logic.Basic
/-!
# Programs among others

A program makes calls on a world on which others act as well: before each call they do
something, of which only the relation `R` is known. What `R` keeps is stable. A triple
says what a program does from a stable condition on, whatever the others do.
-/

namespace SiteCode.Lib.Rely

/-- A program that may end early with an `ε`. It is run with what the others do before
each of its calls, in a world and at the number of calls made. -/
abbrev Prog (σ ε : Type) := ReaderT (Nat → σ → σ) (ExceptT ε (StateM (σ × Nat)))

variable {σ ε α β : Type}

def Prog.run (x : Prog σ ε α) (others : Nat → σ → σ) (s : σ × Nat) : Except ε α × σ × Nat := x others s

/-- One call. -/
def call (f : σ → Except ε α × σ) : Prog σ ε α := fun others s =>
  let r := f (others s.2 s.1)
  (r.1, r.2, s.2 + 1)

def Stable (R : σ → σ → Prop) (P : σ → Prop) : Prop := ∀ w w', R w w' → P w → P w'

/-- The conditions on a normal and on an early end. -/
def Post (Q : α → σ → Prop) (E : ε → σ → Prop) (w : σ) : Except ε α → Prop
  | .ok a => Q a w
  | .error e => E e w

/-- From `P` on, `x` ends in `Q`, or early in `E`, among others that keep to `R`. -/
def Triple (R : σ → σ → Prop) (P : σ → Prop) (x : Prog σ ε α) (Q : α → σ → Prop) (E : ε → σ → Prop) : Prop :=
  ∀ others, (∀ k w, R w (others k w)) → ∀ s, P s.1 → Post Q E (x.run others s).2.1 (x.run others s).1

variable {R : σ → σ → Prop} {P P' : σ → Prop} {Q Q' : α → σ → Prop} {E : ε → σ → Prop} {x : Prog σ ε α}

theorem Triple.pure {a : α} (h : ∀ w, P w → Q a w) : Triple R P (Pure.pure a) Q E := fun _ _ s hs => h s.1 hs

theorem Triple.throw {e : ε} (h : ∀ w, P w → E e w) : Triple R P (MonadExcept.throw e) Q E := fun _ _ s hs => h s.1 hs

theorem Triple.bind {f : α → Prog σ ε β} {S : β → σ → Prop} (hx : Triple R P x Q E)
    (hf : ∀ a, Triple R (Q a) (f a) S E) :
    Triple R P (x >>= f) S E := by
  intro others ho s hs
  have h := hx others ho s hs
  have hrun : (x >>= f).run others s = match x.run others s with
      | (.ok a, s') => (f a).run others s'
      | (.error e, s') => (.error e, s') := by
    unfold Prog.run
    simp only [Bind.bind, ReaderT.bind, ExceptT.bind, ExceptT.mk, StateT.bind]
    rcases x others s with ⟨a | e, s'⟩ <;> rfl
  obtain ⟨r, s', hr⟩ : ∃ r s', x.run others s = (r, s') := ⟨_, _, rfl⟩
  rw [hr] at h
  rw [hrun, hr]
  cases r with
  | ok a => exact hf a others ho s' h
  | error e => exact h

/-- The others may act first, and the condition is stable. -/
theorem Triple.call {f : σ → Except ε α × σ} (hP : Stable R P) (hf : ∀ w, P w → Post Q E (f w).2 (f w).1) :
    Triple R P (call f) Q E :=
  fun _ ho s hs => hf _ (hP _ _ (ho s.2 s.1) hs)

theorem Triple.conseq {E' : ε → σ → Prop} (hx : Triple R P x Q E) (hP : ∀ w, P' w → P w)
    (hQ : ∀ a w, Q a w → Q' a w) (hE : ∀ e w, E e w → E' e w) : Triple R P' x Q' E' := by
  intro others ho s hs
  have h := hx others ho s (hP _ hs)
  cases hr : (x.run others s).1 with
  | ok a =>
    rw [hr] at h
    exact hQ a _ h
  | error e =>
    rw [hr] at h
    exact hE e _ h

/-- A weaker condition is enough. -/
theorem Triple.weaken (hx : Triple R P x Q E) (hP : ∀ w, P' w → P w) : Triple R P' x Q E :=
  hx.conseq hP (fun _ _ h => h) fun _ _ h => h

theorem Triple.ite {c : Prop} [Decidable c] {y : Prog σ ε α} (hx : c → Triple R P x Q E) (hy : ¬ c → Triple R P y Q E) :
    Triple R P (if c then x else y) Q E := by
  by_cases h : c
  · rw [if_pos h]
    exact hx h
  · rw [if_neg h]
    exact hy h

/-- A fact that holds of no particular world. -/
theorem Triple.fact {c : Prop} (h : c → Triple R P x Q E) : Triple R (fun w => c ∧ P w) x Q E :=
  fun others ho s hs => h hs.1 others ho s hs.2

theorem Triple.of_exists {ι : Type} {P : ι → σ → Prop} (h : ∀ i, Triple R (P i) x Q E) :
    Triple R (fun w => ∃ i, P i w) x Q E := fun others ho s ⟨i, hi⟩ => h i others ho s hi

theorem Triple.or (hP : Triple R P x Q E) (hP' : Triple R P' x Q E) : Triple R (fun w => P w ∨ P' w) x Q E :=
  fun others ho s hs => hs.elim (hP others ho s) (hP' others ho s)

end SiteCode.Lib.Rely
