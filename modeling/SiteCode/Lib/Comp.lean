import Mathlib.Data.Option.Basic
/-!
# Computations that may not return

A computation over a state returns a result and a state, or nothing. `Ensures`
is what holds if it returns. `Halts` is about a computation that is cut off at
some depth: it says that every depth from some point on gives the same answer.
-/

namespace SiteCode.Lib

variable {σ α β : Type} {s : σ}

/-! ## If it returns -/

/-- If `x` returns from `s`, its result and the state it leaves are in `Q`. -/
def Ensures (x : StateT σ Option α) (s : σ) (Q : α → σ → Prop) : Prop := ∀ a s', x.run s = some (a, s') → Q a s'

theorem Ensures.pure {a : α} {Q : α → σ → Prop} (h : Q a s) : Ensures (pure a) s Q := by
  intro a' s' he
  cases he
  exact h

theorem Ensures.bind {x : StateT σ Option α} {f : α → StateT σ Option β} {Q : α → σ → Prop} {R : β → σ → Prop}
    (hx : Ensures x s Q) (hf : ∀ a s', Q a s' → Ensures (f a) s' R) : Ensures (x >>= f) s R := by
  intro b s' h
  rw [StateT.run_bind] at h
  obtain ⟨⟨a, s₁⟩, h1, h2⟩ := Option.bind_eq_some_iff.1 h
  exact hf a s₁ (hx a s₁ h1) b s' h2

theorem Ensures.mono {x : StateT σ Option α} {Q R : α → σ → Prop} (hx : Ensures x s Q) (h : ∀ a s, Q a s → R a s) :
    Ensures x s R :=
  fun a s' he => h a s' (hx a s' he)

theorem Ensures.of_run {x : StateT σ Option α} {Q : α → σ → Prop} {a : α} {s' : σ} (h : x.run s = some (a, s'))
    (hQ : Q a s') : Ensures x s Q := by
  intro b t he
  rw [h] at he
  cases he
  exact hQ

/-- What never returns ensures everything. -/
theorem Ensures.of_none {x : StateT σ Option α} {Q : α → σ → Prop} (h : x.run s = none) : Ensures x s Q := by
  intro a s' he
  rw [h] at he
  cases he

theorem run_eq_none {x : StateT σ Option α} (h : Ensures x s fun _ _ => False) : x.run s = none :=
  Option.eq_none_iff_forall_ne_some.2 fun p he => h p.1 p.2 he

theorem run_bind_eq_none {x : StateT σ Option α} {f : α → StateT σ Option β} {Q : α → σ → Prop}
    (hx : Ensures x s Q) (hf : ∀ a s', Q a s' → (f a).run s' = none) : (x >>= f).run s = none :=
  run_eq_none (hx.bind fun a s' h => .of_none (hf a s' h))

/-! ## It returns at every sufficient depth -/

/-- From some depth on, `x` returns from `s` one result and state, which are in `Q`. -/
def Halts (x : Nat → StateT σ Option α) (s : σ) (Q : α → σ → Prop) : Prop :=
  ∃ a s', (∃ N, ∀ n, N ≤ n → (x n).run s = some (a, s')) ∧ Q a s'

theorem Halts.of_run {x : Nat → StateT σ Option α} {Q : α → σ → Prop} {a : α} {s' : σ}
    (h : ∀ n, (x n).run s = some (a, s')) (hQ : Q a s') : Halts x s Q :=
  ⟨a, s', ⟨0, fun n _ => h n⟩, hQ⟩

theorem Halts.pure {a : α} {Q : α → σ → Prop} (h : Q a s) : Halts (fun _ => pure a) s Q :=
  .of_run (fun _ => rfl) h

theorem Halts.bind {x : Nat → StateT σ Option α} {f : Nat → α → StateT σ Option β} {Q : α → σ → Prop}
    {R : β → σ → Prop} (hx : Halts x s Q) (hf : ∀ a s', Q a s' → Halts (fun n => f n a) s' R) :
    Halts (fun n => x n >>= f n) s R := by
  obtain ⟨a, s₁, ⟨N, h1⟩, hQ⟩ := hx
  obtain ⟨b, s', ⟨N', h2⟩, hR⟩ := hf a s₁ hQ
  refine ⟨b, s', ⟨max N N', fun n hn => ?_⟩, hR⟩
  rw [StateT.run_bind, h1 n (by omega)]
  exact h2 n (by omega)

/-- A first step that does not depend on the depth. -/
theorem Halts.step {x : StateT σ Option α} {f : Nat → α → StateT σ Option β} {R : β → σ → Prop} {a : α} {s' : σ}
    (hx : x.run s = some (a, s')) (hf : Halts (fun n => f n a) s' R) : Halts (fun n => x >>= f n) s R :=
  Halts.bind (Q := fun b t => b = a ∧ t = s') (.of_run (fun _ => hx) ⟨rfl, rfl⟩) fun _ _ h => h.1 ▸ h.2 ▸ hf

/-- It returns in `P`, and whatever returns at any depth is in `Q`. -/
theorem Halts.and {x : Nat → StateT σ Option α} {P Q : α → σ → Prop} (hx : Halts x s P)
    (h : ∀ n, Ensures (x n) s Q) : Halts x s fun a s' => Q a s' ∧ P a s' := by
  obtain ⟨a, s', ⟨N, hN⟩, hP⟩ := hx
  exact ⟨a, s', ⟨N, hN⟩, h N a s' (hN N (Nat.le_refl N)), hP⟩

/-- One level of depth less. -/
theorem Halts.succ {x : Nat → StateT σ Option α} {Q : α → σ → Prop} (h : Halts (fun n => x (n + 1)) s Q) :
    Halts x s Q := by
  obtain ⟨a, s', ⟨N, hN⟩, hQ⟩ := h
  refine ⟨a, s', ⟨N + 1, fun n hn => ?_⟩, hQ⟩
  obtain ⟨k, rfl⟩ : ∃ k, n = k + 1 := ⟨n - 1, by omega⟩
  exact hN k (by omega)

end SiteCode.Lib
