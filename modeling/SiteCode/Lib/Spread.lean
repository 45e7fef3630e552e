import Mathlib.Data.BitVec
import Mathlib.Data.Nat.ModEq
import Mathlib.Logic.Equiv.Fin.Basic
import Mathlib.SetTheory.Cardinal.Finite
/-!
# Functions that spread their arguments evenly

`Spreads f k`: every value is taken by exactly `k` arguments. Such functions compose,
and three functions on words are among them: a multiplication by an odd word, the top
bits of a word, and a half of a word mixed with any function of the other half.
-/

namespace SiteCode.Lib

variable {α β ι : Type} {w a b : Nat}

/-- Every value is taken by exactly `k` arguments. -/
def Spreads (f : α → ι) (k : Nat) : Prop := ∀ i, Nat.card {x // f x = i} = k

theorem spreads_of_bijective {f : α → ι} (hf : Function.Bijective f) : Spreads f 1 := by
  intro i
  obtain ⟨x, hx, hu⟩ := hf.existsUnique i
  exact Nat.card_eq_one_iff_exists.2 ⟨⟨x, hx⟩, fun y => Subtype.ext (hu y y.2)⟩

theorem spreads_fst : Spreads (Prod.fst : ι × β → ι) (Nat.card β) := by
  intro i
  exact Nat.card_congr ⟨fun p => p.1.2, fun y => ⟨(i, y), rfl⟩, by rintro ⟨⟨_, y⟩, rfl⟩; rfl, fun _ => rfl⟩

theorem spreads_snd : Spreads (Prod.snd : α × ι → ι) (Nat.card α) := by
  intro i
  exact Nat.card_congr ⟨fun p => p.1.1, fun x => ⟨(x, i), rfl⟩, by rintro ⟨⟨x, _⟩, rfl⟩; rfl, fun _ => rfl⟩

/-- The arguments of a composition, by the values of the inner function. -/
theorem Spreads.comp [Finite α] [Finite β] {f : α → β} {g : β → ι} {k l : Nat} (hg : Spreads g l)
    (hf : Spreads f k) : Spreads (g ∘ f) (l * k) := by
  intro i
  have e : {x // (g ∘ f) x = i} ≃ Σ y : {y // g y = i}, {x // f x = y} :=
    ⟨fun x => ⟨⟨f x, x.2⟩, x, rfl⟩, fun p => ⟨p.2.1, (congrArg g p.2.2).trans p.1.2⟩, fun _ => rfl,
      by rintro ⟨⟨y, hy⟩, x, hx⟩; revert hx; intro (hx : f x = y); subst hx; rfl⟩
  have : Fintype {y // g y = i} := Fintype.ofFinite _
  rw [Nat.card_congr e, Nat.card_sigma, Finset.sum_congr rfl fun y _ => hf y.1, Finset.sum_const, Finset.card_univ,
    ← Nat.card_eq_fintype_card, hg]
  rfl

/-! ## Words -/

theorem card_bitVec (w : Nat) : Nat.card (BitVec w) = 2 ^ w :=
  Nat.card_eq_of_equiv_fin BitVec.equivFin.toEquiv

instance finite_word : Finite (BitVec w) := Finite.of_equiv _ BitVec.equivFin.symm.toEquiv

/-- An odd word can be cancelled, since it shares no factor with the modulus. -/
theorem mul_odd_bijective {c : BitVec w} (hc : c.toNat % 2 = 1) : Function.Bijective fun x : BitVec w => x * c := by
  rw [← Finite.injective_iff_bijective]
  intro x y hxy
  have hco : Nat.Coprime (2 ^ w) c.toNat := by
    apply Nat.Coprime.pow_left
    rw [Nat.coprime_iff_gcd_eq_one, Nat.gcd_rec, hc, Nat.gcd_one_left]
  have hmod : x.toNat * c.toNat ≡ y.toNat * c.toNat [MOD 2 ^ w] := by
    have h := congrArg BitVec.toNat hxy
    simp only [BitVec.toNat_mul] at h
    exact h
  have hxy := Nat.ModEq.cancel_right_of_coprime hco hmod
  exact BitVec.eq_of_toNat_eq (Nat.ModEq.eq_of_lt_of_lt hxy x.isLt y.isLt)

/-- A word is its top `b` bits and the others. -/
def splitTop (h : b ≤ w) : BitVec w ≃ Fin (2 ^ b) × Fin (2 ^ (w - b)) :=
  BitVec.equivFin.toEquiv.trans
    ((finCongr (by rw [← pow_add, Nat.add_sub_cancel' h])).trans finProdFinEquiv.symm)

def top (h : b ≤ w) (x : BitVec w) : Fin (2 ^ b) := (splitTop h x).1

theorem val_top (h : b ≤ w) (x : BitVec w) : (top h x).val = (x >>> (w - b)).toNat := by
  rw [BitVec.toNat_ushiftRight, Nat.shiftRight_eq_div_pow]
  rfl

theorem spreads_top (h : b ≤ w) : Spreads (top h : BitVec w → _) (2 ^ (w - b)) := by
  have hsplit := spreads_of_bijective (splitTop h).bijective
  have := (spreads_fst (ι := Fin (2 ^ b)) (β := Fin (2 ^ (w - b)))).comp hsplit
  rwa [Nat.card_fin, Nat.mul_one] at this

/-- The low half of a word, mixed with a function of the high half. -/
def fold (g : BitVec a → BitVec b) (x : BitVec (a + b)) : BitVec b := x.setWidth b ^^^ g ((x >>> b).setWidth a)

theorem fold_bijective (g : BitVec a → BitVec b) :
    Function.Bijective fun x : BitVec (a + b) => ((x >>> b).setWidth a, fold g x) := by
  constructor
  · intro x y hxy
    obtain ⟨hhi, hlo⟩ := Prod.mk.inj hxy
    unfold fold at hlo
    rw [hhi] at hlo
    have hlo := BitVec.xor_left_inj _ |>.1 hlo
    ext i hi
    by_cases hib : i < b
    · have := congrArg (·.getLsbD i) hlo
      simpa [hib, hi, BitVec.getLsbD_eq_getElem] using this
    · have := congrArg (·.getLsbD (i - b)) hhi
      have hia : i - b < a := by omega
      have hbi : b + (i - b) = i := by omega
      simpa [hia, hbi, hi, BitVec.getLsbD_eq_getElem] using this
  · rintro ⟨h, l⟩
    refine ⟨h ++ (l ^^^ g h), ?_⟩
    have hhi : ((h ++ (l ^^^ g h)) >>> b).setWidth a = h := by
      ext i hi
      simp [BitVec.getLsbD_append, hi, BitVec.getLsbD_eq_getElem]
    have hlo : (h ++ (l ^^^ g h)).setWidth b = l ^^^ g h := by
      ext i hi
      simp [BitVec.getLsbD_append, hi, BitVec.getLsbD_eq_getElem]
    simp only [fold, hhi, hlo, BitVec.xor_assoc, BitVec.xor_self, BitVec.xor_zero]

theorem spreads_fold (g : BitVec a → BitVec b) : Spreads (fold g) (2 ^ a) := by
  have := (spreads_snd (α := BitVec a) (ι := BitVec b)).comp (spreads_of_bijective (fold_bijective g))
  rwa [card_bitVec, Nat.mul_one] at this

/-- Multiplying by an odd word and taking the top bits. -/
theorem spreads_mul_top {c : BitVec w} (hc : c.toNat % 2 = 1) (h : b ≤ w) :
    Spreads (fun x : BitVec w => top h (x * c)) (2 ^ (w - b)) := by
  have := (spreads_top h).comp (spreads_of_bijective (mul_odd_bijective hc))
  rwa [Nat.mul_one] at this

end SiteCode.Lib
