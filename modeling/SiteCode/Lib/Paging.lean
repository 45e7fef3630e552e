import Mathlib.Data.BitVec
import Mathlib.Data.Nat.Basic
/-!
# Page arithmetic on machine words

A word `x` is the base of its page and its offset in the page, `x / ps * ps` and
`x - x / ps * ps` for a page size `ps`. Neither step overflows; and when the page
size divides the size of the address space, a base plus an offset does not either.
-/

namespace SiteCode.Lib

variable {w : Nat} {x a o ps : BitVec w}

theorem toNat_page_base (x ps : BitVec w) : (x / ps * ps).toNat = x.toNat / ps.toNat * ps.toNat := by
  have hle : x.toNat / ps.toNat * ps.toNat ≤ x.toNat := Nat.div_mul_le_self _ _
  rw [BitVec.toNat_mul, BitVec.toNat_udiv, Nat.mod_eq_of_lt (hle.trans_lt x.isLt)]

theorem toNat_page_offset (x ps : BitVec w) : (x - x / ps * ps).toNat = x.toNat % ps.toNat := by
  have hle : x.toNat / ps.toNat * ps.toNat ≤ x.toNat := Nat.div_mul_le_self _ _
  have hdiv : x.toNat / ps.toNat * ps.toNat + x.toNat % ps.toNat = x.toNat := Nat.div_add_mod' _ _
  rw [BitVec.toNat_sub_of_le (by rw [BitVec.le_def, toNat_page_base]; exact hle), toNat_page_base]
  omega

theorem page_base_add_offset (x ps : BitVec w) : x / ps * ps + (x - x / ps * ps) = x := by
  rw [BitVec.add_comm, BitVec.sub_add_cancel]

section
variable (hps : ps.toNat ∣ 2 ^ w) (ha : ps.toNat ∣ a.toNat) (ho : o.toNat < ps.toNat)
include hps ha ho

/-- An aligned word and an offset in a page do not wrap around. -/
theorem toNat_add_page_offset : (a + o).toNat = a.toNat + o.toNat := by
  obtain ⟨c, hc⟩ := hps
  obtain ⟨b, hb⟩ := ha
  have hlt : b < c := by
    have := a.isLt
    rw [hc, hb] at this
    exact Nat.lt_of_mul_lt_mul_left this
  have hle : ps.toNat * (b + 1) ≤ ps.toNat * c := Nat.mul_le_mul_left _ hlt
  rw [BitVec.toNat_add, Nat.mod_eq_of_lt]
  rw [hc, hb]
  rw [Nat.mul_add, Nat.mul_one] at hle
  omega

theorem page_base_add : (a + o) / ps * ps = a := by
  apply BitVec.eq_of_toNat_eq
  rw [toNat_page_base, toNat_add_page_offset hps ha ho]
  obtain ⟨b, hb⟩ := ha
  rw [hb, Nat.mul_add_div (by omega), Nat.div_eq_of_lt ho, Nat.add_zero, Nat.mul_comm]

theorem page_offset_add : (a + o) - (a + o) / ps * ps = o := by
  rw [page_base_add hps ha ho, BitVec.add_comm, BitVec.add_sub_cancel]

end

/-- Counting from an aligned word on, the pages are the same. -/
theorem page_base_sub (hps : ps.toNat ∣ 2 ^ w) (hpos : 0 < ps.toNat) (ha : ps.toNat ∣ a.toNat) (x : BitVec w) :
    x / ps * ps - a = (x - a) / ps * ps := by
  have halign : ps.toNat ∣ (x / ps * ps - a).toNat := by
    rw [BitVec.toNat_sub, Nat.dvd_mod_iff hps, toNat_page_base]
    exact Nat.dvd_add (Nat.dvd_sub hps ha) (Nat.dvd_mul_left _ _)
  have hoff : (x - x / ps * ps).toNat < ps.toNat := by
    rw [toNat_page_offset]
    exact Nat.mod_lt _ hpos
  have hx : x - a = (x / ps * ps - a) + (x - x / ps * ps) := (sub_add_sub_cancel' (x / ps * ps) a x).symm
  rw [hx, page_base_add hps halign hoff]

end SiteCode.Lib
