import Mathlib.Data.List.Nodup
/-!
# Chains of link cells

A chain starts in a cell. A cell either ends the chain or leads to a node, and
each node holds the cell from which the chain goes on. `leads c x` says what must
hold of a cell `c` that leads to `x` (with back pointers, that `x` knows `c`),
`ends c` what must hold of the last cell. The links of a chain are listed as
pairs, so that an edit can say which pairs it keeps.
-/

namespace SiteCode.Lib

variable {C N : Type*} {cell : N → C} {ends ends' : C → Prop} {leads leads' : C → N → Prop}

/-- The links of a chain from `c` through `xs`: each cell with the node it leads to. -/
def links (cell : N → C) : C → List N → List (C × N)
  | _, [] => []
  | c, x :: xs => (c, x) :: links cell (cell x) xs

/-- The cell behind the last node. -/
def endCell (cell : N → C) : C → List N → C
  | c, [] => c
  | _, x :: xs => endCell cell (cell x) xs

/-- The chain from `c` through `xs`, and there it ends. -/
structure Chain (cell : N → C) (ends : C → Prop) (leads : C → N → Prop) (c : C) (xs : List N) : Prop where
  link : ∀ p ∈ links cell c xs, leads p.1 p.2
  last : ends (endCell cell c xs)

@[simp] theorem links_nil (c : C) : links cell c [] = [] := rfl
@[simp] theorem links_cons (c : C) (x : N) (xs : List N) :
    links cell c (x :: xs) = (c, x) :: links cell (cell x) xs := rfl
@[simp] theorem endCell_nil (c : C) : endCell cell c [] = c := rfl
@[simp] theorem endCell_cons (c : C) (x : N) (xs : List N) :
    endCell cell c (x :: xs) = endCell cell (cell x) xs := rfl

@[simp] theorem endCell_append (c : C) (u v : List N) :
    endCell cell c (u ++ v) = endCell cell (endCell cell c u) v := by
  induction u generalizing c with
  | nil => rfl
  | cons x u ih => exact ih _

@[simp] theorem links_append (c : C) (u v : List N) :
    links cell c (u ++ v) = links cell c u ++ links cell (endCell cell c u) v := by
  induction u generalizing c with
  | nil => rfl
  | cons x u ih => simp [ih]

/-- A link goes from the first cell or the cell of a node, to a node. -/
theorem mem_links {c : C} {xs : List N} {p : C × N} (hp : p ∈ links cell c xs) :
    (p.1 = c ∨ ∃ y ∈ xs, p.1 = cell y) ∧ p.2 ∈ xs := by
  induction xs generalizing c with
  | nil => cases hp
  | cons x xs ih =>
    rcases List.mem_cons.1 hp with rfl | hp
    · exact ⟨.inl rfl, List.mem_cons_self⟩
    · obtain ⟨h | ⟨y, hy, h⟩, hm⟩ := ih hp
      · exact ⟨.inr ⟨x, List.mem_cons_self, h⟩, List.mem_cons_of_mem _ hm⟩
      · exact ⟨.inr ⟨y, List.mem_cons_of_mem _ hy, h⟩, List.mem_cons_of_mem _ hm⟩

theorem endCell_mem (c : C) (xs : List N) : endCell cell c xs = c ∨ ∃ y ∈ xs, endCell cell c xs = cell y := by
  induction xs generalizing c with
  | nil => exact .inl rfl
  | cons x xs ih =>
    rcases ih (cell x) with h | ⟨y, hy, h⟩
    · exact .inr ⟨x, List.mem_cons_self, h⟩
    · exact .inr ⟨y, List.mem_cons_of_mem _ hy, h⟩

/-- No link leaves from the cell behind the last node. -/
theorem endCell_not_mem_links (hc : Function.Injective cell) {c : C} {xs : List N} (hd : xs.Nodup)
    (hx : ∀ y ∈ xs, c ≠ cell y) : ∀ p ∈ links cell c xs, p.1 ≠ endCell cell c xs := by
  induction xs generalizing c with
  | nil => simp
  | cons x xs ih =>
    obtain ⟨hxs, hd'⟩ := List.nodup_cons.1 hd
    have hx' : ∀ y ∈ xs, cell x ≠ cell y := fun y hy e => hxs (hc e ▸ hy)
    intro p hp
    rcases List.mem_cons.1 hp with rfl | hp
    · rcases endCell_mem (cell x) xs with h | ⟨y, hy, h⟩
      · exact fun e => hx x List.mem_cons_self (e.trans h)
      · exact fun e => hx y (List.mem_cons_of_mem _ hy) (e.trans h)
    · exact ih hd' hx' p hp

theorem chain_cons {c : C} {x : N} {xs : List N} :
    Chain cell ends leads c (x :: xs) ↔ leads c x ∧ Chain cell ends leads (cell x) xs := by
  constructor
  · rintro ⟨h1, h2⟩
    exact ⟨h1 _ List.mem_cons_self, fun p hp => h1 p (List.mem_cons_of_mem _ hp), h2⟩
  · rintro ⟨h1, h2, h3⟩
    refine ⟨fun p hp => ?_, h3⟩
    rcases List.mem_cons.1 hp with rfl | hp
    · exact h1
    · exact h2 p hp

theorem chain_nil {c : C} : Chain cell ends leads c [] ↔ ends c :=
  ⟨fun h => h.last, fun h => ⟨by simp, h⟩⟩

/-- Only the links of a chain and its last cell matter. -/
theorem Chain.congr {c : C} {xs : List N} (h : Chain cell ends leads c xs)
    (ht : ∀ p ∈ links cell c xs, leads p.1 p.2 → leads' p.1 p.2)
    (he : ends (endCell cell c xs) → ends' (endCell cell c xs)) : Chain cell ends' leads' c xs :=
  ⟨fun p hp => ht p hp (h.link p hp), he h.last⟩

/-- The link to a node in the middle. -/
theorem Chain.to_mid {c : C} {u v : List N} {x : N} (h : Chain cell ends leads c (u ++ x :: v)) :
    leads (endCell cell c u) x :=
  h.link (endCell cell c u, x) (by simp)

/-- What a cell in the middle holds: the link to the next node, or the end. -/
theorem Chain.suffix {c : C} {u v : List N} (h : Chain cell ends leads c (u ++ v)) :
    Chain cell ends leads (endCell cell c u) v :=
  ⟨fun p hp => h.link p (by simp [hp]), by have := h.last; rwa [endCell_append] at this⟩

/-- The stretch `w` of a chain is replaced by `ys`. The links from the gap up to the
first node behind it must stand; every other link, and the end if it is behind the
gap, must be kept. -/
theorem Chain.resew (hinj : Function.Injective cell) {c : C} {u w v ys : List N}
    (hc : Chain cell ends leads c (u ++ w ++ v)) (hd : (u ++ v).Nodup) (hcell : ∀ y, c ≠ cell y)
    (hseam : ∀ p ∈ links cell (endCell cell c u) (ys ++ v.take 1), leads' p.1 p.2)
    (hend : v = [] → ends' (endCell cell (endCell cell c u) ys))
    (hl : ∀ s x, s ≠ endCell cell c u → (s = c ∨ ∃ y ∈ u ++ v, s = cell y) → x ∈ u ++ v → x ∉ v.take 1 →
      leads s x → leads' s x)
    (he : ∀ y ∈ v, ends (cell y) → ends' (cell y)) : Chain cell ends' leads' c (u ++ ys ++ v) := by
  obtain ⟨hdu, hdv, huv⟩ := List.nodup_append.1 hd
  have hu : ∀ p ∈ links cell c u, leads' p.1 p.2 := by
    intro p hp
    obtain ⟨h1, h2⟩ := mem_links hp
    refine hl p.1 p.2 (endCell_not_mem_links hinj hdu (fun y _ => hcell y) p hp) ?_
      (List.mem_append_left _ h2) (fun hm => huv _ h2 _ (List.mem_of_mem_take hm) rfl) (hc.link p (by simp [hp]))
    exact h1.imp id fun ⟨y, hy, e⟩ => ⟨y, List.mem_append_left _ hy, e⟩
  cases v with
  | nil =>
    rw [List.take_nil, List.append_nil] at hseam
    refine ⟨fun p hp => ?_, ?_⟩
    · rw [List.append_nil, links_append] at hp
      exact (List.mem_append.1 hp).elim (hu p) (hseam p)
    · rw [List.append_nil, endCell_append]; exact hend rfl
  | cons z v =>
    -- A cell of the part behind the gap is not the one in front of it.
    have hne : ∀ y ∈ z :: v, cell y ≠ endCell cell c u := by
      intro y hy e
      rcases endCell_mem c u with e' | ⟨y', hy', e'⟩
      · exact hcell y (e'.symm.trans e.symm)
      · exact huv y' hy' y hy (hinj (e'.symm.trans e.symm))
    have hz : Chain cell ends leads (cell z) v := by
      rw [List.append_assoc] at hc
      exact (chain_cons.1 hc.suffix.suffix).2
    have e : u ++ ys ++ z :: v = u ++ ((ys ++ [z]) ++ v) := by simp
    rw [e]
    refine ⟨fun p hp => ?_, ?_⟩
    · simp only [links_append (u := u), links_append (u := ys ++ [z]), List.mem_append] at hp
      rcases hp with hp | hp | hp
      · exact hu p hp
      · exact hseam p hp
      · rw [endCell_append, endCell_cons, endCell_nil] at hp
        obtain ⟨h1, h2⟩ := mem_links hp
        obtain ⟨y, hy, ey⟩ : ∃ y ∈ z :: v, p.1 = cell y := h1.elim (fun e => ⟨z, List.mem_cons_self, e⟩)
          fun ⟨y, hy, e⟩ => ⟨y, List.mem_cons_of_mem _ hy, e⟩
        refine hl p.1 p.2 (ey ▸ hne y hy) (.inr ⟨y, List.mem_append_right _ hy, ey⟩)
          (List.mem_append_right _ (List.mem_cons_of_mem _ h2)) ?_ (hz.link p hp)
        rw [List.take_succ_cons, List.take_zero, List.mem_singleton]
        rintro e; exact (List.nodup_cons.1 hdv).1 (e ▸ h2)
    · simp only [endCell_append, endCell_cons, endCell_nil]
      rcases endCell_mem (cell z) v with e | ⟨y, hy, e⟩
      · rw [e]; exact he z List.mem_cons_self (e ▸ hz.last)
      · rw [e]; exact he y (List.mem_cons_of_mem _ hy) (e ▸ hz.last)

end SiteCode.Lib
