import Mathlib.Data.List.Chain
import Mathlib.Data.List.Nodup
/-!
# Rings of links

A circular doubly linked structure is a pair of link maps. We say when a list
of nodes is linked both ways, when it closes to a ring, and what an edit of the
links between two nodes does to a ring. All pointer surgery is one lemma,
`Ring.resew`: a stretch of the ring is replaced by another one, and every link
outside the two seams is kept.
-/

namespace SiteCode.Lib

variable {α : Type*} {next prev next' prev' : α → α}

/-- `b` follows `a`, seen from both sides. -/
def Linked (next prev : α → α) (a b : α) : Prop := next a = b ∧ prev b = a

/-- Consecutive nodes of the list are linked both ways. -/
abbrev Links (next prev : α → α) (l : List α) : Prop := l.IsChain (Linked next prev)

/-- The ring that leaves `h`, passes `xs` and returns to `h`. -/
def Ring (next prev : α → α) (h : α) (xs : List α) : Prop := Links next prev (h :: (xs ++ [h]))

/-! ## Ends of a stretch -/

/-- The last node of `h :: u`: what precedes the gap behind `u`. -/
def lastOf (h : α) (u : List α) : α := (h :: u).getLast (by simp)

/-- The first node of `v ++ [h]`: what follows the gap before `v`. -/
def headOf (v : List α) (h : α) : α := (v ++ [h]).head (by simp)

@[simp] theorem lastOf_nil (h : α) : lastOf h [] = h := rfl
@[simp] theorem lastOf_concat (h x : α) (u : List α) : lastOf h (u ++ [x]) = x := by
  simp [lastOf]
@[simp] theorem headOf_nil (h : α) : headOf [] h = h := rfl
@[simp] theorem headOf_cons (h x : α) (v : List α) : headOf (x :: v) h = x := rfl

theorem lastOf_cons (h x : α) (u : List α) : lastOf h (x :: u) = lastOf x u := by
  simp [lastOf]

theorem lastOf_mem (h : α) (u : List α) : lastOf h u ∈ h :: u := List.getLast_mem _

theorem headOf_mem (v : List α) (h : α) : headOf v h ∈ h :: v := by
  cases v <;> simp

theorem lastOf_mem_of_ne_nil {u : List α} (hu : u ≠ []) (h : α) : lastOf h u ∈ u := by
  obtain ⟨t, x, rfl⟩ := List.eq_nil_or_concat u |>.resolve_left hu
  simp

theorem headOf_mem_of_ne_nil {v : List α} (hv : v ≠ []) (h : α) : headOf v h ∈ v := by
  obtain ⟨x, t, rfl⟩ := List.exists_cons_of_ne_nil hv
  simp

/-! ## Links -/

/-- Links read `next` of every node but the last and `prev` of every node but
the first. -/
theorem Links.congr {l : List α} (hl : Links next prev l) (hn : ∀ a ∈ l.dropLast, next' a = next a)
    (hp : ∀ b ∈ l.tail, prev' b = prev b) : Links next' prev' l := by
  induction l with
  | nil => exact .nil
  | cons a l ih =>
    cases l with
    | nil => exact .singleton _
    | cons b l =>
      simp only [List.isChain_cons_cons] at hl ⊢
      refine ⟨⟨?_, ?_⟩, ih hl.2 (fun x hx => hn x ?_) (fun x hx => hp x ?_)⟩
      · rw [hn a (by simp), hl.1.1]
      · rw [hp b (by simp), hl.1.2]
      · simp only [List.dropLast_cons_of_ne_nil (List.cons_ne_nil b l), List.mem_cons]
        exact .inr hx
      · exact List.mem_of_mem_tail hx

/-- A ring cut at a gap: the stretch before it, the seam, the stretch after. -/
theorem ring_append {h : α} {u v : List α} : Ring next prev h (u ++ v) ↔
    Links next prev (h :: u) ∧ Linked next prev (lastOf h u) (headOf v h) ∧ Links next prev (v ++ [h]) := by
  have e : h :: ((u ++ v) ++ [h]) = (h :: u) ++ (v ++ [h]) := by simp
  rw [Ring, e, Links, List.isChain_append, List.getLast?_eq_some_getLast (List.cons_ne_nil h u),
    List.head?_eq_some_head (by simp : v ++ [h] ≠ [])]
  simp only [Option.mem_def, Option.some.injEq, forall_eq']
  exact and_congr_right fun _ => and_comm

theorem ring_nil {h : α} : Ring next prev h [] ↔ next h = h ∧ prev h = h := by
  simp [Ring, Linked]

theorem Ring.seam {h : α} {u v : List α} (hr : Ring next prev h (u ++ v)) :
    Linked next prev (lastOf h u) (headOf v h) := (ring_append.1 hr).2.1

theorem Ring.next_head {h : α} {xs : List α} (hr : Ring next prev h xs) : next h = headOf xs h :=
  (Ring.seam (u := []) hr).1

theorem Ring.prev_head {h : α} {xs : List α} (hr : Ring next prev h xs) : prev h = lastOf h xs :=
  (Ring.seam (v := []) (by simpa using hr)).2

theorem Ring.next_mem {h n : α} {u v : List α} (hr : Ring next prev h (u ++ n :: v)) : next n = headOf v h := by
  have := (Ring.seam (u := u ++ [n]) (v := v) (by simpa using hr)).1
  rwa [lastOf_concat] at this

theorem Ring.prev_mem {h n : α} {u v : List α} (hr : Ring next prev h (u ++ n :: v)) : prev n = lastOf h u :=
  hr.seam.2

/-- The nodes strictly inside a ring are linked. -/
theorem Ring.links {h : α} {xs : List α} (hr : Ring next prev h xs) : Links next prev xs :=
  (List.IsChain.tail hr).left_of_append

/-- A ring reads the links of its own nodes only. -/
theorem Ring.congr {h : α} {xs : List α} (hr : Ring next prev h xs) (hn : ∀ a ∈ h :: xs, next' a = next a)
    (hp : ∀ b ∈ h :: xs, prev' b = prev b) : Ring next' prev' h xs := by
  refine Links.congr hr (fun a ha => hn a ?_) (fun b hb => hp b ?_)
  · rw [← List.cons_append, List.dropLast_concat] at ha
    exact ha
  · simp only [List.tail_cons, List.mem_append, List.mem_singleton] at hb
    exact List.mem_cons.2 hb.symm

/-! ## Surgery -/

theorem lastOf_not_mem_dropLast {h : α} {u : List α} (hd : (h :: u).Nodup) : lastOf h u ∉ (h :: u).dropLast := by
  have e := List.dropLast_append_getLast (List.cons_ne_nil h u)
  rw [← e, List.nodup_append] at hd
  intro hm
  exact hd.2.2 _ hm _ (List.mem_singleton_self _) rfl

theorem headOf_not_mem_tail {h : α} {v : List α} (hd : (h :: v).Nodup) : headOf v h ∉ (v ++ [h]).tail := by
  cases v with
  | nil => simp
  | cons x v =>
    simp only [List.nodup_cons, List.mem_cons, not_or] at hd
    simp only [headOf_cons, List.cons_append, List.tail_cons, List.mem_append, List.mem_singleton, not_or]
    exact ⟨hd.2.1, fun e => hd.1.1 e.symm⟩

/-- The stretch `w` of a ring is replaced by `ys`. The new stretch must be linked to
both ends of the gap; outside the gap only `next` of the node before it and `prev` of
the node behind it may change. -/
theorem Ring.resew {h : α} {u w v ys : List α} (hr : Ring next prev h (u ++ w ++ v))
    (hd : (h :: (u ++ v)).Nodup) (hy : Links next' prev' (lastOf h u :: (ys ++ [headOf v h])))
    (hn : ∀ a ∈ h :: (u ++ v), a ≠ lastOf h u → next' a = next a)
    (hp : ∀ b ∈ h :: (u ++ v), b ≠ headOf v h → prev' b = prev b) : Ring next' prev' h (u ++ ys ++ v) := by
  have hdu : (h :: u).Nodup := hd.sublist (by simp)
  have hdv : (h :: v).Nodup := hd.sublist (by simp)
  have huv : ∀ a ∈ h :: u, a ∉ v := by
    rw [← List.cons_append, List.nodup_append] at hd
    exact fun a ha hv => hd.2.2 a ha a hv rfl
  have hu : Links next' prev' (h :: u) := by
    rw [List.append_assoc] at hr
    refine (ring_append.1 hr).1.congr (fun a ha => hn a ?_ ?_) (fun b hb => hp b ?_ ?_)
    · have := List.dropLast_subset _ ha
      simp only [List.mem_cons, List.mem_append] at this ⊢; tauto
    · rintro rfl; exact lastOf_not_mem_dropLast hdu ha
    · simp only [List.tail_cons] at hb; simp [hb]
    · rintro rfl
      simp only [List.tail_cons] at hb
      rcases List.mem_cons.1 (headOf_mem v h) with e | hv
      · rw [e] at hb; exact (List.nodup_cons.1 hdu).1 hb
      · exact huv _ (List.mem_cons_of_mem _ hb) hv
  have hv : Links next' prev' (v ++ [h]) := by
    refine (ring_append.1 hr).2.2.congr (fun a ha => hn a ?_ ?_) (fun b hb => hp b ?_ ?_)
    · rw [List.dropLast_concat] at ha; simp [ha]
    · rw [List.dropLast_concat] at ha
      rintro rfl; exact huv _ (lastOf_mem h u) ha
    · have := List.mem_of_mem_tail hb
      simp only [List.mem_append, List.mem_cons] at this ⊢; tauto
    · rintro rfl; exact headOf_not_mem_tail hdv hb
  cases ys with
  | nil =>
    rw [List.append_nil]
    exact ring_append.2 ⟨hu, by simpa using hy, hv⟩
  | cons y ys =>
    rw [List.append_assoc]
    simp only [List.cons_append, List.isChain_cons_cons] at hy
    refine ring_append.2 ⟨hu, hy.1, ?_⟩
    rw [List.append_assoc, Links, List.isChain_append]
    rw [← List.cons_append, List.isChain_append] at hy
    refine ⟨hy.2.1, hv, fun x hx z hz => hy.2.2.2 x hx z ?_⟩
    rw [List.head?_eq_some_head (by simp : v ++ [h] ≠ [])] at hz
    exact hz

/-- The links inside a stretch stay when only its outer ends are rewritten. -/
theorem Links.inner_congr {h : α} {xs : List α} (hl : Links next prev xs) (hd : (h :: xs).Nodup)
    (hn : ∀ a ∈ xs, a ≠ lastOf h xs → next' a = next a)
    (hp : ∀ b ∈ xs, b ≠ headOf xs h → prev' b = prev b) : Links next' prev' xs := by
  rcases eq_or_ne xs [] with rfl | hx
  · exact .nil
  refine hl.congr (fun a ha => hn a (List.dropLast_subset _ ha) ?_)
    fun b hb => hp b (List.mem_of_mem_tail hb) ?_
  · rintro rfl
    apply lastOf_not_mem_dropLast hd
    rw [List.dropLast_cons_of_ne_nil hx]
    exact List.mem_cons_of_mem _ ha
  · rintro rfl
    apply headOf_not_mem_tail hd
    rw [List.tail_append_of_ne_nil hx]
    exact List.mem_append_left _ hb

/-- A nonempty stretch between two nodes. -/
theorem links_between {h x z : α} {ys : List α} (hy : ys ≠ []) (h₁ : Linked next prev x (headOf ys h))
    (hl : Links next prev ys) (h₂ : Linked next prev (lastOf h ys) z) : Links next prev (x :: (ys ++ [z])) := by
  obtain ⟨y, t, rfl⟩ := List.exists_cons_of_ne_nil hy
  rw [Links, List.cons_append, List.isChain_cons_cons, ← List.cons_append, List.isChain_append]
  refine ⟨h₁, hl, .singleton _, fun a ha b hb => ?_⟩
  rw [List.getLast?_eq_some_getLast hy, Option.mem_def, Option.some.injEq] at ha
  rw [List.head?_cons, Option.mem_def, Option.some.injEq] at hb
  subst ha hb
  exact h₂

/-! ## Mutual inverses and the other direction -/

/-- Around a ring, `prev` undoes `next` and `next` stays on the ring. -/
theorem Ring.prev_next {h : α} {xs : List α} (hr : Ring next prev h xs) :
    ∀ a ∈ h :: xs, next a ∈ h :: xs ∧ prev (next a) = a := by
  intro a ha
  obtain ⟨u, v, e, ea⟩ : ∃ u v, xs = u ++ v ∧ lastOf h u = a := by
    rcases List.mem_cons.1 ha with rfl | hx
    · exact ⟨[], xs, rfl, rfl⟩
    · obtain ⟨u, v, rfl⟩ := List.append_of_mem hx
      exact ⟨u ++ [a], v, by simp, lastOf_concat _ _ _⟩
  subst e ea
  obtain ⟨hn, hp⟩ := hr.seam
  rw [hn, hp]
  refine ⟨?_, rfl⟩
  have := headOf_mem v h
  simp only [List.mem_cons, List.mem_append] at this ⊢; tauto

/-- Read backwards, a ring is a ring. -/
theorem Ring.reverse {h : α} {xs : List α} (hr : Ring next prev h xs) : Ring prev next h xs.reverse := by
  have e : h :: (xs.reverse ++ [h]) = (h :: (xs ++ [h])).reverse := by simp
  rw [Ring, e, Links, List.isChain_reverse]
  exact hr.imp fun a b hab => hab.symm

theorem Ring.next_prev {h : α} {xs : List α} (hr : Ring next prev h xs) :
    ∀ a ∈ h :: xs, prev a ∈ h :: xs ∧ next (prev a) = a := by
  intro a ha
  have := hr.reverse.prev_next a (by simpa using ha)
  simpa using this

/-- The order of its nodes determines the links of a ring. -/
theorem Ring.next_ext {h : α} {xs : List α} (hr : Ring next prev h xs) (hr' : Ring next' prev' h xs) :
    ∀ a ∈ h :: xs, next' a = next a := by
  intro a ha
  rcases List.mem_cons.1 ha with rfl | hx
  · rw [hr.next_head, hr'.next_head]
  · obtain ⟨u, v, rfl⟩ := List.append_of_mem hx
    rw [hr.next_mem, hr'.next_mem]

theorem Ring.ext {h : α} {xs : List α} (hr : Ring next prev h xs) (hr' : Ring next' prev' h xs) :
    ∀ a ∈ h :: xs, next' a = next a ∧ prev' a = prev a := by
  intro a ha
  exact ⟨hr.next_ext hr' a ha, hr.reverse.next_ext hr'.reverse a (by simpa using ha)⟩

/-! ## Round and round -/

theorem Ring.iterate_mem {h : α} {xs : List α} (hr : Ring next prev h xs) {a : α} (ha : a ∈ h :: xs) (i : Nat) :
    next^[i] a ∈ h :: xs := by
  induction i with
  | zero => exact ha
  | succ i ih =>
    rw [Function.iterate_succ_apply']
    exact (hr.prev_next _ ih).1

/-- From the head over a gap. -/
theorem Ring.iterate_head {h : α} {u v : List α} (hr : Ring next prev h (u ++ v)) :
    next^[u.length + 1] h = headOf v h := by
  induction u using List.reverseRecOn generalizing v with
  | nil => exact hr.next_head
  | append_singleton u x ih =>
    have hr' : Ring next prev h (u ++ x :: v) := by simpa using hr
    have hx : next^[u.length + 1] h = x := ih hr'
    rw [List.length_append, List.length_singleton, Function.iterate_succ_apply', hx, hr'.next_mem]

theorem Ring.exists_iterate_head {h : α} {xs : List α} (hr : Ring next prev h xs) {a : α} (ha : a ∈ h :: xs) :
    ∃ i ≤ xs.length, next^[i] h = a := by
  rcases List.mem_cons.1 ha with rfl | ha
  · exact ⟨0, Nat.zero_le _, rfl⟩
  · obtain ⟨u, v, rfl⟩ := List.append_of_mem ha
    exact ⟨u.length + 1, by simp, hr.iterate_head⟩

/-- A walk that does not stop gets from every node of a ring to every node. -/
theorem Ring.exists_iterate {h : α} {xs : List α} (hr : Ring next prev h xs) {a b : α} (ha : a ∈ h :: xs)
    (hb : b ∈ h :: xs) : ∃ i, next^[i] a = b := by
  obtain ⟨i, hi, rfl⟩ := hr.exists_iterate_head ha
  obtain ⟨j, -, rfl⟩ := hr.exists_iterate_head hb
  have hround : next^[xs.length + 1] h = h := Ring.iterate_head (v := []) (by simpa using hr)
  refine ⟨j + (xs.length + 1 - i), ?_⟩
  have hsum : j + (xs.length + 1 - i) + i = j + (xs.length + 1) := by omega
  rw [← Function.iterate_add_apply, hsum, Function.iterate_add_apply, hround]

/-! ## Walking a ring -/

/-- The loop `for (pos = ..; pos != stop; pos = step pos)`: the positions it
visits, or `none` when it needs more than `fuel` tests. -/
def walk [DecidableEq α] (step : α → α) (stop : α) : (fuel : Nat) → (pos : α) → Option (List α)
  | 0, _ => none
  | fuel + 1, pos => if pos = stop then some [] else (walk step stop fuel (step pos)).map (pos :: ·)

theorem walk_links [DecidableEq α] {h : α} {xs : List α} (hl : Links next prev (xs ++ [h])) (hx : h ∉ xs)
    {fuel : Nat} (hf : xs.length < fuel) : walk next h fuel (headOf xs h) = some xs := by
  induction xs generalizing fuel with
  | nil =>
    obtain ⟨fuel, rfl⟩ := Nat.exists_eq_add_of_lt hf
    simp [walk]
  | cons x xs ih =>
    obtain ⟨fuel, rfl⟩ := Nat.exists_eq_add_of_lt hf
    simp only [List.mem_cons, not_or] at hx
    rw [List.cons_append, Links, List.isChain_cons] at hl
    have hn : next x = headOf xs h :=
      (hl.1 _ (List.head?_eq_some_head (by simp : xs ++ [h] ≠ []))).1
    simp only [headOf_cons, walk, Ne.symm hx.1, if_false]
    rw [hn, ih hl.2 hx.2 (by simp; omega)]
    rfl

/-- A walk from the middle of a ring visits what is behind. -/
theorem Ring.walk_from [DecidableEq α] {h : α} {u v : List α} (hr : Ring next prev h (u ++ v)) (hv : h ∉ v)
    {fuel : Nat} (hf : v.length < fuel) : walk next h fuel (headOf v h) = some v :=
  walk_links (ring_append.1 hr).2.2 hv hf

/-- A walk along `next` from the head visits the ring in order. -/
theorem Ring.walk_next [DecidableEq α] {h : α} {xs : List α} (hr : Ring next prev h xs) (hx : h ∉ xs)
    {fuel : Nat} (hf : xs.length < fuel) : walk next h fuel (next h) = some xs := by
  rw [hr.next_head]
  exact walk_links (List.IsChain.tail hr) hx hf

theorem Ring.walk_prev [DecidableEq α] {h : α} {xs : List α} (hr : Ring next prev h xs) (hx : h ∉ xs)
    {fuel : Nat} (hf : xs.length < fuel) : walk prev h fuel (prev h) = some xs.reverse :=
  hr.reverse.walk_next (by simpa using hx) (by simpa using hf)

end SiteCode.Lib
