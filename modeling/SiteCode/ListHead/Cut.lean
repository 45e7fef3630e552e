import SiteCode.ListHead.Runs
/-!
# Cutting a list in two

A cut takes the front `u` of a list `u ++ v` into a list of its own. Both cutting
functions do it at a gap, the one named by the node before the gap and the other
by the node behind it. Splicing the front back undoes a cut, and splicing it to
the back rotates the list.
-/

namespace SiteCode.ListHead

open Lib ListHead.Lists

variable {m m' : Mem} {rest : Lists} {list h e : Addr} {xs u v : List Addr}

/-- One list alone. -/
theorem agrees_singleton : Agrees m [(h, xs)] ↔ (h :: xs).Nodup ∧ Ring m.next m.prev h xs := by
  rw [agrees_cons]
  constructor
  · rintro ⟨hd, -, hr, -⟩
    exact ⟨hd, hr⟩
  · rintro ⟨hd, hr⟩
    exact ⟨hd, fun _ _ => List.not_mem_nil, hr, agrees_nil m⟩

/-- The two sides of a gap have different first nodes, unless the front is empty. -/
theorem headOf_ne (hd : (h :: (u ++ v)).Nodup) (hu : u ≠ []) : headOf u h ≠ headOf v h := by
  obtain ⟨x, t, rfl⟩ := List.exists_cons_of_ne_nil hu
  rw [headOf_cons]
  intro hx
  have hm := headOf_mem v h
  rw [← hx] at hm
  simp only [List.cons_append, List.nodup_cons, List.mem_cons, List.mem_append, not_or] at hd hm
  tauto

theorem headOf_append (hu : u ≠ []) : headOf (u ++ v) h = headOf u h := by
  obtain ⟨x, t, rfl⟩ := List.exists_cons_of_ne_nil hu
  rfl

/-! ## `list_cut_before` -/

section
variable (list) {z : Addr} (hz : m.next h ≠ z) (a : Addr)
include hz

/-- The fields after the six writes of a cut in front of `z`. -/
theorem list_cut_before_next : (list_cut_before m list h z).next a =
    if a = h then z else if a = m.prev z then list else if a = list then m.next h else m.next a := by
  simp [list_cut_before, hz, hz.symm]

theorem list_cut_before_prev : (list_cut_before m list h z).prev a =
    if a = z then h else if a = list then m.prev z else if a = m.next h then list else m.prev a := by
  simp [list_cut_before, hz, hz.symm]

end

section
variable (hA : Agrees m ((h, u ++ v) :: rest))
include hA

/-- No node of the front is behind the gap or on another list. -/
theorem Agrees.front_off : ∀ a ∈ u, a ∉ h :: v ++ members rest := by
  obtain ⟨hd, hdis, -, -⟩ := agrees_cons.1 hA
  obtain ⟨hh, huv⟩ := List.nodup_cons.1 hd
  intro a ha hm
  rcases List.mem_append.1 hm with hm | hm
  · rcases List.mem_cons.1 hm with rfl | hm
    · exact hh (List.mem_append_left _ ha)
    · exact (List.nodup_append.1 huv).2.2 a ha a hm rfl
  · exact hdis a (by simp [ha]) hm

variable (hu : u ≠ [])
include hu

/-- The fields after a cut at the gap `u | v`, named by the first node behind it. -/
theorem Agrees.cut_next (list a : Addr) : (list_cut_before m list h (headOf v h)).next a =
    if a = h then headOf v h else if a = lastOf h u then list else if a = list then headOf u h else m.next a := by
  obtain ⟨hd, -, hr, -⟩ := agrees_cons.1 hA
  have hf : m.next h = headOf u h := by rw [hr.next_head, headOf_append hu]
  have hnext := list_cut_before_next list (hf ▸ headOf_ne hd hu) a
  rwa [hr.seam.2, hf] at hnext

theorem Agrees.cut_prev (list a : Addr) : (list_cut_before m list h (headOf v h)).prev a =
    if a = headOf v h then h else if a = list then lastOf h u else if a = headOf u h then list else m.prev a := by
  obtain ⟨hd, -, hr, -⟩ := agrees_cons.1 hA
  have hf : m.next h = headOf u h := by rw [hr.next_head, headOf_append hu]
  have hprev := list_cut_before_prev list (hf ▸ headOf_ne hd hu) a
  rwa [hr.seam.2, hf] at hprev

variable (hl : list ∉ members ((h, u ++ v) :: rest))
include hl

/-- The front keeps the links among its entries, and both of its ends are linked to `list`. -/
theorem Agrees.ring_cut_front :
    Ring (list_cut_before m list h (headOf v h)).next (list_cut_before m list h (headOf v h)).prev list u := by
  obtain ⟨hd, -, hr, -⟩ := agrees_cons.1 hA
  have hnext := hA.cut_next hu list
  have hprev := hA.cut_prev hu list
  have hmem : ∀ a ∈ h :: (u ++ v) ++ members rest, a ≠ list := fun a ha e => hl (e ▸ ha)
  have hlu : lastOf h u ∈ u := lastOf_mem_of_ne_nil hu h
  have hfl : headOf u h ≠ list := hmem _ (by simp [headOf_mem_of_ne_nil hu h])
  have hll : lastOf h u ≠ list := hmem _ (by simp [hlu])
  have hhl : h ≠ list := hmem h (by simp)
  have hlh : ∀ a ∈ u, a ≠ h := fun a ha e => hA.front_off a ha (by simp [e])
  have hfz : headOf u h ≠ headOf v h := headOf_ne hd hu
  have hzl : headOf v h ≠ list := fun e => hl (e ▸ (gap_mem h u v rest).2)
  have hzu : headOf v h ∉ u := fun hm => hA.front_off _ hm (List.mem_append_left _ (headOf_mem v h))
  have hinner : Links m.next m.prev u := hr.links.left_of_append
  have hdu : (h :: u).Nodup := hd.sublist (by simp)
  refine links_between (h := h) hu ?_ (hinner.inner_congr hdu ?_ ?_) ?_
  · simp [Linked, hnext, hprev, hfz, hfl, hll.symm, hhl.symm]
  · intro a ha hal
    simp [hnext, hal, hlh a ha, hmem a (by simp [ha])]
  · intro b hb hbf
    have hbz : b ≠ headOf v h := by
      rintro rfl
      exact hzu hb
    simp [hprev, hbf, hbz, hmem b (by simp [hb])]
  · simp [Linked, hnext, hprev, hlh _ hlu, hzl.symm]

/-- What is behind the gap closes up, and the other lists keep their links. -/
theorem Agrees.cut_behind : Agrees (list_cut_before m list h (headOf v h)) ((h, v) :: rest) := by
  have hnext := hA.cut_next hu list
  have hprev := hA.cut_prev hu list
  have hmem : ∀ a ∈ h :: v ++ members rest, a ≠ list := by
    intro a ha e
    apply hl
    rw [← e, members_cons]
    simp only [List.mem_append, List.mem_cons] at ha ⊢
    tauto
  have hcut : Agrees (list_cut_before m list h (headOf v h)) ((h, [] ++ [] ++ v) :: rest) := by
    apply Agrees.resew (w := u) (by simpa using hA) List.nodup_nil (by simp)
    · simp [Linked, hnext, hprev]
    · intro a ha hah
      have hau : a ≠ lastOf h u := by
        rintro rfl
        exact hA.front_off _ (lastOf_mem_of_ne_nil hu h) ha
      rw [lastOf_nil] at hah
      simp [hnext, hah, hau, hmem a ha]
    · intro b hb hbz
      have hbu : b ≠ headOf u h := by
        rintro rfl
        exact hA.front_off _ (headOf_mem_of_ne_nil hu h) hb
      simp [hprev, hbz, hbu, hmem b hb]
  simpa using hcut

end

/-- A cut at the gap `u | v`. -/
theorem agrees_list_cut_before (hA : Agrees m ((h, u ++ v) :: rest)) (hl : list ∉ members ((h, u ++ v) :: rest)) :
    Agrees (list_cut_before m list h (headOf v h)) ((list, u) :: (h, v) :: rest) := by
  obtain ⟨hd, -, hr, -⟩ := agrees_cons.1 hA
  by_cases hu : u = []
  · subst hu
    have hnext : m.next h = headOf v h := hr.next_head
    rw [list_cut_before, hnext, beq_self_eq_true, if_pos rfl]
    exact agrees_new_head hA hl
  refine agrees_cons.2 ⟨?_, ?_, hA.ring_cut_front hu hl, hA.cut_behind hu hl⟩
  · have hud : u.Nodup := (List.nodup_append.1 (List.nodup_cons.1 hd).2).1
    exact List.nodup_cons.2 ⟨fun hm => hl (by simp [hm]), hud⟩
  · intro a ha hm
    rw [members_cons] at hm
    rcases List.mem_cons.1 ha with rfl | ha
    · apply hl
      rw [members_cons]
      simp only [List.mem_append, List.mem_cons] at hm ⊢
      tauto
    · exact hA.front_off a ha hm

/-- A cut of one list alone. -/
theorem agrees_cut (hd : (h :: (u ++ v)).Nodup) (hr : Ring m.next m.prev h (u ++ v)) (hl : list ∉ h :: (u ++ v)) :
    Agrees (list_cut_before m list h (headOf v h)) [(list, u), (h, v)] :=
  agrees_list_cut_before (agrees_singleton.2 ⟨hd, hr⟩) (by simpa using hl)

/-! ## `list_cut_position` -/

/-- On a list that is not empty, a cut behind `e` is the cut in front of its successor. -/
theorem list_cut_position_eq (hr : Ring m.next m.prev h xs) (hd : (h :: xs).Nodup) (he : e ∈ h :: xs) (hx : xs ≠ [])
    (list : Addr) : list_cut_position m list h e = list_cut_before m list h (m.next e) := by
  have hempty : list_empty m h = false := by simpa [list_empty_eq hr hd] using hx
  rcases List.mem_cons.1 he with rfl | hm
  · simp [list_cut_position, hempty, list_cut_before]
  have heh : e ≠ h := by
    rintro rfl
    exact (List.nodup_cons.1 hd).1 hm
  obtain ⟨u, v, rfl⟩ := List.append_of_mem hm
  have hr' : Ring m.next m.prev h ((u ++ [e]) ++ v) := by simpa using hr
  have hprev : m.prev (m.next e) = e := (hr.prev_next e he).2
  have hfront : u ++ [e] ≠ [] := by simp
  have hne : m.next h ≠ m.next e := by
    rw [hr'.next_head, headOf_append hfront, hr.next_mem]
    exact headOf_ne (by simpa using hd) hfront
  -- a single entry is both the first one and `e`
  have hsingle : list_is_singular m h = true → m.next h = e := by
    rw [list_is_singular_eq hr hd, decide_eq_true_eq, hr.next_head]
    intro hlen
    rw [List.length_append, List.length_cons] at hlen
    obtain rfl : u = [] := List.length_eq_zero_iff.1 (by omega)
    rfl
  have hguard : (list_is_singular m h && (m.next h != e && h != e)) = false := by
    rw [Bool.and_eq_false_iff]
    by_cases hs : list_is_singular m h = true
    · exact .inr (by simp [hsingle hs])
    · exact .inl (by simpa using hs)
  simp [list_cut_position, hempty, hguard, heh, __list_cut_position, list_cut_before, hne, hne.symm, hprev]

/-- `list_cut_position` at `e` leaves what `list_cut_before` at the successor of `e`
leaves, the entries up to `e` on `list` and the others on `head`, exactly when `head`
has an entry or `list` is an empty list before. -/
theorem list_cut_position_iff (m : Mem) (list head e : Addr) (xs : List Addr) (hr : Ring m.next m.prev head xs)
    (hd : (head :: xs).Nodup) (hl : list ∉ head :: xs) (he : e ∈ head :: xs) :
    let m₁ := list_cut_position m list head e
    let m₂ := list_cut_before m list head (m.next e)
    ((∀ a ∈ list :: head :: xs, m₁.next a = m₂.next a ∧ m₁.prev a = m₂.prev a) ∧
      ∃ u v, xs = u ++ v ∧ lastOf head u = e ∧ Ring m₁.next m₁.prev list u ∧ Ring m₁.next m₁.prev head v) ↔
    xs ≠ [] ∨ (m.next list = list ∧ m.prev list = list) := by
  intro m₁ m₂
  by_cases hx : xs = []
  · subst hx
    obtain rfl : e = head := by simpa using he
    have h1 : m₁ = m := by simp [m₁, list_cut_position, list_empty, hr.next_head]
    constructor
    · rintro ⟨-, u, v, huv, -, hu, -⟩
      obtain ⟨rfl, rfl⟩ : u = [] ∧ v = [] := by simpa using huv
      rw [h1, ring_nil] at hu
      exact .inr hu
    · intro h
      have hlist := h.resolve_left (· rfl)
      have h2 : m₂ = INIT_LIST_HEAD m list := by simp [m₂, list_cut_before, hr.next_head]
      rw [h1, h2]
      refine ⟨fun a _ => ?_, [], [], rfl, rfl, ring_nil.2 hlist, hr⟩
      by_cases ha : a = list
      · simp [INIT_LIST_HEAD, ha, hlist.1, hlist.2]
      · simp [INIT_LIST_HEAD, ha]
  · have heq : m₁ = m₂ := list_cut_position_eq hr hd he hx list
    refine ⟨fun _ => .inl hx, fun _ => ⟨fun a _ => by rw [heq]; exact ⟨rfl, rfl⟩, ?_⟩⟩
    obtain ⟨u, v, rfl, hu, -⟩ := gap_after hd he
    have hcut := agrees_cut hd hr hl
    have hnext : m.next e = headOf v head := hu ▸ hr.seam.1
    rw [← hnext] at hcut
    obtain ⟨-, -, hlist, hrest⟩ := agrees_cons.1 hcut
    rw [heq]
    exact ⟨u, v, rfl, hu, hlist, (agrees_singleton.1 hrest).2⟩

/-- A head 0 with the entries 1 and 2; all other nodes point to 0. -/
def pair : Mem where
  next a := if a = 0 then 1 else if a = 1 then 2 else 0
  prev a := if a = 0 then 2 else if a = 2 then 1 else 0

theorem ring_pair : Ring pair.next pair.prev 0 [1, 2] := by
  simp [Lib.Ring, Linked, pair]

/-- The first of two entries is cut off, onto a node with stale links. -/
theorem list_cut_position_pair :
    let m₁ := list_cut_position pair 9 0 1
    let m₂ := list_cut_before pair 9 0 (pair.next 1)
    (∀ a ∈ [9, 0, 1, 2], m₁.next a = m₂.next a ∧ m₁.prev a = m₂.prev a) ∧
      ∃ u v, [1, 2] = u ++ v ∧ lastOf 0 u = 1 ∧ Ring m₁.next m₁.prev 9 u ∧ Ring m₁.next m₁.prev 0 v :=
  (list_cut_position_iff pair 9 0 1 [1, 2] ring_pair (by decide) (by decide) (by decide)).2 (.inl (by decide))

/-- A cut of an empty list leaves the links of `list` as they were. -/
theorem list_cut_position_stale : ¬ ∀ (m : Mem) (list head e : Addr) (xs : List Addr), Ring m.next m.prev head xs →
    (head :: xs).Nodup → list ∉ head :: xs → e ∈ head :: xs →
      let m₁ := list_cut_position m list head e
      let m₂ := list_cut_before m list head (m.next e)
      (∀ a ∈ list :: head :: xs, m₁.next a = m₂.next a ∧ m₁.prev a = m₂.prev a) ∧
        ∃ u v, xs = u ++ v ∧ lastOf head u = e ∧ Ring m₁.next m₁.prev list u ∧ Ring m₁.next m₁.prev head v := by
  intro h
  obtain ⟨hsame, -⟩ := h ⟨fun _ => 0, fun _ => 0⟩ 9 0 0 [] (by simp [Lib.Ring, Linked]) (by decide) (by decide)
    (by decide)
  exact absurd (hsame 9 (by decide)).1 (by decide)

/-! ## Cutting and splicing -/

/-- Rotating `k` times. -/
theorem agrees_iterate_rotate_left (hA : Agrees m [(h, xs)]) (k : Nat) :
    Agrees ((list_rotate_left · h)^[k] m) [(h, xs.rotate k)] := by
  induction k generalizing m xs with
  | zero => simpa using hA
  | succ k ih =>
    have hrot : Agrees (list_rotate_left m h) [(h, xs.rotate 1)] := by
      simpa [rotate] using agrees_list_rotate_left hA (h := h) (by simp [heads])
    have := ih hrot
    rwa [List.rotate_rotate, Nat.add_comm] at this

theorem entriesOf_front (list h : Addr) (u v : List Addr) : entriesOf [(list, u), (h, v)] list = u := by
  simp [entriesOf]

theorem not_mem_front (hd : (h :: (u ++ v)).Nodup) (hl : list ∉ h :: (u ++ v)) : h ∉ list :: u := by
  have hlh : list ≠ h := (List.ne_and_not_mem_of_not_mem_cons hl).1
  have huv := (List.nodup_cons.1 hd).1
  simp only [List.mem_cons, List.mem_append, not_or] at huv ⊢
  exact ⟨hlh.symm, huv.1⟩

section
variable (hd : (h :: (u ++ v)).Nodup) (hr : Ring m.next m.prev h (u ++ v)) (hl : list ∉ h :: (u ++ v))
include hd hr hl

/-- The front goes back in front. -/
theorem agrees_cut_splice_init :
    Agrees (list_splice_init (list_cut_before m list h (headOf v h)) list h) [(list, []), (h, u ++ v)] := by
  have hlh : list ≠ h := (List.ne_and_not_mem_of_not_mem_cons hl).1
  have hhu := not_mem_front hd hl
  rw [← entriesOf_front list h u v] at hhu
  have hsplice := agrees_list_splice_init (agrees_cut hd hr hl) (by simp [heads]) (by simp) hhu
  rw [entriesOf_front] at hsplice
  simpa [clear, addAfter, hlh, hlh.symm, graft] using hsplice

/-- The front goes to the back. -/
theorem agrees_cut_splice_tail_init :
    Agrees (list_splice_tail_init (list_cut_before m list h (headOf v h)) list h) [(list, []), (h, v ++ u)] := by
  have hlh : list ≠ h := (List.ne_and_not_mem_of_not_mem_cons hl).1
  have hhu := not_mem_front hd hl
  rw [← entriesOf_front list h u v] at hhu
  have hsplice := agrees_list_splice_tail_init (agrees_cut hd hr hl) (by simp [heads]) (by simp) hhu
  rw [entriesOf_front] at hsplice
  simpa [clear, addBefore, hlh, hlh.symm, graft] using hsplice

end

/-- What two lists show of an empty head and a ring. -/
theorem Agrees.pair (hA : Agrees m [(list, []), (h, xs)]) :
    (m.next list = list ∧ m.prev list = list) ∧ Ring m.next m.prev h xs := by
  obtain ⟨-, -, hlist, hrest⟩ := agrees_cons.1 hA
  exact ⟨ring_nil.1 hlist, (agrees_singleton.1 hrest).2⟩

/-- The first `k` entries are cut off. Spliced back to the front, they leave all links
as they were; spliced to the back, they leave the links of `k` rotations; and `list`
is empty again. -/
theorem list_cut_before_splice (m : Mem) (list head : Addr) (xs : List Addr) (hr : Ring m.next m.prev head xs)
    (hd : (head :: xs).Nodup) (hl : list ∉ head :: xs) (k : Nat) (hk : k ≤ xs.length) :
    let cut := list_cut_before m list head (headOf (xs.drop k) head)
    let m₁ := list_splice_init cut list head
    let m₂ := list_splice_tail_init cut list head
    let rotated := (list_rotate_left · head)^[k] m
    (∀ a ∈ head :: xs, m₁.next a = m.next a ∧ m₁.prev a = m.prev a) ∧
      (∀ a ∈ head :: xs, m₂.next a = rotated.next a ∧ m₂.prev a = rotated.prev a) ∧
      (m₁.next list = list ∧ m₁.prev list = list) ∧ (m₂.next list = list ∧ m₂.prev list = list) := by
  intro cut m₁ m₂ rotated
  have hsplit : xs.take k ++ xs.drop k = xs := List.take_append_drop k xs
  have hd' : (head :: (xs.take k ++ xs.drop k)).Nodup := by rwa [hsplit]
  have hr' : Ring m.next m.prev head (xs.take k ++ xs.drop k) := by rwa [hsplit]
  have hl' : list ∉ head :: (xs.take k ++ xs.drop k) := by rwa [hsplit]
  obtain ⟨he₁, hr₁⟩ := (agrees_cut_splice_init hd' hr' hl').pair
  obtain ⟨he₂, hr₂⟩ := (agrees_cut_splice_tail_init hd' hr' hl').pair
  have hrot := agrees_iterate_rotate_left (agrees_singleton.2 ⟨hd, hr⟩) k
  rw [List.rotate_eq_drop_append_take hk] at hrot
  refine ⟨?_, fun a ha => ?_, he₁, he₂⟩
  · rw [hsplit] at hr₁
    exact hr.ext hr₁
  · apply (agrees_singleton.1 hrot).2.ext hr₂ a
    have hp : (xs.drop k ++ xs.take k).Perm xs := List.perm_append_comm.trans (by rw [hsplit])
    exact (hp.cons head).mem_iff.2 ha

theorem list_cut_before_splice_pair :
    let cut := list_cut_before pair 9 0 2
    let m₁ := list_splice_init cut 9 0
    let m₂ := list_splice_tail_init cut 9 0
    let rotated := list_rotate_left pair 0
    (∀ a ∈ [0, 1, 2], m₁.next a = pair.next a ∧ m₁.prev a = pair.prev a) ∧
      (∀ a ∈ [0, 1, 2], m₂.next a = rotated.next a ∧ m₂.prev a = rotated.prev a) ∧
      (m₁.next 9 = 9 ∧ m₁.prev 9 = 9) ∧ (m₂.next 9 = 9 ∧ m₂.prev 9 = 9) :=
  list_cut_before_splice pair 9 0 [1, 2] ring_pair (by decide) (by decide) 1 (by decide)

end SiteCode.ListHead
