import SiteCode.ListHead.Lists
/-!
# The pointer writes compute the edits

`Agrees m L`: in memory `m` every list of `L` is a ring, and no node occurs
twice. One lemma (`Agrees.resew`) carries `Ring.resew` over to all lists at
once; every operation of `list.h` is an instance of it at some gap of some
list, so an operation's proof only computes what its own writes leave in the
two or three nodes next to the gap.
-/

namespace SiteCode.ListHead

open Lib ListHead.Lists

structure Agrees (m : Mem) (L : Lists) : Prop where
  nodup : (members L).Nodup
  rings : ∀ r ∈ L, Ring m.next m.prev r.1 r.2

variable {m m' : Mem} {L L' rest : Lists} {h n : Addr} {xs u v : List Addr}

/-! ## Looking at one list -/

theorem Agrees.perm (hA : Agrees m L) (hp : L.Perm L') : Agrees m L' :=
  ⟨(members_perm hp).nodup_iff.1 hA.nodup, fun r hr => hA.rings r (hp.mem_iff.2 hr)⟩

theorem agrees_cons : Agrees m ((h, xs) :: L) ↔
    (h :: xs).Nodup ∧ (∀ a ∈ h :: xs, a ∉ members L) ∧ Ring m.next m.prev h xs ∧ Agrees m L := by
  constructor
  · rintro ⟨hd, hr⟩
    obtain ⟨h1, h2, h3⟩ := List.nodup_append.1 hd
    exact ⟨h1, fun a ha hm => h3 a ha a hm rfl, hr _ List.mem_cons_self,
      h2, fun r hm => hr r (List.mem_cons_of_mem _ hm)⟩
  · rintro ⟨h1, h2, h3, h4, h5⟩
    refine ⟨List.nodup_append.2 ⟨h1, h4, fun a ha b hb e => h2 a ha (e ▸ hb)⟩, fun r hm => ?_⟩
    rcases List.mem_cons.1 hm with rfl | hm
    · exact h3
    · exact h5 r hm

/-- Only the links of nodes on lists matter. -/
theorem Agrees.congr (hA : Agrees m L) (hn : ∀ a ∈ members L, m'.next a = m.next a)
    (hp : ∀ a ∈ members L, m'.prev a = m.prev a) : Agrees m' L :=
  ⟨hA.nodup, fun r hr => (hA.rings r hr).congr (fun a ha => hn a (mem_members.2 ⟨r, hr, ha⟩))
    fun a ha => hp a (mem_members.2 ⟨r, hr, ha⟩)⟩

/-- An edit at the node `n` may be looked at in the list of `n` alone. -/
theorem Agrees.focus (hA : Agrees m L) (hn : n ∈ members L) (f : Addr × List Addr → Addr × List Addr)
    (hf : ∀ r, n ∉ r.1 :: r.2 → f r = r) : ∃ h xs rest, L.Perm ((h, xs) :: rest) ∧ n ∈ h :: xs ∧
      Agrees m ((h, xs) :: rest) ∧ (f (h, xs) :: rest).Perm (L.map f) := by
  obtain ⟨⟨h, xs⟩, hr, hm⟩ := mem_members.1 hn
  obtain ⟨L₁, L₂, rfl⟩ := List.append_of_mem hr
  have hp : (L₁ ++ (h, xs) :: L₂).Perm ((h, xs) :: (L₁ ++ L₂)) := List.perm_middle
  have hA' := hA.perm hp
  refine ⟨h, xs, L₁ ++ L₂, hp, hm, hA', ?_⟩
  have e : (L₁ ++ L₂).map f = L₁ ++ L₂ := map_eq_self f hf ((agrees_cons.1 hA').2.1 n hm)
  have := (hp.map f).symm
  rwa [List.map_cons, e] at this

/-- `Ring.resew` in one list, all others kept. -/
theorem Agrees.resew {w ys : List Addr} (hA : Agrees m ((h, u ++ w ++ v) :: rest)) (hys : ys.Nodup)
    (hfresh : ∀ y ∈ ys, y ∉ h :: (u ++ v) ∧ y ∉ members rest)
    (hl : Links m'.next m'.prev (lastOf h u :: (ys ++ [headOf v h])))
    (hn : ∀ a ∈ h :: (u ++ v) ++ members rest, a ≠ lastOf h u → m'.next a = m.next a)
    (hp : ∀ b ∈ h :: (u ++ v) ++ members rest, b ≠ headOf v h → m'.prev b = m.prev b) :
    Agrees m' ((h, u ++ ys ++ v) :: rest) := by
  obtain ⟨hd, hdis, hr, hrest⟩ := agrees_cons.1 hA
  have hd' : (h :: (u ++ v)).Nodup := hd.sublist (by simp)
  have hsub : ∀ a ∈ h :: (u ++ v), a ∉ members rest := fun a ha => hdis a (by
    simp only [List.mem_cons, List.mem_append] at ha ⊢; tauto)
  refine agrees_cons.2 ⟨?_, fun a ha => ?_, hr.resew hd' hl (fun a ha => hn a (List.mem_append_left _ ha))
    fun b hb => hp b (List.mem_append_left _ hb), ?_⟩
  · have e : (h :: (u ++ ys ++ v)).Perm (ys ++ (h :: (u ++ v))) := by
      rw [← List.cons_append, ← List.cons_append]
      exact (List.perm_append_comm.append_right v).trans (by simp)
    exact e.nodup_iff.2 (List.nodup_append.2 ⟨hys, hd', fun a ha b hb e => (hfresh a ha).1 (e ▸ hb)⟩)
  · by_cases hy : a ∈ ys
    · exact (hfresh a hy).2
    · exact hsub a (by simp only [List.mem_cons, List.mem_append] at ha ⊢; tauto)
  · refine hrest.congr (fun a ha => hn a (List.mem_append_right _ ha) ?_)
      fun b hb => hp b (List.mem_append_right _ hb) ?_
    · rintro rfl
      refine hsub _ ?_ ha
      have := lastOf_mem h u
      simp only [List.mem_cons, List.mem_append] at this ⊢; tauto
    · rintro rfl
      refine hsub _ ?_ hb
      have := headOf_mem v h
      simp only [List.mem_cons, List.mem_append] at this ⊢; tauto

/-- Both ends of a gap are nodes of its list. -/
theorem gap_mem (h : Addr) (u v : List Addr) (rest : Lists) :
    lastOf h u ∈ members ((h, u ++ v) :: rest) ∧ headOf v h ∈ members ((h, u ++ v) :: rest) := by
  have h1 := lastOf_mem h u
  have h2 := headOf_mem v h
  simp only [members_cons, List.mem_cons, List.mem_append] at h1 h2 ⊢
  tauto

/-! ## Adding -/

theorem agrees_gap_add {new : Addr} (hA : Agrees m ((h, u ++ v) :: rest))
    (hnew : new ∉ members ((h, u ++ v) :: rest)) :
    Agrees (__list_add m new (lastOf h u) (headOf v h)) ((h, u ++ [new] ++ v) :: rest) := by
  obtain ⟨hx, hz⟩ := gap_mem h u v rest
  have hnx : new ≠ lastOf h u := fun e => hnew (e ▸ hx)
  have hnz : new ≠ headOf v h := fun e => hnew (e ▸ hz)
  have hne : ∀ a ∈ h :: (u ++ v) ++ members rest, a ≠ new := fun a ha e => hnew (e ▸ ha)
  apply Agrees.resew (w := []) (by simpa using hA) (List.nodup_singleton _)
  · intro y hy
    rw [List.mem_singleton] at hy; subst hy
    simpa [not_or, and_assoc] using hnew
  · simp [Linked, __list_add, __list_add_valid, hnx, hnz.symm]
  · intro a ha hax
    simp [__list_add, __list_add_valid, hax, hne a ha]
  · intro b hb hbz
    simp [__list_add, __list_add_valid, hbz, hne b hb]

theorem agrees_list_add {new p : Addr} (hA : Agrees m L) (hnew : new ∉ members L) (hp : p ∈ members L) :
    Agrees (list_add m new p) (L.map (addAfter p [new])) := by
  obtain ⟨h, xs, rest, hL, hm, hA', hf⟩ := hA.focus hp _ (addAfter_of_not_mem [new])
  obtain ⟨hd, -, hr, -⟩ := agrees_cons.1 hA'
  refine Agrees.perm ?_ hf
  -- the successor that `list_add` reads is the other end of the gap behind `p`
  obtain ⟨u, v, rfl, rfl, e⟩ := gap_after hd hm
  rw [e, list_add, hr.seam.1]
  exact agrees_gap_add hA' fun hm' => hnew ((members_perm hL).mem_iff.2 hm')

theorem agrees_list_add_tail {new p : Addr} (hA : Agrees m L) (hnew : new ∉ members L) (hp : p ∈ members L) :
    Agrees (list_add_tail m new p) (L.map (addBefore p [new])) := by
  obtain ⟨h, xs, rest, hL, hm, hA', hf⟩ := hA.focus hp _ (addBefore_of_not_mem [new])
  obtain ⟨hd, -, hr, -⟩ := agrees_cons.1 hA'
  refine Agrees.perm ?_ hf
  obtain ⟨u, v, rfl, rfl, e⟩ := gap_before hd hm
  rw [e, list_add_tail, hr.seam.2]
  exact agrees_gap_add hA' fun hm' => hnew ((members_perm hL).mem_iff.2 hm')

/-- A node that points to itself is the head of an empty list. -/
theorem agrees_new_head (hA : Agrees m L) (hh : h ∉ members L) :
    Agrees (INIT_LIST_HEAD m h) ((h, []) :: L) := by
  refine agrees_cons.2 ⟨List.nodup_singleton _, fun a ha => ?_, ?_, ?_⟩
  · rw [List.mem_singleton] at ha; subst ha; exact hh
  · simp [ring_nil, INIT_LIST_HEAD]
  · have hne : ∀ a ∈ members L, a ≠ h := fun a ha e => hh (e ▸ ha)
    exact hA.congr (fun a ha => by simp [INIT_LIST_HEAD, hne a ha])
      fun a ha => by simp [INIT_LIST_HEAD, hne a ha]

/-! ## Deleting -/

/-- Where an entry stands in its list. -/
theorem Agrees.entry (hA : Agrees m ((h, xs) :: rest)) (hn : n ∈ xs) :
    ∃ u v, xs = u ++ [n] ++ v ∧ remove n (h, xs) = (h, u ++ v) ∧ n ∉ h :: (u ++ v) := by
  obtain ⟨u, v, rfl⟩ := List.append_of_mem hn
  have hd := (agrees_cons.1 hA).1
  have hd' := (List.nodup_cons.1 hd).2
  refine ⟨u, v, by simp, by simp [remove, erase_append hd'], ?_⟩
  have hp : (h :: (u ++ n :: v)).Perm (n :: (h :: (u ++ v))) :=
    (List.perm_middle.cons h).trans (.swap n h _)
  exact (List.nodup_cons.1 (hp.nodup_iff.1 hd)).1

theorem mem_entries {L : Lists} : n ∈ entries L ↔ ∃ r ∈ L, n ∈ r.2 := List.mem_flatMap

theorem entries_subset (hn : n ∈ entries L) : n ∈ members L := by
  obtain ⟨r, hr, hm⟩ := mem_entries.1 hn
  exact mem_members.2 ⟨r, hr, List.mem_cons_of_mem _ hm⟩

/-- An entry is not a head: its list's entries hold it. -/
theorem Agrees.entry_mem (hA : Agrees m L) (hn : n ∈ entries L) (hp : L.Perm ((h, xs) :: rest))
    (hm : n ∈ h :: xs) : n ∈ xs := by
  obtain ⟨hd, hdis, -, -⟩ := agrees_cons.1 (hA.perm hp)
  obtain ⟨r, hr, hnr⟩ := mem_entries.1 hn
  rcases List.mem_cons.1 (hp.mem_iff.1 hr) with rfl | hr
  · exact hnr
  · exact absurd (mem_members.2 ⟨r, hr, List.mem_cons_of_mem _ hnr⟩) (hdis n hm)

/-- After `__list_del_entry` the entry is on no list; its own links are stale. -/
theorem agrees_raw_list_del_entry (hA : Agrees m L) (hn : n ∈ entries L) :
    Agrees (__list_del_entry m n) (L.map (remove n)) ∧ n ∉ members (L.map (remove n)) := by
  obtain ⟨h, xs, rest, hL, hm, hA', hf⟩ := hA.focus (entries_subset hn) _ (remove_of_not_mem (n := n))
  obtain ⟨u, v, rfl, e, hnuv⟩ := hA'.entry (hA.entry_mem hn hL hm)
  obtain ⟨-, hdis, hr, -⟩ := agrees_cons.1 hA'
  rw [e] at hf
  refine ⟨Agrees.perm ?_ hf, fun hc => ?_⟩
  · have hr' : Ring m.next m.prev h (u ++ n :: v) := by simpa using hr
    have en := hr'.next_mem
    have ep := hr'.prev_mem
    have hdel : Agrees (__list_del_entry m n) ((h, u ++ [] ++ v) :: rest) := by
      apply Agrees.resew hA' List.nodup_nil (by simp)
      · simp [Linked, __list_del_entry, __list_del_entry_valid, __list_del, en, ep]
      · intro a _ ha
        simp [__list_del_entry, __list_del_entry_valid, __list_del, ep, ha]
      · intro b _ hb
        simp [__list_del_entry, __list_del_entry_valid, __list_del, en, hb]
    simpa using hdel
  · exact (List.mem_append.1 ((members_perm hf).mem_iff.2 hc)).elim hnuv (hdis n hm)

/-- Writing the links of a node that is on no list. -/
theorem Agrees.off_list (hA : Agrees m L) (hn : n ∉ members L) (a b : Addr) :
    Agrees ((m.setNext n a).setPrev n b) L := by
  have hne : ∀ x ∈ members L, x ≠ n := fun x hx e => hn (e ▸ hx)
  exact hA.congr (fun x hx => by simp [hne x hx]) fun x hx => by simp [hne x hx]

theorem agrees_list_del (hA : Agrees m L) (hn : n ∈ entries L) : Agrees (list_del m n) (L.map (remove n)) :=
  have := agrees_raw_list_del_entry hA hn
  this.1.off_list this.2 _ _

theorem agrees_list_del_init (hA : Agrees m L) (hn : n ∈ entries L) :
    Agrees (list_del_init m n) (L.map (remove n)) :=
  have := agrees_raw_list_del_entry hA hn
  this.1.off_list this.2 _ _

/-! ## Moving -/

theorem members_remove {p : Addr} (hp : p ∈ members L) (hne : n ≠ p) : p ∈ members (L.map (remove n)) := by
  obtain ⟨r, hr, hm⟩ := mem_members.1 hp
  refine mem_members.2 ⟨remove n r, List.mem_map_of_mem hr, ?_⟩
  simp only [remove, List.mem_cons] at hm ⊢
  exact hm.imp id fun h => (List.mem_erase_of_ne hne.symm).2 h

theorem agrees_list_move {p : Addr} (hA : Agrees m L) (hn : n ∈ entries L) (hp : p ∈ members L) (hne : n ≠ p) :
    Agrees (list_move m n p) ((L.map (remove n)).map (addAfter p [n])) := by
  obtain ⟨h1, h2⟩ := agrees_raw_list_del_entry hA hn
  exact agrees_list_add h1 h2 (members_remove hp hne)

theorem agrees_list_move_tail {p : Addr} (hA : Agrees m L) (hn : n ∈ entries L) (hp : p ∈ members L)
    (hne : n ≠ p) : Agrees (list_move_tail m n p) ((L.map (remove n)).map (addBefore p [n])) := by
  obtain ⟨h1, h2⟩ := agrees_raw_list_del_entry hA hn
  exact agrees_list_add_tail h1 h2 (members_remove hp hne)

/-! ## Replacing -/

/-- Where an entry is replaced, the new node is sewn into its gap. -/
theorem agrees_replace_entry {new : Addr} (hA : Agrees m ((h, u ++ [n] ++ v) :: rest))
    (hn : n ∉ h :: (u ++ v)) (hnew : new ∉ members ((h, u ++ [n] ++ v) :: rest)) :
    Agrees (list_replace m n new) ((h, u ++ [new] ++ v) :: rest) := by
  obtain ⟨-, hdis, hr, -⟩ := agrees_cons.1 hA
  have hr' : Ring m.next m.prev h (u ++ n :: v) := by simpa using hr
  obtain ⟨hx, hz⟩ := gap_mem h u v rest
  have hne : ∀ a ∈ members ((h, u ++ v) :: rest), a ≠ new := by
    rintro a ha rfl
    simp only [members_cons, List.mem_append, List.mem_cons] at ha hnew; tauto
  have hnn : n ≠ new := by
    rintro rfl; simp at hnew
  have hnz : n ≠ headOf v h := by
    rintro e
    have := headOf_mem v h
    rw [← e] at this
    simp only [List.mem_cons, List.mem_append] at this hn; tauto
  apply Agrees.resew hA (List.nodup_singleton _)
  · intro y hy
    rw [List.mem_singleton] at hy; subst hy
    simp only [members_cons, List.mem_append, List.mem_cons] at hnew ⊢; tauto
  · simp [Linked, list_replace, hr'.next_mem, hr'.prev_mem, hnz, (hne _ hx).symm, hne _ hz]
  · intro a ha hax
    simp [list_replace, hr'.next_mem, hr'.prev_mem, hnz, hax, hne a ha]
  · intro b hb hbz
    simp [list_replace, hr'.next_mem, hbz, hne b hb]

section
variable {new : Addr} (hA : Agrees m ((h, xs) :: rest)) (hnew : new ∉ members ((h, xs) :: rest))
include hA hnew

/-- The new head is self-linked or takes over both ends. -/
theorem Agrees.ring_replace_head : Ring (list_replace m h new).next (list_replace m h new).prev new xs := by
  obtain ⟨hd, -, hr, -⟩ := agrees_cons.1 hA
  have en := hr.next_head
  have ep := hr.prev_head
  have hne : ∀ a ∈ h :: xs, a ≠ new := fun a ha e => hnew (e ▸ List.mem_append_left _ ha)
  cases xs with
  | nil =>
    -- an empty `old` points at itself: its `prev` is written before it is copied
    rw [headOf_nil] at en
    simp [ring_nil, list_replace, en]
  | cons x t =>
    have hhx : h ≠ x := fun e => (List.nodup_cons.1 hd).1 (e ▸ List.mem_cons_self)
    have hxn : x ≠ new := hne x (by simp)
    have hln : lastOf h (x :: t) ≠ new := hne _ (lastOf_mem h (x :: t))
    rw [headOf_cons] at en
    refine links_between (h := h) (List.cons_ne_nil _ _) ?_ (hr.links.inner_congr hd ?_ ?_) ?_
    · simp [Linked, list_replace, en, ep, hhx, hln.symm, hxn]
    · intro a ha hal
      simp [list_replace, en, ep, hhx, hal, hne a (List.mem_cons_of_mem _ ha)]
    · intro b hb hbx
      rw [headOf_cons] at hbx
      simp [list_replace, en, hbx, hne b (List.mem_cons_of_mem _ hb)]
    · simp [Linked, list_replace, en, ep, hhx]

/-- The other lists keep their links. -/
theorem Agrees.rest_replace_head : Agrees (list_replace m h new) rest := by
  obtain ⟨hd, hdis, hr, hrest⟩ := agrees_cons.1 hA
  have en := hr.next_head
  have ep := hr.prev_head
  have hh : ∀ a ∈ members rest, a ≠ headOf xs h := fun a ha e => hdis _ (headOf_mem xs h) (e ▸ ha)
  have hl : ∀ a ∈ members rest, a ≠ lastOf h xs := fun a ha e => hdis _ (lastOf_mem h xs) (e ▸ ha)
  have hn : ∀ a ∈ members rest, a ≠ new := fun a ha e => hnew (e ▸ List.mem_append_right _ ha)
  apply hrest.congr
  · intro a ha
    cases xs with
    | nil =>
      rw [headOf_nil] at en
      simp [list_replace, en, hn a ha]
    | cons x t =>
      have hhx : h ≠ x := fun e => (List.nodup_cons.1 hd).1 (e ▸ List.mem_cons_self)
      rw [headOf_cons] at en
      simp [list_replace, en, ep, hhx, hl a ha, hn a ha]
  · intro a ha
    have hha := hh a ha
    simp [list_replace, en, hha, hn a ha]

/-- Where a head is replaced, the new node takes its place. -/
theorem agrees_replace_head : Agrees (list_replace m h new) ((new, xs) :: rest) := by
  obtain ⟨hd, hdis, -, -⟩ := agrees_cons.1 hA
  refine agrees_cons.2 ⟨?_, ?_, hA.ring_replace_head hnew, hA.rest_replace_head hnew⟩
  · refine List.nodup_cons.2 ⟨fun hm => hnew ?_, (List.nodup_cons.1 hd).2⟩
    simp [hm]
  · intro a ha
    rcases List.mem_cons.1 ha with rfl | ha
    · exact fun hm => hnew (List.mem_append_right _ hm)
    · exact hdis a (List.mem_cons_of_mem _ ha)

end

theorem subst_entry {new : Addr} (hn : n ∉ h :: (u ++ v)) :
    subst n new (h, u ++ [n] ++ v) = (h, u ++ [new] ++ v) := by
  simp only [List.mem_cons, List.mem_append, not_or] at hn
  have e : ∀ l : List Addr, n ∉ l → l.map (fun x => if x = n then new else x) = l := fun l hl => by
    have := List.map_congr_left (f := fun x => if x = n then new else x) (g := id)
      (l := l) fun x hx => if_neg (by rintro rfl; exact hl hx)
    rw [this, List.map_id]
  simp [subst, e u hn.2.1, e v hn.2.2, Ne.symm hn.1]

theorem subst_head {new : Addr} (hd : (h :: xs).Nodup) : subst h new (h, xs) = (new, xs) := by
  have e : xs.map (fun x => if x = h then new else x) = xs.map id :=
    List.map_congr_left fun x hx => if_neg (by rintro rfl; exact (List.nodup_cons.1 hd).1 hx)
  simp [subst, e]

/-- After `list_replace` the old node is on no list; its own links are stale. -/
theorem agrees_list_replace {new : Addr} (hA : Agrees m L) (hn : n ∈ members L) (hnew : new ∉ members L) :
    Agrees (list_replace m n new) (L.map (subst n new)) ∧ n ∉ members (L.map (subst n new)) := by
  obtain ⟨h, xs, rest, hL, hm, hA', hf⟩ := hA.focus hn _ (subst_of_not_mem n new)
  have hnew' : new ∉ members ((h, xs) :: rest) := fun hc => hnew ((members_perm hL).mem_iff.2 hc)
  have hnn : n ≠ new := by rintro rfl; exact hnew hn
  obtain ⟨hd, hdis, -, -⟩ := agrees_cons.1 hA'
  have hnr := hdis n hm
  rcases List.mem_cons.1 hm with rfl | hx
  · rw [subst_head hd] at hf
    refine ⟨(agrees_replace_head hA' hnew').perm hf, fun hc => ?_⟩
    have := (members_perm hf).mem_iff.2 hc
    rw [members_cons, List.mem_append, List.mem_cons] at this
    exact this.elim (fun h => h.elim hnn (List.nodup_cons.1 hd).1) hnr
  · obtain ⟨u, v, rfl, -, hnuv⟩ := hA'.entry hx
    rw [subst_entry hnuv] at hf
    refine ⟨(agrees_replace_entry hA' hnuv hnew').perm hf, fun hc => ?_⟩
    have := (members_perm hf).mem_iff.2 hc
    simp only [members_cons, List.mem_append, List.mem_cons, List.not_mem_nil, or_false] at this hnuv
    tauto

theorem agrees_list_replace_init {new : Addr} (hA : Agrees m L) (hn : n ∈ members L) (hnew : new ∉ members L) :
    Agrees (list_replace_init m n new)
      (if n ∈ heads L then (n, []) :: L.map (subst n new) else L.map (subst n new)) := by
  obtain ⟨h1, h2⟩ := agrees_list_replace hA hn hnew
  split
  · exact agrees_new_head h1 h2
  · exact h1.off_list h2 n n

/-! ## Splicing -/

theorem Agrees.entriesOf (hA : Agrees m L) (hr : (h, xs) ∈ L) : entriesOf L h = xs := by
  induction L with
  | nil => cases hr
  | cons r L ih =>
    obtain ⟨k, ys⟩ := r
    obtain ⟨-, hdis, -, hA'⟩ := agrees_cons.1 hA
    simp only [Lists.entriesOf, List.lookup_cons] at ih ⊢
    rcases List.mem_cons.1 hr with e | hm
    · cases e; simp
    · have hne : (h == k) = false := by
        apply beq_false_of_ne
        rintro rfl
        exact hdis h List.mem_cons_self (mem_members.2 ⟨(h, xs), hm, List.mem_cons_self⟩)
      rw [hne]
      exact ih hA' hm

/-- A head names its list. -/
theorem Agrees.head_eq {k : Addr} (hA : Agrees m L) (hk : k ∈ heads L) (hp : L.Perm ((h, xs) :: rest))
    (hm : k ∈ h :: xs) : h = k := by
  obtain ⟨-, hdis, -, -⟩ := agrees_cons.1 (hA.perm hp)
  obtain ⟨r, hr, rfl⟩ := List.mem_map.1 hk
  rcases List.mem_cons.1 (hp.mem_iff.1 hr) with rfl | hr
  · rfl
  · exact absurd (mem_members.2 ⟨r, hr, List.mem_cons_self⟩) (hdis _ hm)

theorem agrees_gap_splice {k : Addr} {ys : List Addr} (hA : Agrees m ((k, ys) :: (h, u ++ v) :: rest))
    (hy : ys ≠ []) : Agrees (INIT_LIST_HEAD (__list_splice m k (lastOf h u) (headOf v h)) k)
      ((k, []) :: (h, u ++ ys ++ v) :: rest) := by
  obtain ⟨hd, hdis, hr, hA'⟩ := agrees_cons.1 hA
  have hky := List.nodup_cons.1 hd
  have hf : headOf ys k ∈ ys := headOf_mem_of_ne_nil hy k
  have hl : lastOf k ys ∈ ys := lastOf_mem_of_ne_nil hy k
  have hys : ∀ y ∈ ys, ∀ a ∈ members ((h, u ++ v) :: rest), a ≠ y := fun y hm a ha e =>
    hdis y (List.mem_cons_of_mem _ hm) (e ▸ ha)
  obtain ⟨hx, hz⟩ := gap_mem h u v rest
  refine agrees_new_head (Agrees.resew (w := []) (by simpa using hA') hky.2 ?_ ?_ ?_ ?_) ?_
  · intro y hm
    have := hdis y (List.mem_cons_of_mem _ hm)
    rwa [members_cons, List.mem_append, not_or] at this
  · -- the entries keep the links among them, only their ends are sewn in
    refine links_between (h := k) hy ?_ (hr.links.inner_congr hd ?_ ?_) ?_
    · simp [Linked, __list_splice, hr.next_head, hr.prev_head, hys _ hl _ hx, (hys _ hf _ hz).symm]
    · intro a ha hal
      simp [__list_splice, hr.next_head, hr.prev_head, hal, (hys a ha _ hx).symm]
    · intro b hb hbf
      simp [__list_splice, hr.next_head, hr.prev_head, hbf, (hys b hb _ hz).symm]
    · simp [Linked, __list_splice, hr.next_head, hr.prev_head]
  · intro a ha hax
    simp [__list_splice, hr.next_head, hr.prev_head, hax, hys _ hl a ha]
  · intro b hb hbz
    simp [__list_splice, hr.next_head, hr.prev_head, hbz, hys _ hf b hb]
  · have := hdis k List.mem_cons_self
    simp only [members_cons, List.mem_append, List.mem_cons] at this ⊢
    have := hky.1
    tauto

/-- A splice at a gap that the edit `f` fills, named by the two nodes `x` and `z` next to it. -/
theorem agrees_splice {k p x z : Addr} (hA : Agrees m L) (hk : k ∈ heads L) (hp : p ∈ members L)
    (hpk : p ∉ k :: entriesOf L k) {f : Addr × List Addr → Addr × List Addr}
    (hfn : ∀ r, p ∉ r.1 :: r.2 → f r = r)
    (hgap : ∀ h xs, (h :: xs).Nodup → p ∈ h :: xs → Ring m.next m.prev h xs →
      ∃ u v, xs = u ++ v ∧ x = lastOf h u ∧ z = headOf v h ∧ f (h, xs) = (h, u ++ entriesOf L k ++ v)) :
    Agrees (if !list_empty m k then INIT_LIST_HEAD (__list_splice m k x z) k else m)
      ((L.map (clear k)).map f) := by
  have hkm : k ∈ members L := by
    obtain ⟨r, hr, rfl⟩ := List.mem_map.1 hk
    exact mem_members.2 ⟨r, hr, List.mem_cons_self⟩
  obtain ⟨k', ys, rest, hL, hm, hA₁, hf₁⟩ := hA.focus hkm _ (clear_of_not_mem (h := k))
  obtain rfl := hA.head_eq hk hL hm
  have eys : entriesOf L k' = ys := hA.entriesOf (hL.mem_iff.2 List.mem_cons_self)
  rw [eys] at hpk hgap
  have hpr : p ∈ members rest :=
    (List.mem_append.1 ((members_perm hL).mem_iff.1 hp)).resolve_left hpk
  obtain ⟨h, xs, rest', hR, hm', hA₂, hf₂⟩ := (agrees_cons.1 hA₁).2.2.2.focus hpr f hfn
  obtain ⟨hd, -, hr, -⟩ := agrees_cons.1 hA₂
  obtain ⟨u, v, rfl, rfl, rfl, e⟩ := hgap h xs hd hm' hr
  -- Both lists in front, then the edit on each.
  have hA₃ : Agrees m ((k', ys) :: (h, u ++ v) :: rest') := hA₁.perm (hR.cons _)
  have ec : clear k' (k', ys) = (k', []) := by simp [clear]
  have ek : f (k', []) = (k', []) := hfn _ fun hc => hpk (List.mem_cons.2 (.inl (by simpa using hc)))
  have hall : ((k', []) :: (h, u ++ ys ++ v) :: rest').Perm ((L.map (clear k')).map f) := by
    refine .trans ?_ (hf₁.map f)
    rw [ec, List.map_cons, ek, ← e]
    exact hf₂.cons _
  refine Agrees.perm ?_ hall
  have hke := (agrees_cons.1 hA₁).2.2.1.next_head
  rcases eq_or_ne ys [] with rfl | hy
  · have he : list_empty m k' = true := by simp [list_empty, hke]
    simpa [he] using hA₃
  · have he : list_empty m k' = false := by
      obtain ⟨y, t, rfl⟩ := List.exists_cons_of_ne_nil hy
      have := (List.nodup_cons.1 (agrees_cons.1 hA₁).1).1
      simp only [list_empty, hke, headOf_cons, beq_eq_false_iff_ne]
      rintro rfl
      exact this List.mem_cons_self
    simpa [he] using agrees_gap_splice hA₃ hy

theorem agrees_list_splice_init {k p : Addr} (hA : Agrees m L) (hk : k ∈ heads L) (hp : p ∈ members L)
    (hpk : p ∉ k :: entriesOf L k) :
    Agrees (list_splice_init m k p) ((L.map (clear k)).map (addAfter p (entriesOf L k))) := by
  apply agrees_splice (x := p) (z := m.next p) hA hk hp hpk (addAfter_of_not_mem _)
  intro h xs hd hm hr
  obtain ⟨u, v, rfl, rfl, e⟩ := gap_after hd hm
  exact ⟨u, v, rfl, rfl, hr.seam.1, e _⟩

theorem agrees_list_splice_tail_init {k p : Addr} (hA : Agrees m L) (hk : k ∈ heads L) (hp : p ∈ members L)
    (hpk : p ∉ k :: entriesOf L k) :
    Agrees (list_splice_tail_init m k p) ((L.map (clear k)).map (addBefore p (entriesOf L k))) := by
  apply agrees_splice (x := m.prev p) (z := p) hA hk hp hpk (addBefore_of_not_mem _)
  intro h xs hd hm hr
  obtain ⟨u, v, rfl, rfl, e⟩ := gap_before hd hm
  exact ⟨u, v, rfl, hr.seam.2, rfl, e _⟩

/-! ## Rotating -/

theorem agrees_list_rotate_left (hA : Agrees m L) (hh : h ∈ heads L) :
    Agrees (list_rotate_left m h) (L.map (rotate h)) := by
  have hhm : h ∈ members L := by
    obtain ⟨r, hr, rfl⟩ := List.mem_map.1 hh
    exact mem_members.2 ⟨r, hr, List.mem_cons_self⟩
  obtain ⟨h', xs, rest, hL, hm, hA', hf⟩ := hA.focus hhm _ (rotate_of_not_mem (h := h))
  obtain rfl := hA.head_eq hh hL hm
  obtain ⟨hd, hdis, hr, -⟩ := agrees_cons.1 hA'
  refine Agrees.perm ?_ hf
  cases xs with
  | nil =>
    have he : list_empty m h' = true := by simp [list_empty, hr.next_head]
    simpa [list_rotate_left, he, rotate, List.rotate_nil] using hA'
  | cons x t =>
    have hne : x ≠ h' := by rintro rfl; exact (List.nodup_cons.1 hd).1 List.mem_cons_self
    have hent : x ∈ entries ((h', x :: t) :: rest) :=
      mem_entries.2 ⟨_, List.mem_cons_self, List.mem_cons_self⟩
    have hmv := agrees_list_move_tail hA' hent (p := h') (by simp) hne
    have hxr : x ∉ members rest := hdis x (by simp)
    have er : rest.map (remove x) = rest := map_eq_self _ remove_of_not_mem hxr
    have ea : rest.map (addBefore h' [x]) = rest :=
      map_eq_self _ (addBefore_of_not_mem [x]) (hdis h' List.mem_cons_self)
    have e1 : remove x (h', x :: t) = (h', t) := by simp [remove]
    have e2 : addBefore h' [x] (h', t) = (h', t ++ [x]) := by simp [addBefore]
    rw [List.map_cons, e1, er, List.map_cons, e2, ea] at hmv
    simpa [list_rotate_left, list_empty, hr.next_head, hne, rotate, List.rotate_cons_succ] using hmv

end SiteCode.ListHead
