import Mathlib.Logic.Function.Basic
import SiteCode.Lib.Edit
import SiteCode.Hlist.Ops
/-!
# The back-pointer invariant

`Agrees m L`: the chain from every head `h` runs through the sequence `L h` and
ends in NULL, and each node's `pprev` is the address of the link that leads to
it. An edit changes a stretch of one chain (`Agrees.resew`): the link in front
of it, the stretch itself, and the back pointer of the node behind it.
-/

namespace SiteCode.Hlist

open Lib

variable {H N : Type}

/-- The sequence of nodes of every head. -/
abbrev Lists (H N : Type) := H → List N

/-- The cell `c` leads to `x`, and `x` knows it. -/
def Leads (m : Mem H N) (c : Slot H N) (x : N) : Prop := m.load c = some (.node x) ∧ m.pprev x = c

def Ends (m : Mem H N) (c : Slot H N) : Prop := m.load c = some .NULL

/-- No node stands twice, on one list or on two. -/
structure Separate (L : Lists H N) : Prop where
  nodup : ∀ h, (L h).Nodup
  disjoint : ∀ h k, ∀ n ∈ L h, n ∈ L k → h = k

structure Agrees (m : Mem H N) (L : Lists H N) : Prop where
  separate : Separate L
  chain : ∀ h, Chain .next (Ends m) (Leads m) (.first h) (L h)

/-- On no list. -/
def Off (L : Lists H N) (n : N) : Prop := ∀ h, n ∉ L h

variable {m m' : Mem H N} {L : Lists H N} {h : H} {n : N} {u v : List N}

theorem next_inj : Function.Injective (Slot.next (H := H) (N := N)) := fun _ _ e => Slot.next.inj e

/-- The cell in front of the gap behind `u`. -/
abbrev cellAt (h : H) (u : List N) : Slot H N := endCell .next (.first h) u

/-! ## What memory holds at a gap -/

/-- The pointer to the first node of `v`, or NULL. -/
def ptrTo : List N → Ptr N
  | [] => .NULL
  | z :: _ => .node z

@[simp] theorem ptrTo_nil : ptrTo ([] : List N) = .NULL := rfl
@[simp] theorem ptrTo_cons (z : N) (v : List N) : ptrTo (z :: v) = .node z := rfl

theorem load_of_chain {c : Slot H N} (hc : Chain .next (Ends m) (Leads m) c v) : m.load c = some (ptrTo v) := by
  cases v with
  | nil => exact hc.last
  | cons z v => exact (chain_cons.1 hc).1.1

theorem Agrees.load_cellAt (hA : Agrees m L) (hL : L h = u ++ v) : m.load (cellAt h u) = some (ptrTo v) :=
  load_of_chain (hL ▸ hA.chain h).suffix

theorem Agrees.pprev_mid (hA : Agrees m L) (hL : L h = u ++ n :: v) : m.pprev n = cellAt h u :=
  (hL ▸ hA.chain h).to_mid.2

theorem Agrees.next_mid (hA : Agrees m L) (hL : L h = u ++ n :: v) : m.next n = ptrTo v := by
  have := hA.load_cellAt (u := u ++ [n]) (v := v) (by simpa using hL)
  simpa [cellAt, Mem.load] using this

/-- The cell in front of a gap belongs to the gap's own list. -/
theorem cellAt_cases (h : H) (u : List N) : cellAt h u = .first h ∨ ∃ y ∈ u, cellAt h u = .next y :=
  endCell_mem _ _

/-- `n` is on no list, so it is neither in a gap's stretches nor in front of one. -/
theorem Off.gap (hn : Off L n) (hL : L h = u ++ v) : n ∉ u ∧ n ∉ v ∧ (.next n : Slot H N) ≠ cellAt h u ∧
    n ∉ v.take 1 := by
  have hm : n ∉ u ++ v := hL ▸ hn h
  rw [List.mem_append, not_or] at hm
  refine ⟨hm.1, hm.2, fun e => ?_, fun hc => hm.2 (List.mem_of_mem_take hc)⟩
  rcases cellAt_cases h u with e' | ⟨y, hy, e'⟩ <;> rw [e'] at e
  · cases e
  · exact hm.1 (Slot.next.inj e ▸ hy)

/-! ## Surgery -/

theorem Separate.resew [DecidableEq H] {w ys : List N} (hs : Separate L) (hL : L h = u ++ w ++ v)
    (hys : ys.Nodup) (hfresh : ∀ y ∈ ys, y ∈ w ∨ Off L y) : Separate (Function.update L h (u ++ ys ++ v)) := by
  have hnd := hL ▸ hs.nodup h
  have hmem : ∀ n, n ∈ u ++ w ++ v → n ∈ L h := fun n hn => hL ▸ hn
  have hyuv : ∀ y ∈ ys, y ∉ u ++ v := by
    intro y hy hm
    have hyh : y ∈ L h := hmem y (by simp only [List.mem_append] at hm ⊢; tauto)
    have hms := (hfresh y hy).resolve_right fun ho => ho h hyh
    simp only [List.nodup_append, List.mem_append] at hnd hm
    rcases hm with hu | hv
    · exact hnd.1.2.2 y hu y hms rfl
    · exact hnd.2.2 y (.inr hms) y hv rfl
  have hyk : ∀ y ∈ ys, ∀ k, y ∈ L k → k = h := fun y hy k hk => by
    rcases hfresh y hy with hm | ho
    · exact hs.disjoint k h y hk (hmem y (by simp [hm]))
    · exact absurd hk (ho k)
  refine ⟨fun k => ?_, fun k k' n hn hn' => ?_⟩
  · by_cases hk : k = h
    · subst hk
      have hp : (u ++ ys ++ v).Perm (ys ++ (u ++ v)) := by
        rw [← List.append_assoc]; exact List.perm_append_comm.append_right v
      have huv : (u ++ v).Nodup := hnd.sublist (by simp)
      rw [Function.update_self, hp.nodup_iff]
      exact List.nodup_append.2 ⟨hys, huv, fun a ha b hb e => hyuv a ha (e ▸ hb)⟩
    · rw [Function.update_of_ne hk]; exact hs.nodup k
  · have back : ∀ k, n ∈ Function.update L h (u ++ ys ++ v) k → (k = h ∧ n ∈ ys) ∨ n ∈ L k := by
      intro k hn
      by_cases hk : k = h
      · subst hk
        rw [Function.update_self] at hn
        simp only [hL, List.mem_append, true_and] at hn ⊢; tauto
      · rw [Function.update_of_ne hk] at hn; exact .inr hn
    rcases back k hn with ⟨rfl, h1⟩ | h1 <;> rcases back k' hn' with ⟨rfl, h2⟩ | h2
    · rfl
    · exact (hyk n h1 k' h2).symm
    · exact hyk n h2 k h1
    · exact hs.disjoint k k' n h1 h2

/-- In one chain the stretch `w` is replaced by `ys`. The new links up to the first
node behind the gap must stand; outside, only the cell in front of the gap, the cells
of `w` and `ys`, and the `pprev` of `w`, `ys` and the first node behind may change. -/
theorem Agrees.resew [DecidableEq H] {w ys : List N} (hA : Agrees m L) (hL : L h = u ++ w ++ v)
    (hys : ys.Nodup) (hfresh : ∀ y ∈ ys, y ∈ w ∨ Off L y)
    (hseam : ∀ p ∈ links .next (cellAt h u) (ys ++ v.take 1), Leads m' p.1 p.2)
    (hend : v = [] → Ends m' (endCell .next (cellAt h u) ys))
    (hload : ∀ s, s ≠ cellAt h u → (∀ n ∈ w ++ ys, s ≠ .next n) → m'.load s = m.load s)
    (hpprev : ∀ n, n ∉ w ++ ys → n ∉ v.take 1 → m'.pprev n = m.pprev n) :
    Agrees m' (Function.update L h (u ++ ys ++ v)) := by
  have hs := hA.separate
  have hnd := hL ▸ hs.nodup h
  have hmem : ∀ n, n ∈ u ++ w ++ v → n ∈ L h := fun n hn => hL ▸ hn
  have hother : ∀ k, k ≠ h → ∀ n ∈ L k, n ∉ u ++ w ++ v := fun k hk n hn hm =>
    hk (hs.disjoint k h n hn (hmem n hm))
  -- A node outside the gap, on whatever list, is neither removed nor added.
  have hkept : ∀ k, ∀ n ∈ L k, (k = h → n ∈ u ++ v) → n ∉ w ++ ys := by
    intro k n hn huv hm
    have hms : n ∈ w := (List.mem_append.1 hm).elim id fun hy => (hfresh n hy).resolve_right fun ho => ho k hn
    have hk : k = h := hs.disjoint k h n hn (hmem n (by simp [hms]))
    have := huv hk
    simp only [List.nodup_append, List.mem_append] at hnd this
    rcases this with hu | hv
    · exact hnd.1.2.2 n hu n hms rfl
    · exact hnd.2.2 n (.inr hms) n hv rfl
  refine ⟨hs.resew hL hys hfresh, fun k => ?_⟩
  by_cases hk : k = h
  · subst hk
    have hkn : ∀ n ∈ u ++ v, n ∉ w ++ ys := fun n hn => hkept k n
      (hmem n (by simp only [List.mem_append] at hn ⊢; tauto)) fun _ => hn
    have hcell : ∀ s : Slot H N, (s = .first k ∨ ∃ y ∈ u ++ v, s = .next y) → ∀ n ∈ w ++ ys, s ≠ .next n := by
      rintro s (rfl | ⟨y, hy, rfl⟩) n hn e
      · cases e
      · exact hkn y hy (Slot.next.inj e ▸ hn)
    rw [Function.update_self]
    refine Chain.resew next_inj (hL ▸ hA.chain k) (hnd.sublist (by simp)) (fun y e => by cases e) hseam hend
      (fun s x h1 h2 h3 h4 hl => ⟨(hload s h1 (hcell s h2)).trans hl.1, (hpprev x (hkn x h3) h4).trans hl.2⟩)
      fun y hy hl => (hload _ ?_ (hcell _ (.inr ⟨y, by simp [hy], rfl⟩))).trans hl
    rcases cellAt_cases k u with e | ⟨y', hy', e⟩ <;> rw [e] <;> intro e'
    · cases e'
    · exact (List.nodup_append.1 hnd).2.2 y' (by simp [hy']) y hy (Slot.next.inj e').symm
  · rw [Function.update_of_ne hk]
    have hkn : ∀ n ∈ L k, n ∉ w ++ ys := fun n hn => hkept k n hn fun e => absurd e hk
    have hcell : ∀ s : Slot H N, (s = .first k ∨ ∃ y ∈ L k, s = .next y) →
        s ≠ cellAt h u ∧ ∀ n ∈ w ++ ys, s ≠ .next n := by
      rintro s (rfl | ⟨y, hy, rfl⟩) <;> rcases cellAt_cases h u with e | ⟨y', hy', e⟩ <;> rw [e]
      · exact ⟨fun e => hk (Slot.first.inj e), fun _ _ => nofun⟩
      · exact ⟨nofun, fun _ _ => nofun⟩
      · exact ⟨nofun, fun n hn e => hkn y hy (Slot.next.inj e ▸ hn)⟩
      · refine ⟨fun e => hother k hk y hy ?_, fun n hn e => hkn y hy (Slot.next.inj e ▸ hn)⟩
        simp [Slot.next.inj e, hy']
    refine (hA.chain k).congr (fun p hp hl => ?_) fun hl => ?_
    · obtain ⟨h1, h2⟩ := mem_links hp
      refine ⟨(hload _ (hcell _ h1).1 (hcell _ h1).2).trans hl.1, (hpprev _ (hkn _ h2) fun hm => ?_).trans hl.2⟩
      exact hother k hk _ h2 (by simp [List.mem_of_mem_take hm])
    · have h1 := hcell _ (cellAt_cases k (L k))
      exact (hload _ h1.1 h1.2).trans hl

/-! ## One node in, one node out -/

section
variable [DecidableEq H]

/-- `n` stands in the gap `u | v`, linked on both sides. -/
theorem Agrees.insert (hA : Agrees m L) (hL : L h = u ++ v) (hn : Off L n)
    (hin : Leads m' (cellAt h u) n) (hout : m'.next n = ptrTo v) (hback : ∀ z ∈ v.take 1, m'.pprev z = .next n)
    (hload : ∀ s, s ≠ cellAt h u → s ≠ .next n → m'.load s = m.load s)
    (hpprev : ∀ k, k ≠ n → k ∉ v.take 1 → m'.pprev k = m.pprev k) :
    Agrees m' (Function.update L h (u ++ [n] ++ v)) := by
  apply hA.resew (w := []) (by simpa using hL) (List.nodup_singleton n) (by simpa using hn)
  · cases v with
    | nil => simpa using hin
    | cons z v =>
      have hz : Leads m' (.next n) z := ⟨congrArg some hout, hback z (by simp)⟩
      simpa using ⟨hin, hz⟩
  · rintro rfl
    exact congrArg some hout
  · intro s h1 h2
    exact hload s h1 (h2 n (by simp))
  · intro k h1 h2
    exact hpprev k (by simpa using h1) h2

/-- `n` is taken out of its gap, which is closed on both sides. -/
theorem Agrees.delete (hA : Agrees m L) (hL : L h = u ++ n :: v)
    (hout : m'.load (cellAt h u) = some (ptrTo v)) (hback : ∀ z ∈ v.take 1, m'.pprev z = cellAt h u)
    (hload : ∀ s, s ≠ cellAt h u → s ≠ .next n → m'.load s = m.load s)
    (hpprev : ∀ k, k ≠ n → k ∉ v.take 1 → m'.pprev k = m.pprev k) :
    Agrees m' (Function.update L h (u ++ v)) := by
  have hdel : Agrees m' (Function.update L h (u ++ [] ++ v)) := by
    apply hA.resew (w := [n]) (by simpa using hL) List.nodup_nil (by simp)
    · cases v with
      | nil => simp
      | cons z v => simpa using ⟨hout, hback z (by simp)⟩
    · rintro rfl
      exact hout
    · intro s h1 h2
      exact hload s h1 (h2 n (by simp))
    · intro k h1 h2
      exact hpprev k (by simpa using h1) h2
  simpa using hdel

/-- The nodes of the emptied head are on no list. -/
theorem Separate.off_empty_head (hs : Separate L) {h : H} : ∀ y ∈ L h, Off (Function.update L h []) y := by
  intro y hy k
  by_cases hk : k = h
  · simp [hk]
  · rw [Function.update_of_ne hk]
    exact fun hm => hk (hs.disjoint k h y hm hy)

end

/-! ## The operations -/

/-- `fixPprev` on the pointer to the first node of `v`. -/
theorem fixPprev_ptrTo [DecidableEq N] (m : Mem H N) (v : List N) (s : Slot H N) :
    ∃ m', m.fixPprev (ptrTo v) s = some m' ∧ (∀ t, m'.load t = m.load t) ∧
      ∀ k, m'.pprev k = if k ∈ v.take 1 then s else m.pprev k := by
  cases v with
  | nil => exact ⟨m, rfl, fun _ => rfl, by simp⟩
  | cons z v => exact ⟨m.setPprev z s, rfl, by simp, by simp⟩

section
variable [DecidableEq H] [DecidableEq N]

theorem spec_hlist_add_head (hA : Agrees m L) (hn : Off L n) : ∃ m', hlist_add_head m n h = some m' ∧
    Agrees m' (Function.update L h (n :: L h)) ∧ ∀ k, k ≠ n → Off L k → m'.pprev k = m.pprev k := by
  have hL : L h = [] ++ L h := rfl
  have e : m.first h = ptrTo (L h) := Option.some.inj (hA.load_cellAt hL)
  obtain ⟨-, -, -, hnt⟩ := hn.gap hL
  -- `first` is read before any write, and what is written before `h->first` loads the same
  obtain ⟨m₁, h1, h2, h3⟩ := fixPprev_ptrTo (m.setNext n (ptrTo (L h))) (L h) (.next n)
  refine ⟨(m₁.setFirst h (.node n)).setPprev n (.first h), ?_, ?_, fun k hk ho => ?_⟩
  · simp [hlist_add_head, e, h1]
  · have hin : Leads ((m₁.setFirst h (.node n)).setPprev n (.first h)) (cellAt h []) n := by simp [Leads]
    refine hA.insert (u := []) hL hn hin (Option.some.inj ?_) ?_ ?_ ?_
    · have := h2 (.next n)
      simpa [Mem.load] using this
    · intro z hz
      have hzn : z ≠ n := by rintro rfl; exact hnt hz
      simp [hzn, h3, hz]
    · intro s h4 h5
      simp only [cellAt, endCell_nil] at h4
      simp [h4, h5, h2]
    · intro k h4 h5
      simp [h4, h5, h3]
  · simp [hk, h3, (ho.gap hL).2.2.2]

theorem spec_hlist_add_before {next : N} (hA : Agrees m L) (hn : Off L n) (hL : L h = u ++ next :: v) :
    ∃ m', hlist_add_before m n next = some m' ∧ Agrees m' (Function.update L h (u ++ [n] ++ next :: v)) ∧
      ∀ k, k ≠ n → Off L k → m'.pprev k = m.pprev k := by
  obtain ⟨-, hnv, hnc, -⟩ := hn.gap hL
  have hne : next ≠ n := by rintro rfl; exact hnv List.mem_cons_self
  have ep := hA.pprev_mid hL
  have el := hA.load_cellAt hL
  obtain ⟨m', h1, h2, h3⟩ := (((m.setPprev n (cellAt h u)).setNext n (.node next)).setPprev next (.next n)).store_spec
    (s := cellAt h u) (by simp [hnc.symm, el]) (.node n)
  refine ⟨m', ?_, ?_, fun k hk ho => ?_⟩
  · simpa [hlist_add_before, ep, hne.symm] using h1
  · refine hA.insert hL hn ⟨?_, ?_⟩ (Option.some.inj ?_) ?_ ?_ ?_
    · rw [h3, if_pos rfl]
    · simp [h2, hne.symm]
    · have := h3 (.next n)
      simpa [hnc, Mem.load, ptrTo] using this
    · simp [h2]
    · intro s h4 h5
      simp [h3, h4, h5]
    · intro k h4 h5
      simp only [List.take_succ_cons, List.take_zero, List.mem_singleton] at h5
      simp [h2, h4, h5]
  · have hkn : k ≠ next := by rintro rfl; exact (ho.gap hL).2.1 List.mem_cons_self
    simp [h2, hk, hkn]

theorem spec_hlist_add_behind {prev : N} (hA : Agrees m L) (hn : Off L n) (hL : L h = u ++ prev :: v) :
    ∃ m', hlist_add_behind m n prev = some m' ∧ Agrees m' (Function.update L h (u ++ [prev] ++ [n] ++ v)) ∧
      ∀ k, k ≠ n → Off L k → m'.pprev k = m.pprev k := by
  have hL' : L h = (u ++ [prev]) ++ v := by simpa using hL
  obtain ⟨hnu, -, -, hnt⟩ := hn.gap hL'
  have hne : n ≠ prev := by rintro rfl; exact hnu (by simp)
  have ec : cellAt h (u ++ [prev]) = .next prev := by simp [cellAt]
  have en := hA.next_mid hL
  obtain ⟨m', h1, h2, h3⟩ := fixPprev_ptrTo
    (((m.setNext n (ptrTo v)).setNext prev (.node n)).setPprev n (.next prev)) v (.next n)
  refine ⟨m', ?_, ?_, fun k hk ho => ?_⟩
  · simpa [hlist_add_behind, en, hne] using h1
  · refine hA.insert hL' hn ⟨?_, ?_⟩ (Option.some.inj ?_) ?_ ?_ ?_
    · simp [ec, h2]
    · simp [ec, h3, hnt]
    · have := h2 (.next n)
      simpa [hne, Mem.load] using this
    · intro z hz
      simp [h3, hz]
    · intro s h4 h5
      rw [ec] at h4
      simp [h2, h4, h5]
    · intro k h4 h5
      simp [h3, h4, h5]
  · simp [h3, hk, (ho.gap hL').2.2.2]

/-- `__hlist_del` closes the gap; the node's own fields are left stale. -/
theorem spec_raw_hlist_del (hA : Agrees m L) (hL : L h = u ++ n :: v) : ∃ m', __hlist_del m n = some m' ∧
    m'.load (cellAt h u) = some (ptrTo v) ∧ (∀ z ∈ v.take 1, m'.pprev z = cellAt h u) ∧
    (∀ s, s ≠ cellAt h u → m'.load s = m.load s) ∧ ∀ k, k ∉ v.take 1 → m'.pprev k = m.pprev k := by
  have ep := hA.pprev_mid hL
  have en := hA.next_mid hL
  have el := hA.load_cellAt hL
  obtain ⟨m₁, h1, h2, h3⟩ := m.store_spec (s := cellAt h u) (by simp [el]) (ptrTo v)
  obtain ⟨m', h4, h5, h6⟩ := fixPprev_ptrTo m₁ v (cellAt h u)
  refine ⟨m', by simp [__hlist_del, ep, en, h1, h4], by simp [h5, h3], ?_, ?_, ?_⟩
  · intro z hz
    simp [h6, hz]
  · intro s hs
    simp [h5, h3, hs]
  · intro k hk
    simp [h6, hk, h2]

/-- Deleting `n` and then writing `n`'s own fields. -/
theorem Agrees.delete_mark (hA : Agrees m L) (hL : L h = u ++ n :: v) (p : Ptr N) (s : Slot H N) :
    ∃ m₁, __hlist_del m n = some m₁ ∧ Agrees ((m₁.setNext n p).setPprev n s) (Function.update L h (u ++ v)) ∧
      ∀ k, k ≠ n → Off L k → ((m₁.setNext n p).setPprev n s).pprev k = m.pprev k := by
  obtain ⟨m₁, h1, h2, h3, h4, h5⟩ := spec_raw_hlist_del hA hL
  have hnd := hL ▸ hA.separate.nodup h
  have hnu : n ∉ u := fun hm => (List.nodup_append.1 hnd).2.2 n hm n (by simp) rfl
  have hnv : n ∉ v := (List.nodup_cons.1 (List.nodup_append.1 hnd).2.1).1
  have hc : cellAt h u ≠ .next n := by
    rcases cellAt_cases h u with e | ⟨y, hy, e⟩ <;> rw [e]
    · nofun
    · exact fun e => hnu (Slot.next.inj e ▸ hy)
  -- the fields of `n` belong to no chain any more, so writing them keeps all chains
  refine ⟨m₁, h1, hA.delete hL ?_ ?_ ?_ ?_, fun k hk ho => ?_⟩
  · simp [hc, h2]
  · intro z hz
    have hzn : z ≠ n := by rintro rfl; exact hnv (List.mem_of_mem_take hz)
    simp [hzn, h3 z hz]
  · intro t h6 h7
    simp [h7, h4 t h6]
  · intro k h6 h7
    simp [h6, h5 k h7]
  · have hkv : k ∉ v.take 1 := fun hm => ho h (by simp [hL, List.mem_of_mem_take hm])
    simp [hk, h5 k hkv]

theorem spec_hlist_del (hA : Agrees m L) (hL : L h = u ++ n :: v) : ∃ m', hlist_del m n = some m' ∧
    Agrees m' (Function.update L h (u ++ v)) ∧ m'.pprev n = .LIST_POISON2 ∧
    ∀ k, k ≠ n → Off L k → m'.pprev k = m.pprev k := by
  obtain ⟨m₁, h1, h2, h3⟩ := hA.delete_mark hL .LIST_POISON1 .LIST_POISON2
  exact ⟨_, by simp [hlist_del, h1], h2, by simp, h3⟩

theorem spec_hlist_del_init (hA : Agrees m L) (hL : L h = u ++ n :: v) : ∃ m', hlist_del_init m n = some m' ∧
    Agrees m' (Function.update L h (u ++ v)) ∧ m'.pprev n = .NULL ∧
    ∀ k, k ≠ n → Off L k → m'.pprev k = m.pprev k := by
  obtain ⟨m₁, h1, h2, h3⟩ := hA.delete_mark hL .NULL .NULL
  have hu : hlist_unhashed m n = false := by
    rw [hlist_unhashed, hA.pprev_mid hL, decide_eq_false_iff_not]
    rcases cellAt_cases h u with e | ⟨y, hy, e⟩ <;> rw [e] <;> nofun
  exact ⟨_, by simp [hlist_del_init, hu, h1, INIT_HLIST_NODE], h2, by simp, h3⟩

/-- On a node with NULL `pprev`, `hlist_del_init` does nothing. -/
theorem hlist_del_init_unhashed (hp : m.pprev n = .NULL) : hlist_del_init m n = some m := by
  simp [hlist_del_init, hlist_unhashed, hp]

/-- A head is emptied. -/
theorem Agrees.empty_head (hA : Agrees m L) (h : H) : Agrees (m.setFirst h .NULL) (Function.update L h []) := by
  have hcut : Agrees (m.setFirst h .NULL) (Function.update L h ([] ++ [] ++ [])) := by
    apply hA.resew (w := L h) (by simp) List.nodup_nil (by simp) (by simp) (fun _ => by simp [Ends, cellAt])
    · intro s hs _
      simp only [cellAt, endCell_nil] at hs
      simp [hs]
    · simp
  simpa using hcut

/-- The whole list of `old` moves to the empty head `new`. -/
theorem spec_hlist_move_list {old new : H} (hA : Agrees m L) (hne : old ≠ new) (hnew : L new = []) :
    ∃ m', hlist_move_list m old new = some m' ∧
      Agrees m' (Function.update (Function.update L old []) new (L old)) ∧
      ∀ k, Off L k → m'.pprev k = m.pprev k := by
  have e : m.first old = ptrTo (L old) := Option.some.inj (hA.load_cellAt (u := []) rfl)
  obtain ⟨m₁, h1, h2, h3⟩ := fixPprev_ptrTo (m.setFirst new (ptrTo (L old))) (L old) (.first new)
  refine ⟨m₁.setFirst old .NULL, by simp [hlist_move_list, e, h1], ?_, fun k ho => ?_⟩
  · -- First the old head is emptied, then the stretch is sewn to the new head.
    have hA₁ := hA.empty_head old
    have hnew₁ : Function.update L old [] new = [] := by rw [Function.update_of_ne hne.symm, hnew]
    have hold : (Slot.first old : Slot H N) ≠ .first new := fun e => hne (Slot.first.inj e)
    suffices hsewn : Agrees (m₁.setFirst old .NULL)
        (Function.update (Function.update L old []) new ([] ++ L old ++ [])) by simpa using hsewn
    have hoff := hA.separate.off_empty_head (h := old)
    apply hA₁.resew (w := []) (by simpa using hnew₁) (hA.separate.nodup old) (fun y hy => .inr (hoff y hy))
    · have hc := hA.chain old
      simp only [cellAt, endCell_nil, List.take_nil, List.append_nil]
      cases hxs : L old with
      | nil => simp
      | cons z v =>
        rw [hxs] at hc h2 h3
        obtain ⟨hz, hzv⟩ := List.nodup_cons.1 (hxs ▸ hA.separate.nodup old)
        intro p hp
        rcases List.mem_cons.1 hp with rfl | hp
        · exact ⟨by simp [hold.symm, h2, ptrTo], by simp [h3]⟩
        · obtain ⟨h4, h5⟩ := mem_links hp
          have hl := (chain_cons.1 hc).2.link p hp
          have hp1 : p.1 ≠ .first old ∧ p.1 ≠ .first new := by
            rcases h4 with e | ⟨y, _, e⟩ <;> rw [e] <;> exact ⟨nofun, nofun⟩
          have hpz : p.2 ≠ z := by rintro e; exact hz (e ▸ h5)
          exact ⟨by simpa [hp1, h2] using hl.1, by simpa [hpz, h3] using hl.2⟩
    · intro _
      have hlast := (hA.chain old).last
      rcases hxs : L old with _ | ⟨z, v⟩
      · simp [Ends, hold.symm, h2, hxs, ptrTo]
      · rw [hxs] at hlast
        have h4 : endCell Slot.next (.next z : Slot H N) v = _ ∨ _ := endCell_mem _ v
        have h5 : ∀ k : H, endCell Slot.next (.next z) v ≠ .first k := by
          intro k
          rcases h4 with e | ⟨y, _, e⟩ <;> rw [e] <;> nofun
        simpa [Ends, h5, h2] using hlast
    · intro s h4 h5
      simp only [cellAt, endCell_nil] at h4
      simp [h2, h4]
    · intro k h4 _
      have h5 : k ∉ (L old).take 1 := fun hm => h4 (by simpa using List.mem_of_mem_take hm)
      simp [h3, h5]
  · have h5 : k ∉ (L old).take 1 := fun hm => ho old (List.mem_of_mem_take hm)
    simp [h3, h5]

end

end SiteCode.Hlist
