import SiteCode.ListHead.Refine
/-!
# Runs of list operations

Any sequence of allowed calls, on any number of lists, keeps memory in step
with the edited sequences (`Agrees`). `Shows` spells out what a program can see
of that through the macros and tests of `list.h`.
-/

namespace SiteCode.ListHead

open Lib ListHead.Lists

variable {m : Mem} {L : Lists}

/-- One allowed call. -/
theorem agrees_exec (hA : Agrees m L) (op : Op) (hok : op.ok L = true) : Agrees (op.exec m) (op.edit L) := by
  cases op <;> simp only [Op.ok, decide_eq_true_eq] at hok
  case LIST_HEAD name => exact agrees_new_head hA hok
  case INIT_LIST_HEAD list => exact agrees_new_head hA hok
  case list_add new head => exact agrees_list_add hA hok.1 hok.2
  case list_add_tail new head => exact agrees_list_add_tail hA hok.1 hok.2
  case list_del entry => exact agrees_list_del hA hok
  case list_del_init entry => exact agrees_list_del_init hA hok
  case list_move list head => exact agrees_list_move hA hok.1 hok.2.1 hok.2.2
  case list_move_tail list head => exact agrees_list_move_tail hA hok.1 hok.2.1 hok.2.2
  case list_replace old new => exact (agrees_list_replace hA hok.1 hok.2).1
  case list_replace_init old new => exact agrees_list_replace_init hA hok.1 hok.2
  case list_rotate_left head => exact agrees_list_rotate_left hA hok
  case list_splice_init list head => exact agrees_list_splice_init hA hok.1 hok.2.1 hok.2.2
  case list_splice_tail_init list head => exact agrees_list_splice_tail_init hA hok.1 hok.2.1 hok.2.2

/-- A run of allowed calls. -/
theorem agrees_run (hA : Agrees m L) (ops : List Op) {L' : Lists} (h : Lists.run L ops = some L') :
    Agrees (m.run ops) L' := by
  induction ops generalizing m L with
  | nil => cases h; exact hA
  | cons op ops ih =>
    rw [Lists.run] at h
    split at h
    · exact ih (agrees_exec hA op ‹_›) h
    · cases h

/-- Before any list is initialised. -/
theorem agrees_nil (m : Mem) : Agrees m [] := ⟨List.nodup_nil, fun _ h => nomatch h⟩

/-! ## What the tests answer -/

theorem Agrees.nodup_list (hA : Agrees m L) {r : Addr × List Addr} (hr : r ∈ L) : (r.1 :: r.2).Nodup :=
  (List.nodup_flatMap.1 hA.nodup).1 r hr

/-- Two lists that share a node are one list. -/
theorem Agrees.eq_of_mem (hA : Agrees m L) {r r' : Addr × List Addr} (hr : r ∈ L) (hr' : r' ∈ L) {a : Addr}
    (ha : a ∈ r.1 :: r.2) (ha' : a ∈ r'.1 :: r'.2) : r = r' := by
  have : Std.Symm (Function.onFun List.Disjoint fun r : Addr × List Addr => r.1 :: r.2) :=
    ⟨fun _ _ h _ h₁ h₂ => h h₂ h₁⟩
  by_contra hne
  exact (List.nodup_flatMap.1 hA.nodup).2.forall hr hr' hne ha ha'

theorem list_empty_eq {h : Addr} {xs : List Addr} (hr : Ring m.next m.prev h xs) (hd : (h :: xs).Nodup) :
    list_empty m h = decide (xs.length = 0) := by
  rw [list_empty, hr.next_head]
  cases xs with
  | nil => simp
  | cons x t =>
    have : x ≠ h := by rintro rfl; exact (List.nodup_cons.1 hd).1 List.mem_cons_self
    simpa using this

theorem list_is_singular_eq {h : Addr} {xs : List Addr} (hr : Ring m.next m.prev h xs) (hd : (h :: xs).Nodup) :
    list_is_singular m h = decide (xs.length = 1) := by
  rw [list_is_singular, list_empty_eq hr hd, hr.next_head, hr.prev_head]
  rcases xs with _ | ⟨x, t⟩
  · simp
  · rcases List.eq_nil_or_concat t with rfl | ⟨s, y, rfl⟩
    · simp [lastOf_cons]
    · have hne : x ≠ y := by
        rintro rfl
        exact (List.nodup_cons.1 (List.nodup_cons.1 hd).2).1 (by simp)
      have e : lastOf h (x :: (s ++ [y])) = y := by rw [lastOf_cons, lastOf_concat]
      simp [e, hne]

/-- The entry whose `next` is the head `h` is the last one of `h`'s list, also
when the entry is on another list. -/
theorem list_is_last_iff (hA : Agrees m L) {r : Addr × List Addr} (hr : r ∈ L) {n : Addr} (hn : n ∈ entries L) :
    list_is_last m n r.1 = true ↔ r.2.getLast? = some n := by
  obtain ⟨r', hr', hm⟩ := mem_entries.1 hn
  have ring := hA.rings r' hr'
  have hmem : m.next n ∈ r'.1 :: r'.2 := (ring.prev_next n (List.mem_cons_of_mem _ hm)).1
  rw [list_is_last, beq_iff_eq]
  obtain ⟨u, v, e⟩ := List.append_of_mem hm
  have hnext : m.next n = headOf v r'.1 := Ring.next_mem (u := u) (e ▸ ring)
  constructor
  · intro he
    obtain rfl := hA.eq_of_mem hr hr' List.mem_cons_self (he ▸ hmem)
    cases v with
    | nil => simp [e]
    | cons z v =>
      have := (List.nodup_cons.1 (hA.nodup_list hr)).1
      rw [hnext, headOf_cons] at he
      rw [e] at this
      exact absurd (by simp [he]) this
  · intro hlast
    have hnr : n ∈ r.2 := List.mem_of_getLast? hlast
    obtain rfl := hA.eq_of_mem hr hr' (List.mem_cons_of_mem _ hnr) (List.mem_cons_of_mem _ hm)
    cases v with
    | nil => rw [hnext, headOf_nil]
    | cons z v =>
      have hd := (List.nodup_cons.1 (hA.nodup_list hr)).2
      rw [e] at hd hlast
      rw [List.getLast?_append_of_ne_nil _ (List.cons_ne_nil _ _)] at hlast
      have hnm := (List.nodup_cons.1 (List.nodup_append.1 hd).2.1).1
      rw [List.getLast?_cons_cons] at hlast
      exact absurd (List.mem_of_getLast? hlast) hnm

/-! ## What a program sees -/

/-- Memory `m` shows the lists `L`. -/
structure Shows (m : Mem) (L : Lists) : Prop where
  /-- Every head starts a circular ring of its entries. -/
  ring : ∀ r ∈ L, Ring m.next m.prev r.1 r.2
  /-- On a ring, `next` and `prev` stay on it and undo each other. -/
  inverse : ∀ r ∈ L, ∀ a ∈ r.1 :: r.2, (m.next a ∈ r.1 :: r.2 ∧ m.prev (m.next a) = a) ∧
    (m.prev a ∈ r.1 :: r.2 ∧ m.next (m.prev a) = a)
  /-- A ring has no node twice, and two rings share none. -/
  nodup : ∀ r ∈ L, (r.1 :: r.2).Nodup
  disjoint : L.Pairwise fun r r' => List.Disjoint (r.1 :: r.2) (r'.1 :: r'.2)
  for_each : ∀ r ∈ L, ∀ fuel, r.2.length < fuel → list_for_each m r.1 fuel = some r.2
  for_each_prev : ∀ r ∈ L, ∀ fuel, r.2.length < fuel → list_for_each_prev m r.1 fuel = some r.2.reverse
  empty : ∀ r ∈ L, list_empty m r.1 = decide (r.2.length = 0)
  empty_careful : ∀ r ∈ L, list_empty_careful m r.1 = decide (r.2.length = 0)
  singular : ∀ r ∈ L, list_is_singular m r.1 = decide (r.2.length = 1)
  is_last : ∀ r ∈ L, ∀ n ∈ entries L, list_is_last m n r.1 = true ↔ r.2.getLast? = some n

theorem Agrees.shows (hA : Agrees m L) : Shows m L where
  ring := hA.rings
  inverse r hr a ha := ⟨(hA.rings r hr).prev_next a ha, (hA.rings r hr).next_prev a ha⟩
  nodup _ hr := hA.nodup_list hr
  disjoint := (List.nodup_flatMap.1 hA.nodup).2
  for_each r hr _ hf := (hA.rings r hr).walk_next (List.nodup_cons.1 (hA.nodup_list hr)).1 hf
  for_each_prev r hr _ hf := (hA.rings r hr).walk_prev (List.nodup_cons.1 (hA.nodup_list hr)).1 hf
  empty r hr := list_empty_eq (hA.rings r hr) (hA.nodup_list hr)
  empty_careful r hr := by
    have he := list_empty_eq (hA.rings r hr) (hA.nodup_list hr)
    have hring := hA.rings r hr
    rw [list_empty_careful]
    simp only [list_empty] at he
    rw [he]
    by_cases hx : r.2 = []
    · rw [hx] at hring ⊢
      simp [(ring_nil.1 hring).1, (ring_nil.1 hring).2]
    · simp [hx]
  singular r hr := list_is_singular_eq (hA.rings r hr) (hA.nodup_list hr)
  is_last _ hr _ hn := list_is_last_iff hA hr hn

/-- Doubly linked lists refine sequences. After any run of allowed calls, from any
memory in which no list is initialised yet, memory shows exactly the lists that the
edits of mathematical sequences give. -/
theorem list_runs_refine (m : Mem) (ops : List Op) (L : Lists) (h : Lists.run [] ops = some L) :
    Shows (m.run ops) L :=
  (agrees_run (agrees_nil m) ops h).shows

/-- Two lists at 1 and 2; the first is filled, rotated, its head replaced by 7
and spliced into the second. -/
theorem list_runs_refine_splice : Shows
    (Mem.run ⟨fun _ => 0, fun _ => 0⟩ [.LIST_HEAD 1, .INIT_LIST_HEAD 2, .list_add_tail 10 1, .list_add 11 1,
      .list_rotate_left 1, .list_replace_init 1 7, .list_splice_init 7 2, .list_move 11 2, .list_del 10])
    [(1, []), (2, [11]), (7, [])] :=
  list_runs_refine _ _ _ (by decide)

end SiteCode.ListHead
