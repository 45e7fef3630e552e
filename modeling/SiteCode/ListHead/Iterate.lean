import SiteCode.ListHead.Calls
import SiteCode.ListHead.Safe
/-!
# Iteration from any entry

The macros over entries start at either end of a list or at an entry of it, and go
forwards or backwards. What they visit is a stretch of the list: with an entry `p`
of `u ++ p :: v`, one of `v`, `p :: v` and their mirror images.
-/

namespace SiteCode.ListHead

open Lib ListHead.Lists

variable {m : Mem} {L : Lists} {h p : Addr} {xs u v : List Addr} {offset fuel : Nat}

/-! ## Plain loops -/

/-- The loop over entries is the walk over their members. -/
theorem for_each_entry_eq (offset : Nat) (link : Addr → Addr) (head : Addr) (fuel : Nat) (pos : Addr) :
    for_each_entry offset (fun pos => list_entry offset (link (member offset pos))) head fuel (list_entry offset pos) =
      (walk link head fuel pos).map (List.map (list_entry offset)) := by
  induction fuel generalizing pos with
  | zero => rfl
  | succ fuel ih =>
    unfold for_each_entry walk
    rw [member_list_entry]
    by_cases hp : pos = head
    · simp [hp]
    · simp [hp, ih, Option.map_map, Function.comp_def]

/-- A loop forwards over the stretch behind a gap. -/
theorem for_each_entry_next (hr : Ring m.next m.prev h (u ++ v)) (hv : h ∉ v) (hf : v.length < fuel) :
    for_each_entry offset (list_next_entry offset m) h fuel (list_entry offset (headOf v h)) =
      some (v.map (list_entry offset)) := by
  have hwalk := hr.walk_from hv hf
  have heq := for_each_entry_eq offset m.next h fuel (headOf v h)
  rwa [hwalk] at heq

/-- A loop backwards over the stretch in front of a gap. -/
theorem for_each_entry_prev (hr : Ring m.next m.prev h (u ++ v)) (hu : h ∉ u) (hf : u.length < fuel) :
    for_each_entry offset (list_prev_entry offset m) h fuel (list_entry offset (lastOf h u)) =
      some (u.reverse.map (list_entry offset)) := by
  have hrev : Ring m.prev m.next h (v.reverse ++ u.reverse) := by
    rw [← List.reverse_append]
    exact hr.reverse
  have hwalk : walk m.prev h fuel (headOf u.reverse h) = some u.reverse :=
    hrev.walk_from (by simpa using hu) (by simpa using hf)
  have hhead : headOf u.reverse h = lastOf h u := by
    rcases List.eq_nil_or_concat u with rfl | ⟨t, x, rfl⟩
    · rfl
    · simp
  have heq := for_each_entry_eq offset m.prev h fuel (lastOf h u)
  rw [hhead] at hwalk
  rwa [hwalk] at heq

/-- What the macros answer for the list `xs` of the head `h`. -/
structure Walks (offset : Nat) (m : Mem) (h : Addr) (xs : List Addr) : Prop where
  first_or_null : list_first_entry_or_null offset m h = xs.head?.map (list_entry offset)
  forwards : ∀ fuel, xs.length < fuel → list_for_each_entry offset m h fuel = some (xs.map (list_entry offset))
  backwards : ∀ fuel, xs.length < fuel →
    list_for_each_entry_reverse offset m h fuel = some (xs.reverse.map (list_entry offset))
  /-- A loop that is to go on from NULL starts with the first entry. -/
  from_null : ∀ fuel, xs.length < fuel →
    list_for_each_entry_continue offset m (list_prepare_entry offset none h) h fuel = some (xs.map (list_entry offset))
  continue_ : ∀ u p v, xs = u ++ p :: v → ∀ fuel, xs.length < fuel →
    list_for_each_entry_continue offset m (list_prepare_entry offset (some (list_entry offset p)) h) h fuel =
      some (v.map (list_entry offset))
  continue_reverse : ∀ u p v, xs = u ++ p :: v → ∀ fuel, xs.length < fuel →
    list_for_each_entry_continue_reverse offset m (list_entry offset p) h fuel =
      some (u.reverse.map (list_entry offset))
  from_ : ∀ u p v, xs = u ++ p :: v → ∀ fuel, xs.length < fuel →
    list_for_each_entry_from offset m (list_entry offset p) h fuel = some ((p :: v).map (list_entry offset))
  from_reverse : ∀ u p v, xs = u ++ p :: v → ∀ fuel, xs.length < fuel →
    list_for_each_entry_from_reverse offset m (list_entry offset p) h fuel =
      some ((p :: u.reverse).map (list_entry offset))

theorem list_first_entry_or_null_eq (hr : Ring m.next m.prev h xs) (hd : (h :: xs).Nodup) :
    list_first_entry_or_null offset m h = xs.head?.map (list_entry offset) := by
  unfold list_first_entry_or_null
  rw [hr.next_head]
  cases xs with
  | nil => simp
  | cons x xs =>
    have hne : x ≠ h := by
      rintro rfl
      exact (List.nodup_cons.1 hd).1 List.mem_cons_self
    simp [hne]

/-- The macros that start at an end of the list. -/
theorem whole_list_eq (hr : Ring m.next m.prev h xs) (hh : h ∉ xs) (hf : xs.length < fuel) :
    for_each_entry offset (list_next_entry offset m) h fuel (list_entry offset (m.next h)) =
        some (xs.map (list_entry offset)) ∧
      for_each_entry offset (list_prev_entry offset m) h fuel (list_entry offset (m.prev h)) =
        some (xs.reverse.map (list_entry offset)) := by
  rw [hr.next_head, hr.prev_head]
  exact ⟨for_each_entry_next (u := []) hr hh hf, for_each_entry_prev (v := []) (by simpa using hr) hh hf⟩

/-- The macros that start at an entry or next to it. -/
theorem from_entry_eq (hr : Ring m.next m.prev h (u ++ p :: v)) (hh : h ∉ u ++ p :: v)
    (hf : (u ++ p :: v).length < fuel) :
    for_each_entry offset (list_next_entry offset m) h fuel (list_entry offset (m.next p)) =
        some (v.map (list_entry offset)) ∧
      for_each_entry offset (list_prev_entry offset m) h fuel (list_entry offset (m.prev p)) =
        some (u.reverse.map (list_entry offset)) ∧
      for_each_entry offset (list_next_entry offset m) h fuel (list_entry offset p) =
        some ((p :: v).map (list_entry offset)) ∧
      for_each_entry offset (list_prev_entry offset m) h fuel (list_entry offset p) =
        some ((p :: u.reverse).map (list_entry offset)) := by
  have hbehind : Ring m.next m.prev h ((u ++ [p]) ++ v) := by simpa using hr
  simp only [List.mem_append, List.mem_cons, not_or] at hh
  simp only [List.length_append, List.length_cons] at hf
  rw [hr.next_mem, hr.prev_mem]
  refine ⟨?_, ?_, ?_, ?_⟩
  · apply for_each_entry_next hbehind hh.2.2
    omega
  · apply for_each_entry_prev hr hh.1
    omega
  · apply for_each_entry_next hr
    · simpa using hh.2
    · simp only [List.length_cons]
      omega
  · have hup : h ∉ u ++ [p] := by simpa using ⟨hh.1, hh.2.1⟩
    have hlen : (u ++ [p]).length < fuel := by
      simp only [List.length_append, List.length_singleton]
      omega
    simpa using for_each_entry_prev hbehind hup hlen

theorem Agrees.walks (hA : Agrees m L) {r : Addr × List Addr} (hr : r ∈ L) (offset : Nat) : Walks offset m r.1 r.2 := by
  obtain ⟨h, xs⟩ := r
  have hring := hA.rings _ hr
  have hd := hA.nodup_list hr
  have hh := (List.nodup_cons.1 hd).1
  constructor
  · exact list_first_entry_or_null_eq hring hd
  · exact fun fuel hf => (whole_list_eq hring hh hf).1
  · exact fun fuel hf => (whole_list_eq hring hh hf).2
  · intro fuel hf
    have hprepare : list_next_entry offset m (list_prepare_entry offset none h) = list_entry offset (m.next h) := by
      simp [list_prepare_entry, list_next_entry]
    rw [list_for_each_entry_continue, hprepare]
    exact (whole_list_eq hring hh hf).1
  all_goals
    rintro u p v rfl fuel hf
    obtain ⟨h1, h2, h3, h4⟩ := @from_entry_eq _ _ _ _ _ offset _ hring hh hf
  · have hprepare : list_next_entry offset m (list_prepare_entry offset (some (list_entry offset p)) h) =
        list_entry offset (m.next p) := by simp [list_prepare_entry, list_next_entry]
    rwa [list_for_each_entry_continue, hprepare]
  · have hprev : list_prev_entry offset m (list_entry offset p) = list_entry offset (m.prev p) := by
      simp [list_prev_entry]
    rwa [list_for_each_entry_continue_reverse, hprev]
  · exact h3
  · exact h4

/-- After any run of calls every macro visits its stretch of every list, once each and
in order. -/
theorem iterators_walk (m : Mem) (cs : List Call) (L : Lists) (h : Lists.calls [] cs = some L) (offset : Nat) :
    ∀ r ∈ L, Walks offset (m.calls cs) r.1 r.2 :=
  fun _ hr => (agrees_calls (agrees_nil m) cs h).walks hr offset

/-- From the second of three entries on, in structs with the node 8 behind their start. -/
theorem iterators_walk_three : list_for_each_entry_continue 8 (Mem.calls ⟨fun _ => 0, fun _ => 0⟩
      [.op (.LIST_HEAD 1), .op (.list_add 30 1), .op (.list_add 20 1), .op (.list_add 10 1)])
    (list_prepare_entry 8 (some 12) 1) 1 4 = some [22] :=
  (iterators_walk _ _ [(1, [10, 20, 30])] (by decide) 8 _ List.mem_cons_self).continue_ [10] 20 [30] rfl 4 (by decide)

/-! ## Safe loops -/

/-- Only what the body does on the visits matters. -/
theorem for_each_safe_congr {link : Mem → Addr → Addr} {body body' : Mem → Addr → Mem} {head : Addr} {m m' : Mem}
    {pos n : Addr} {zs : List Addr} (h : for_each_safe link body head fuel m pos n = some (m', zs))
    (hb : ∀ x ∈ zs, ∀ m, body' m x = body m x) : for_each_safe link body' head fuel m pos n = some (m', zs) := by
  induction fuel generalizing m pos n zs with
  | zero => cases h
  | succ fuel ih =>
    unfold for_each_safe at h ⊢
    split at h
    · rename_i hp
      rw [if_pos hp]
      exact h
    · rename_i hp
      rw [if_neg hp]
      obtain ⟨⟨m₁, ys⟩, h1, h2⟩ := Option.map_eq_some_iff.1 h
      cases h2
      rw [hb pos List.mem_cons_self]
      simp only [ih h1 fun x hx => hb x (List.mem_cons_of_mem _ hx), Option.map_some]

/-- The actions of a loop that starts behind `us`. -/
def skipping (us : List Addr) (act : Addr → Action) (x : Addr) : Action := if x ∈ us then .keep else act x

variable {act : Addr → Action}

theorem settle_skipping_start (r : Addr × List Addr) : settle (skipping u act) h u r = r := by
  have hkeep : ∀ x ∈ u, skipping u act x = .keep := fun x hx => if_pos hx
  have hmove : u.filter (fun x => decide (skipping u act x = .list_move r.1)) = [] := by
    rw [List.filter_eq_nil_iff]
    intro x hx
    simp [hkeep x hx]
  have htail : u.filter (fun x => decide (skipping u act x = .list_move_tail r.1)) = [] := by
    rw [List.filter_eq_nil_iff]
    intro x hx
    simp [hkeep x hx]
  unfold settle
  by_cases hr : r.1 = h
  · have hall : (r.2.filter fun x => x ∉ u ∨ skipping u act x = .keep) = r.2 := by
      rw [List.filter_eq_self]
      intro x _
      by_cases hx : x ∈ u
      · simp [hkeep x hx]
      · simp [hx]
    rw [if_pos hr, hall]
  · rw [if_neg hr, hmove, htail]
    simp

theorem settle_after_end (hd : (u ++ v).Nodup) (r : Addr × List Addr) (hr : r.1 = h → r.2 = u ++ v) :
    settle (skipping u act) h (u ++ v) r = settle act h v r := by
  have hoff : ∀ x ∈ v, x ∉ u := fun x hv hu => (List.nodup_append.1 hd).2.2 x hu x hv rfl
  have hact : ∀ x ∈ v, skipping u act x = act x := fun x hx => if_neg (hoff x hx)
  have hstart : settle (skipping u act) h u r = r := settle_skipping_start r
  unfold settle at hstart ⊢
  by_cases hrh : r.1 = h
  · simp only [if_pos hrh, hr hrh]
    congr 1
    apply List.filter_congr
    intro x hx
    rcases List.mem_append.1 hx with hu | hv
    · have hxv : x ∉ v := fun hv => hoff x hv hu
      simp [skipping, hu, hxv]
    · simp [hact x hv, hv]
  · simp only [if_neg hrh, List.filter_append, List.reverse_append] at hstart ⊢
    have hmove : v.filter (fun x => decide (skipping u act x = .list_move r.1)) =
        v.filter fun x => decide (act x = .list_move r.1) := List.filter_congr fun x hx => by rw [hact x hx]
    have htail : v.filter (fun x => decide (skipping u act x = .list_move_tail r.1)) =
        v.filter fun x => decide (act x = .list_move_tail r.1) := List.filter_congr fun x hx => by rw [hact x hx]
    have hnone : ∀ a : Action, a ≠ .keep → u.filter (fun x => decide (skipping u act x = a)) = [] := by
      intro a ha
      rw [List.filter_eq_nil_iff]
      intro x hx
      simp [skipping, hx, ha.symm]
    rw [hmove, htail, hnone _ (by simp), hnone _ (by simp)]
    simp

/-- A safe loop that starts behind `u`. -/
theorem safe_loop_from (hA : Agrees m L) (hh : (h, u ++ v) ∈ L) (hok : ∀ x ∈ v, (act x).ok L h) (hf : v.length < fuel) :
    ∃ m', for_each_safe Mem.next (acting act) h fuel m (headOf v h) (m.next (headOf v h)) = some (m', v) ∧
      Agrees m' (L.map (settle act h v)) := by
  have hd := hA.nodup_list hh
  have hnd := (List.nodup_cons.1 hd).2
  have hone : ∀ r ∈ L, r.1 = h → r = (h, u ++ v) := by
    intro r hr hr1
    exact hA.eq_of_mem hr hh (a := h) (by simp [hr1]) List.mem_cons_self
  have hstart : L.map (settle (skipping u act) h u) = L := by
    have e : L.map (settle (skipping u act) h u) = L.map id := List.map_congr_left fun r _ => settle_skipping_start r
    rw [e, List.map_id]
  have hend : L.map (settle (skipping u act) h (u ++ v)) = L.map (settle act h v) := by
    apply List.map_congr_left
    intro r hr
    exact settle_after_end hnd r fun hr1 => congrArg Prod.snd (hone r hr hr1)
  have hok' : ∀ x ∈ u ++ v, (skipping u act x).ok L h := by
    intro x hx
    by_cases hu : x ∈ u
    · simp [skipping, hu, Action.ok]
    · have hv := (List.mem_append.1 hx).resolve_left hu
      simpa [skipping, hu] using hok x hv
  have hA' : Agrees m (L.map (settle (skipping u act) h u)) := hstart.symm ▸ hA
  obtain ⟨m', h1, h2⟩ := for_each_safe_acts .next hA' hh hone hd hok' rfl hf
  refine ⟨m', for_each_safe_congr h1 fun x hx m => ?_, hend ▸ h2⟩
  have hxu : x ∉ u := fun hu => (List.nodup_append.1 hnd).2.2 x hu x hx rfl
  simp [acting, skipping, hxu]

/-- On a list `u ++ p :: v`, with any choice of what the body does with each entry:
the two loops end, they visit `p :: v` and `v` in order, and only the visited entries
are taken away or moved. -/
theorem safe_loops_from (m : Mem) (L : Lists) (hA : Agrees m L) (h p : Addr) (u v : List Addr)
    (hh : (h, u ++ p :: v) ∈ L) (act : Addr → Action) (hok : ∀ x ∈ p :: v, (act x).ok L h) (offset fuel : Nat)
    (hf : (p :: v).length < fuel) :
    (∃ m', list_for_each_entry_safe_from offset (fun m pos => acting act m (member offset pos)) fuel m
        (list_entry offset p) h = some (m', (p :: v).map (list_entry offset)) ∧
      Shows m' (L.map (settle act h (p :: v)))) ∧
    ∃ m', list_for_each_entry_safe_continue offset (fun m pos => acting act m (member offset pos)) fuel m
        (list_entry offset p) h = some (m', v.map (list_entry offset)) ∧ Shows m' (L.map (settle act h v)) := by
  have hbehind : (h, (u ++ [p]) ++ v) ∈ L := by simpa using hh
  have hnext : m.next p = headOf v h := (hA.rings _ hh).next_mem
  have hentry : list_next_entry offset m (list_entry offset p) = list_entry offset (headOf v h) := by
    rw [list_next_entry, member_list_entry, hnext]
  obtain ⟨m₁, h1, hA₁⟩ := safe_loop_from hA hh hok hf
  obtain ⟨m₂, h2, hA₂⟩ := safe_loop_from hA hbehind (fun x hx => hok x (List.mem_cons_of_mem _ hx))
    (Nat.lt_of_succ_lt hf)
  refine ⟨⟨m₁, ?_, hA₁.shows⟩, ⟨m₂, ?_, hA₂.shows⟩⟩
  · have heq := for_each_entry_safe_eq offset Mem.next (acting act) h fuel m p (m.next p)
    rw [headOf_cons] at h1
    rw [h1, hnext, ← hentry] at heq
    exact heq
  · have heq := for_each_entry_safe_eq offset Mem.next (acting act) h fuel m (headOf v h) (m.next (headOf v h))
    rw [h2] at heq
    have hnext' : list_next_entry offset m (list_entry offset (headOf v h)) =
        list_entry offset (m.next (headOf v h)) := by rw [list_next_entry, member_list_entry]
    unfold list_for_each_entry_safe_continue
    simp only [hentry, hnext']
    exact heq

/-- From the second entry on: it is deleted, and the third one moves to another list. -/
theorem safe_loops_from_second :
    let m := Mem.run ⟨fun _ => 0, fun _ => 0⟩ [.LIST_HEAD 1, .LIST_HEAD 2, .list_add_tail 10 1, .list_add_tail 11 1,
      .list_add_tail 12 1, .list_add 20 2]
    let act := fun x => if x = 11 then Action.list_del else .list_move 2
    ∃ m', list_for_each_entry_safe_from 8 (fun m pos => acting act m (member 8 pos)) 3 m 3 1 = some (m', [3, 4]) ∧
      Shows m' [(2, [12, 20]), (1, [10])] :=
  (safe_loops_from _ [(2, [20]), (1, [10, 11, 12])] (agrees_run (agrees_nil _) _ (by decide)) 1 11 [10] [12]
    (by decide) _ (by simp [Action.ok, heads]) 8 3 (by decide)).1

end SiteCode.ListHead
