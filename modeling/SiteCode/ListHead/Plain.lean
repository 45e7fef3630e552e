import SiteCode.ListHead.Reset
/-!
# Plain loops whose body takes entries off

`list_for_each` and `list_for_each_prev` read the link of the current entry after their
body. They are not meant for bodies that take it off its list; this is what they do then.
-/

namespace SiteCode.ListHead

open Lib ListHead.Lists

/-- The loop `for (..; pos != head; pos = link(pos)) body`: the memory it leaves and the
positions visited, `none` if it is not over after `fuel` tests. -/
def for_each (link : Mem → Addr → Addr) (body : Mem → Addr → Mem) (head : Addr) :
    (fuel : Nat) → Mem → (pos : Addr) → Option (Mem × List Addr)
  | 0, _, _ => none
  | fuel + 1, m, pos =>
    if pos == head then some (m, [])
    else
      let m := body m pos
      (for_each link body head fuel m (link m pos)).map fun r => (r.1, pos :: r.2)

/-- `list_for_each(pos, head) body` and `list_for_each_prev(pos, head) body` -/
def Dir.for_each (d : Dir) (body : Mem → Addr → Mem) (fuel : Nat) (m : Mem) (head : Addr) :
    Option (Mem × List Addr) :=
  ListHead.for_each d.link body head fuel m (d.link m head)

/-- `n` turns of the loop: the memory, the cursor and the positions visited. There are no
more turns at the head. -/
def for_each_turns (link : Mem → Addr → Addr) (body : Mem → Addr → Mem) (head : Addr) :
    (n : Nat) → Mem → (pos : Addr) → Mem × Addr × List Addr
  | 0, m, pos => (m, pos, [])
  | n + 1, m, pos =>
    if pos == head then (m, pos, [])
    else
      let m := body m pos
      let r := for_each_turns link body head n m (link m pos)
      (r.1, r.2.1, pos :: r.2.2)

def Dir.for_each_turns (d : Dir) (body : Mem → Addr → Mem) (n : Nat) (m : Mem) (head : Addr) :
    Mem × Addr × List Addr :=
  ListHead.for_each_turns d.link body head n m (d.link m head)

/-- What a deleted entry is poisoned with. -/
def Dir.poison : Dir → Addr
  | .next => LIST_POISON1
  | .prev => LIST_POISON2

variable {m m' : Mem} {L : Lists} {act : Addr → Action} {link : Mem → Addr → Addr} {body : Mem → Addr → Mem}
  {h k e pos : Addr} {xs ys u v : List Addr}

/-! ## Rules for loops -/

/-- A body that only looks: the loops of `Ops.lean`. -/
theorem for_each_look (fuel : Nat) (pos : Addr) : for_each link (fun m _ => m) h fuel m pos =
    (walk (link m) h fuel pos).map fun seen => (m, seen) := by
  induction fuel generalizing pos with
  | zero => rfl
  | succ fuel ih =>
    unfold for_each walk
    by_cases hp : pos = h
    · simp [hp]
    · simp [hp, ih, Function.comp_def]

theorem list_for_each_look (fuel : Nat) :
    Dir.next.for_each (fun m _ => m) fuel m h = (list_for_each m h fuel).map (fun seen => (m, seen)) ∧
      Dir.prev.for_each (fun m _ => m) fuel m h = (list_for_each_prev m h fuel).map fun seen => (m, seen) :=
  ⟨for_each_look fuel _, for_each_look fuel _⟩

/-- The loop is over when its turns have brought the cursor to the head. -/
theorem for_each_succ (n : Nat) (m : Mem) (pos : Addr) : for_each link body h (n + 1) m pos =
    if (for_each_turns link body h n m pos).2.1 = h then
      some ((for_each_turns link body h n m pos).1, (for_each_turns link body h n m pos).2.2) else none := by
  induction n generalizing m pos with
  | zero =>
    by_cases hp : pos = h
    · simp [for_each, for_each_turns, hp]
    · simp [for_each, for_each_turns, hp]
  | succ n ih =>
    rw [for_each, for_each_turns]
    by_cases hp : pos = h
    · simp [hp]
    · simp only [beq_iff_eq, if_neg hp, ih]
      split
      · rfl
      · rfl

theorem for_each_mono {fuel : Nat} {r : Mem × List Addr} (hrun : for_each link body h fuel m pos = some r) (n : Nat) :
    for_each link body h (fuel + n) m pos = some r := by
  induction fuel generalizing m pos r with
  | zero => cases hrun
  | succ fuel ih =>
    rw [Nat.add_right_comm]
    unfold for_each at hrun ⊢
    split
    · rwa [if_pos ‹_›] at hrun
    · rw [if_neg ‹_›] at hrun
      obtain ⟨r', hr', rfl⟩ := Option.map_eq_some_iff.1 hrun
      simp only [ih hr', Option.map_some]

/-- A loop whose cursor is off the head however late is never over. -/
theorem for_each_none (start : Nat) (hne : ∀ n, (for_each_turns link body h (start + n) m pos).2.1 ≠ h) (fuel : Nat) :
    for_each link body h fuel m pos = none := by
  by_contra hsome
  obtain ⟨r, hr⟩ := Option.ne_none_iff_exists'.1 hsome
  have hlater := for_each_mono hr (start + 1)
  have hfuel : fuel + (start + 1) = start + fuel + 1 := by omega
  rw [hfuel, for_each_succ, if_neg (hne fuel)] at hlater
  cases hlater

/-- Entries that are kept. -/
theorem turns_kept {back : Addr → Addr} {w : List Addr} (hr : Ring (link m) back h (w ++ u ++ v)) (hu : h ∉ u)
    (hkeep : ∀ x ∈ u, act x = .keep) (n : Nat) :
    for_each_turns link (acting act) h (u.length + n) m (headOf (u ++ v) h) =
      ((for_each_turns link (acting act) h n m (headOf v h)).1,
        (for_each_turns link (acting act) h n m (headOf v h)).2.1,
        u ++ (for_each_turns link (acting act) h n m (headOf v h)).2.2) := by
  induction u generalizing w with
  | nil => simp
  | cons x u ih =>
    rw [List.mem_cons, not_or] at hu
    have hlen : (x :: u).length + n = u.length + n + 1 := by simp only [List.length_cons]; omega
    have hbody : acting act m x = m := by simp [acting, hkeep x List.mem_cons_self, Action.exec]
    have hlink : link m x = headOf (u ++ v) h := Ring.next_mem (u := w) (by simpa using hr)
    have hrest := ih (w := w ++ [x]) (by simpa using hr) hu.2 fun y hy => hkeep y (List.mem_cons_of_mem _ hy)
    rw [hlen, List.cons_append, headOf_cons, for_each_turns]
    simp [Ne.symm hu.1, hbody, hlink, hrest]

theorem map_range_succ (f : Addr → Addr) (x : Addr) (n : Nat) :
    (List.range (n + 1)).map (fun i => f^[i] x) = x :: (List.range n).map fun i => f^[i] (f x) := by
  rw [List.range_succ_eq_map, List.map_cons, List.map_map]
  rfl

/-- A cursor that goes round where nothing changes. -/
theorem turns_round (hstill : ∀ i, body m ((link m)^[i] pos) = m) (hne : ∀ i, (link m)^[i] pos ≠ h) (n : Nat) :
    for_each_turns link body h n m pos = (m, (link m)^[n] pos, (List.range n).map fun i => (link m)^[i] pos) := by
  induction n generalizing pos with
  | zero => rfl
  | succ n ih =>
    have hrest : for_each_turns link body h n m (link m pos) = _ :=
      ih (fun i => hstill (i + 1)) fun i => hne (i + 1)
    have hbody : body m pos = m := hstill 0
    have hpos : pos ≠ h := hne 0
    rw [for_each_turns, map_range_succ, Function.iterate_succ_apply]
    simp only [beq_iff_eq, if_neg hpos, hbody, hrest]

/-! ## The first entry that is not kept -/

section
variable {d : Dir} (hA : Agrees m L) (hh : (h, xs) ∈ L) (hsplit : d.order xs = u ++ e :: v)
include hA hh hsplit

theorem ring_split : ∃ back, Ring (d.link m) back h (u ++ e :: v) ∧ h ∉ u ∧ e ≠ h ∧ e ∈ xs := by
  obtain ⟨back, hr⟩ := d.ring (hA.rings _ hh)
  have hr' : Ring (d.link m) back h (d.order xs) := hr
  have hmem : ∀ x, x ∈ u ++ e :: v → x ∈ xs := fun x hx => d.order_perm.mem_iff.1 (hsplit ▸ hx)
  have hoff := (List.nodup_cons.1 (hA.nodup_list hh)).1
  rw [hsplit] at hr'
  refine ⟨back, hr', fun hu => hoff (hmem h (by simp [hu])), ?_, hmem e (by simp)⟩
  rintro rfl
  exact hoff (hmem e (by simp))

/-- The turns up to the visit of the entry `e`, and those behind it. -/
theorem turns_first (hu : ∀ x ∈ u, act x = .keep) {M : Mem} (hM : (act e).exec m e = M) (n : Nat) :
    d.for_each_turns (acting act) (u.length + 1 + n) m h =
      ((for_each_turns d.link (acting act) h n M (d.link M e)).1,
        (for_each_turns d.link (acting act) h n M (d.link M e)).2.1,
        u ++ e :: (for_each_turns d.link (acting act) h n M (d.link M e)).2.2) := by
  obtain ⟨back, hr, hhu, heh, -⟩ := ring_split hA hh hsplit
  have hkept := turns_kept (w := []) (v := e :: v) hr hhu hu (n + 1)
  have hlen : u.length + 1 + n = u.length + (n + 1) := by omega
  have hvisit : for_each_turns d.link (acting act) h (n + 1) m e =
      ((for_each_turns d.link (acting act) h n M (d.link M e)).1,
        (for_each_turns d.link (acting act) h n M (d.link M e)).2.1,
        e :: (for_each_turns d.link (acting act) h n M (d.link M e)).2.2) := by
    rw [for_each_turns]
    simp [heh, acting, hM]
  rw [Dir.for_each_turns, hr.next_head, hlen, hkept, headOf_cons, hvisit]

/-- From `e` on the cursor goes round: its turns, and the loop is never over. -/
theorem turns_first_round (hu : ∀ x ∈ u, act x = .keep) {M : Mem} (hM : (act e).exec m e = M)
    (hstill : ∀ i, acting act M ((d.link M)^[i] e) = M) (hne : ∀ i, (d.link M)^[i] e ≠ h) (n : Nat) :
    d.for_each_turns (acting act) (u.length + 1 + n) m h =
        (M, (d.link M)^[n + 1] e, u ++ (List.range (n + 1)).map fun i => (d.link M)^[i] e) ∧
      d.for_each (acting act) n m h = none := by
  have hround : ∀ n, d.for_each_turns (acting act) (u.length + 1 + n) m h =
      (M, (d.link M)^[n + 1] e, u ++ (List.range (n + 1)).map fun i => (d.link M)^[i] e) := by
    intro n
    have hrest : for_each_turns d.link (acting act) h n M (d.link M e) = _ :=
      turns_round (fun i => hstill (i + 1)) (fun i => hne (i + 1)) n
    rw [turns_first hA hh hsplit hu hM n, hrest, map_range_succ, Function.iterate_succ_apply]
  refine ⟨hround n, for_each_none (u.length + 1) (fun n => ?_) n⟩
  change (d.for_each_turns (acting act) (u.length + 1 + n) m h).2.1 ≠ h
  rw [hround n]
  exact hne (n + 1)

end

/-! ## Where the cursor goes -/

/-- Moving the first entry to the front again changes nothing. -/
theorem list_move_self (hn : m.next k = e) (he : m.prev e = k) (hp : m.prev (m.next e) = e) : list_move m e k = m := by
  have hwrites : list_move m e k = (((((m.setPrev (m.next e) k).setNext k (m.next e)).setPrev (m.next e) e).setNext e
      (m.next e)).setPrev e k).setNext k e := by
    simp [list_move, list_add, __list_add, __list_add_valid, __list_del_entry, __list_del_entry_valid, __list_del, he]
  rw [hwrites]
  refine eq_of_links (fun a => ?_) fun a => ?_
  · simp only [Mem.setNext_next, Mem.setPrev_next]
    split
    · rename_i hak
      rw [hak, hn]
    · split
      · rename_i hae
        rw [hae]
      · rfl
  · simp only [Mem.setPrev_prev, Mem.setNext_prev]
    split
    · rename_i hae
      rw [hae, he]
    · split
      · rename_i haz
        rw [haz, hp]
      · rfl

/-- Nor does moving the last one to the back. -/
theorem list_move_tail_self (hp : m.prev k = e) (he : m.next e = k) (hn : m.next (m.prev e) = e) :
    list_move_tail m e k = m := by
  have hwrites : list_move_tail m e k = (((((m.setPrev k (m.prev e)).setNext (m.prev e) k).setPrev k e).setNext e
      k).setPrev e (m.prev e)).setNext (m.prev e) e := by
    simp [list_move_tail, list_add_tail, __list_add, __list_add_valid, __list_del_entry, __list_del_entry_valid,
      __list_del, he]
  rw [hwrites]
  refine eq_of_links (fun a => ?_) fun a => ?_
  · simp only [Mem.setNext_next, Mem.setPrev_next]
    split
    · rename_i haz
      rw [haz, hn]
    · split
      · rename_i hae
        rw [hae, he]
      · rfl
  · simp only [Mem.setPrev_prev, Mem.setNext_prev]
    split
    · rename_i hae
      rw [hae]
    · split
      · rename_i hak
        rw [hak, hp]
      · rfl

/-- An entry that is moved to another list: it is there now, and moving it again changes nothing. -/
theorem moved {a : Action} (hA : Agrees m L) (hh : (h, xs) ∈ L) (he : e ∈ xs) (hk : (k, ys) ∈ L) (hkh : k ≠ h)
    (ha : a = .list_move k ∨ a = .list_move_tail k) :
    ∃ L' zs xs', Agrees (a.exec m e) L' ∧ (k, zs) ∈ L' ∧ (h, xs') ∈ L' ∧ (∀ x, x ∈ zs ↔ x = e ∨ x ∈ ys) ∧
      a.exec (a.exec m e) e = a.exec m e := by
  have hn : e ∈ entries L := mem_entries.2 ⟨_, hh, he⟩
  have hkm : k ∈ members L := mem_members.2 ⟨_, hk, List.mem_cons_self⟩
  have heoff : e ∉ k :: ys := fun hm =>
    hkh (congrArg Prod.fst (hA.eq_of_mem hk hh hm (List.mem_cons_of_mem _ he)))
  rw [List.mem_cons, not_or] at heoff
  have hk₁ : (k, ys) ∈ L.map (remove e) := List.mem_map.2 ⟨_, hk, by simp [remove, List.erase_of_not_mem heoff.2]⟩
  rcases ha with rfl | rfl
  · have hA' := agrees_list_move hA hn hkm heoff.1
    have hk' : (k, e :: ys) ∈ (L.map (remove e)).map (addAfter k [e]) := List.mem_map.2 ⟨_, hk₁, by simp [addAfter]⟩
    have hring := hA'.rings _ hk'
    refine ⟨_, e :: ys, _, hA', hk', List.mem_map_of_mem (List.mem_map_of_mem hh), by simp, ?_⟩
    exact list_move_self hring.next_head (Ring.prev_mem (u := []) hring) (hring.prev_next e (by simp)).2
  · have hA' := agrees_list_move_tail hA hn hkm heoff.1
    have hk' : (k, ys ++ [e]) ∈ (L.map (remove e)).map (addBefore k [e]) :=
      List.mem_map.2 ⟨_, hk₁, by simp [addBefore]⟩
    have hring := hA'.rings _ hk'
    refine ⟨_, ys ++ [e], _, hA', hk', List.mem_map_of_mem (List.mem_map_of_mem hh), by simp [or_comm], ?_⟩
    exact list_move_tail_self (hring.prev_head.trans (lastOf_concat ..)) (Ring.next_mem (v := []) hring)
      (hring.next_prev e (by simp)).2

/-- A loop in either direction over any list, whose body acts on the entries as `act` says:
if all are kept, it visits them all and leaves memory as it is. Else let `e` be the first one
that is not. Deleted with `list_del`, it sends the cursor to the poison. Deleted with
`list_del_init`, it is visited in every further turn. Moved to another list, whose nodes are
kept, it takes the cursor round that list, over all of its nodes again and again. Of the last
two, the loop is never over. -/
theorem plain_loops_stop (d : Dir) (m : Mem) (L : Lists) (hA : Agrees m L) (h : Addr) (xs : List Addr)
    (hh : (h, xs) ∈ L) (act : Addr → Action) :
    ((∀ x ∈ xs, act x = .keep) → ∀ fuel, xs.length < fuel → d.for_each (acting act) fuel m h = some (m, d.order xs)) ∧
    ∀ u e v, d.order xs = u ++ e :: v → (∀ x ∈ u, act x = .keep) →
      (act e = .list_del → d.for_each_turns (acting act) (u.length + 1) m h = (list_del m e, d.poison, u ++ [e])) ∧
      (act e = .list_del_init → ∀ n, d.for_each_turns (acting act) (u.length + 1 + n) m h =
          (list_del_init m e, e, u ++ List.replicate (n + 1) e) ∧ d.for_each (acting act) n m h = none) ∧
      ∀ k ys, (k, ys) ∈ L → k ≠ h → (∀ x ∈ k :: ys, act x = .keep) →
        act e = .list_move k ∨ act e = .list_move_tail k →
        let link := d.link ((act e).exec m e)
        (∀ n, d.for_each_turns (acting act) (u.length + 1 + n) m h =
          ((act e).exec m e, link^[n + 1] e, u ++ (List.range (n + 1)).map fun i => link^[i] e) ∧
          d.for_each (acting act) n m h = none) ∧
        (∀ i, link^[i] e ∈ e :: k :: ys) ∧ ∀ x ∈ e :: k :: ys, ∀ i, ∃ j ≥ i, link^[j] e = x := by
  refine ⟨fun hkeep fuel hf => ?_, fun u e v hsplit hu => ⟨fun hact => ?_, fun hact n => ?_, ?_⟩⟩
  · obtain ⟨back, hr⟩ := d.ring (hA.rings _ hh)
    have hring : Ring (d.link m) back h ([] ++ d.order xs ++ []) := by simpa [Dir.order] using hr
    have hmem : ∀ x, x ∈ d.order xs ↔ x ∈ xs := fun x => d.order_perm.mem_iff
    have hoff : h ∉ d.order xs := fun hm => (List.nodup_cons.1 (hA.nodup_list hh)).1 ((hmem h).1 hm)
    have hlen : (d.order xs).length = xs.length := d.order_perm.length_eq
    obtain ⟨n, rfl⟩ : ∃ n, fuel = (d.order xs).length + n + 1 := ⟨fuel - xs.length - 1, by omega⟩
    have hkept := turns_kept hring hoff (fun x hx => hkeep x ((hmem x).1 hx)) n
    have hstop : for_each_turns d.link (acting act) h n m h = (m, h, []) := by
      cases n <;> simp [for_each_turns]
    have hfirst : d.link m h = headOf (d.order xs) h := hr.next_head
    rw [List.append_nil, headOf_nil, hstop] at hkept
    rw [Dir.for_each, hfirst, for_each_succ, hkept]
    simp
  · have hfirst := turns_first hA hh hsplit hu (M := list_del m e) (by rw [hact]; rfl) 0
    have hpoison : d.link (list_del m e) e = d.poison := by cases d <;> simp [Dir.link, Dir.poison, list_del]
    rw [hpoison] at hfirst
    exact hfirst
  · obtain ⟨-, -, -, heh, he⟩ := ring_split hA hh hsplit
    have hself : (list_del_init m e).next e = e ∧ (list_del_init m e).prev e = e := by
      simp [list_del_init, INIT_LIST_HEAD]
    have hlink : d.link (list_del_init m e) e = e := by
      cases d
      · exact hself.1
      · exact hself.2
    have hstay : ∀ i, (d.link (list_del_init m e))^[i] e = e := fun i => Function.iterate_fixed hlink i
    have hround := turns_first_round hA hh hsplit hu (M := list_del_init m e) (by rw [hact]; rfl)
      (fun i => by rw [hstay]; simp [acting, hact, Action.exec, list_del_init_self hself])
      (fun i => by rw [hstay]; exact heh) n
    simpa [hstay, List.map_const'] using hround
  · intro k ys hk hkh hkeep hact link
    obtain ⟨-, -, -, heh, he⟩ := ring_split hA hh hsplit
    obtain ⟨L', zs, xs', hA', hk', hh', hzs, hagain⟩ := moved hA hh he hk hkh hact
    obtain ⟨back, hr⟩ := d.ring (hA'.rings _ hk')
    have hmem : ∀ x, x ∈ k :: d.order zs ↔ x ∈ e :: k :: ys := by
      intro x
      rw [List.mem_cons, d.order_perm.mem_iff, hzs]
      simp only [List.mem_cons]
      tauto
    have hring : ∀ i, link^[i] e ∈ e :: k :: ys := fun i => (hmem _).1 (hr.iterate_mem ((hmem e).2 (by simp)) i)
    refine ⟨?_, hring, ?_⟩
    · refine turns_first_round hA hh hsplit hu rfl (fun i => ?_) fun i hi => ?_
      · rcases List.mem_cons.1 (hring i) with hi | hi
        · rw [acting, hi, hagain]
        · rw [acting, hkeep _ hi]
          rfl
      · have hrow := hA'.eq_of_mem hk' hh' (a := link^[i] e) ?_ (hi ▸ List.mem_cons_self)
        · exact hkh (congrArg Prod.fst hrow)
        · have hik := (hmem _).2 (hring i)
          rwa [List.mem_cons, d.order_perm.mem_iff, ← List.mem_cons] at hik
    · intro x hx i
      obtain ⟨j, hj⟩ := hr.exists_iterate ((hmem _).2 (hring i)) ((hmem x).2 hx)
      refine ⟨j + i, Nat.le_add_left _ _, ?_⟩
      rw [Function.iterate_add_apply]
      exact hj

/-- Backwards, the entry in the middle is moved to another list. -/
theorem plain_loops_stop_middle :
    let m := Mem.run ⟨fun _ => 0, fun _ => 0⟩ [.LIST_HEAD 1, .list_add 12 1, .list_add 11 1, .list_add 10 1,
      .LIST_HEAD 2, .list_add 20 2]
    let act := fun x => if x = 11 then Action.list_move 2 else .keep
    (Dir.prev.for_each_turns (acting act) 5 m 1).2 = (2, [12, 11, 2, 20, 11]) ∧
      ∀ fuel, Dir.prev.for_each (acting act) fuel m 1 = none := by
  intro m act
  have hstop := ((plain_loops_stop .prev m [(2, [20]), (1, [10, 11, 12])] (agrees_run (agrees_nil _) _ (by decide)) 1
    [10, 11, 12] (by decide) act).2 [12] 11 [10] rfl (by decide)).2.2 2 [20] (by decide) (by decide) (by decide)
    (.inl rfl)
  exact ⟨(congrArg Prod.snd (hstop.1 3).1).trans (by decide), fun fuel => (hstop.1 fuel).2⟩

end SiteCode.ListHead
