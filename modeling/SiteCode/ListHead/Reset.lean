import SiteCode.ListHead.Iterate
/-!
# `list_safe_reset_next`

A safe loop whose body lets others at the list has a stale successor. With
`list_safe_reset_next` at the end of the body, the loop reads the successor of the
current entry on the list as it is then. The entry has to be on a list for that, and
on the list of the loop (pinned, says `list.h`) for the loop to stay there.
-/

namespace SiteCode.ListHead

open Lib ListHead.Lists

variable {m : Mem} {L L' : Lists} {h p : Addr} {xs u v w D : List Addr} {offset fuel : Nat}

/-! ## Any interference -/

/-- What is behind the node `p`, an entry or a head, in the list it is on. -/
def successor (L : Lists) (p : Addr) : Addr :=
  match L.find? fun r => p ∈ r.1 :: r.2 with
  | some r => headOf ((r.1 :: r.2).dropWhile (· ≠ p)).tail r.1
  | none => p

theorem successor_row (hA : Agrees m L) (hh : (h, xs) ∈ L) (hp : p ∈ h :: xs) :
    successor L p = headOf ((h :: xs).dropWhile (· ≠ p)).tail h := by
  have hfind : L.find? (fun r => p ∈ r.1 :: r.2) = some (h, xs) := by
    cases hrow : L.find? fun r => p ∈ r.1 :: r.2 with
    | none => exact absurd (decide_eq_true hp) (List.find?_eq_none.1 hrow _ hh)
    | some r =>
      have hpr : p ∈ r.1 :: r.2 := by simpa using List.find?_some hrow
      exact congrArg some (hA.eq_of_mem (List.mem_of_find?_eq_some hrow) hh hpr hp)
  simp only [successor, hfind]

theorem next_eq_successor (hA : Agrees m L) (hp : p ∈ members L) : m.next p = successor L p := by
  obtain ⟨⟨h, xs⟩, hrow, hpr⟩ := mem_members.1 hp
  have hring := hA.rings _ hrow
  have hd := hA.nodup_list hrow
  rw [successor_row hA hrow hpr]
  rcases List.mem_cons.1 hpr with rfl | hpx
  · simpa using hring.next_head
  · obtain ⟨u, v, rfl⟩ := List.append_of_mem hpx
    have hu : ∀ x ∈ h :: u, x ≠ p := by
      rintro x hx rfl
      have hd' : (h :: u ++ x :: v).Nodup := by simpa using hd
      exact (List.nodup_append.1 hd').2.2 x hx x List.mem_cons_self rfl
    rw [hring.next_mem, ← List.cons_append, List.dropWhile_append_of_pos (by simpa using hu)]
    simp

/-- The loop over the calls that others make on each visit, up to the first visit
without any: the memory then, and the cursor. -/
def reset_turns (offset : Nat) (head : Addr) : List (List Call) → Mem → Int → Mem × Int
  | [], m, pos => (m, pos)
  | cs :: css, m, pos =>
    if member offset pos == head then (m, pos)
    else
      let m := m.calls cs
      reset_turns offset head css m (list_safe_reset_next offset m pos)

/-- The same on sequences: others edit the lists, as long as they may and the
current entry is on a list afterwards, and the cursor goes to its successor there. -/
def Lists.turns (h : Addr) : List (List Call) → Lists → Addr → Option (Lists × Addr)
  | [], L, p => some (L, p)
  | cs :: css, L, p =>
    if p = h then some (L, p)
    else do
      let L ← L.calls cs
      if p ∈ members L then Lists.turns h css L (successor L p) else none

/-- The entry is pinned: after every visit it is on the list of the loop. -/
def Lists.pinned (h : Addr) : List (List Call) → Lists → Addr → Bool
  | [], _, _ => true
  | cs :: css, L, p =>
    p = h || (L.calls cs).any fun L => h ∈ heads L && p ∈ entriesOf L h && Lists.pinned h css L (successor L p)

theorem successor_mem (hA : Agrees m L) (hh : h ∈ heads L) (hp : p ∈ h :: entriesOf L h) :
    successor L p ∈ h :: entriesOf L h := by
  rw [successor_row hA (hA.mem_of_head hh) hp]
  rcases List.mem_cons.1 (headOf_mem ((h :: entriesOf L h).dropWhile (· ≠ p)).tail h) with e | hm
  · exact List.mem_cons.2 (.inl e)
  · exact List.dropWhile_subset _ (List.mem_of_mem_tail hm)

theorem successor_mem_members (hA : Agrees m L) (hp : p ∈ members L) : successor L p ∈ members L := by
  obtain ⟨⟨h, xs⟩, hrow, hpr⟩ := mem_members.1 hp
  have hent := hA.entriesOf hrow
  have hsucc := successor_mem hA (List.mem_map_of_mem hrow) (hent.symm ▸ hpr)
  exact mem_members.2 ⟨_, hrow, hent ▸ hsucc⟩

/-- One turn: the calls of the others, then the new successor. -/
theorem turns_cons {cs : List Call} {css : List (List Call)} {q : Addr} (hph : p ≠ h)
    (hrun : Lists.turns h (cs :: css) L p = some (L', q)) :
    ∃ L₁, L.calls cs = some L₁ ∧ p ∈ members L₁ ∧ Lists.turns h css L₁ (successor L₁ p) = some (L', q) := by
  rw [Lists.turns, if_neg hph] at hrun
  obtain ⟨L₁, h1, h2⟩ := Option.bind_eq_some_iff.1 hrun
  split at h2
  · exact ⟨L₁, h1, ‹_›, h2⟩
  · cases h2

theorem turns_simulate (hA : Agrees m L) (css : List (List Call)) {q : Addr}
    (hrun : Lists.turns h css L p = some (L', q)) :
    ∃ m', reset_turns offset h css m (list_entry offset p) = (m', list_entry offset q) ∧ Agrees m' L' := by
  induction css generalizing m L p with
  | nil =>
    cases hrun
    exact ⟨m, rfl, hA⟩
  | cons cs css ih =>
    rw [reset_turns, member_list_entry]
    by_cases hph : p = h
    · rw [Lists.turns, if_pos hph] at hrun
      cases hrun
      exact ⟨m, by simp [hph], hA⟩
    · obtain ⟨L₁, h1, hp, h2⟩ := turns_cons hph hrun
      have hA₁ := agrees_calls hA cs h1
      have hnext : list_safe_reset_next offset (m.calls cs) (list_entry offset p) =
          list_entry offset (successor L₁ p) := by
        rw [list_safe_reset_next, list_next_entry, member_list_entry, next_eq_successor hA₁ hp]
      obtain ⟨m', h3, h4⟩ := ih hA₁ h2
      refine ⟨m', ?_, h4⟩
      simp [hph, hnext, h3]

/-- The cursor stays on some list. -/
theorem turns_members (hA : Agrees m L) (css : List (List Call)) {q : Addr} (hp : p ∈ members L)
    (hrun : Lists.turns h css L p = some (L', q)) : q ∈ members L' := by
  induction css generalizing m L p with
  | nil =>
    cases hrun
    exact hp
  | cons cs css ih =>
    by_cases hph : p = h
    · rw [Lists.turns, if_pos hph] at hrun
      cases hrun
      exact hp
    · obtain ⟨L₁, h1, hp₁, h2⟩ := turns_cons hph hrun
      have hA₁ := agrees_calls hA cs h1
      exact ih hA₁ (successor_mem_members hA₁ hp₁) h2

/-- A pinned cursor stays on its own list. -/
theorem turns_pinned (hA : Agrees m L) (css : List (List Call)) {q : Addr} (hp : p ∈ h :: entriesOf L h)
    (hrun : Lists.turns h css L p = some (L', q)) (hpin : Lists.pinned h css L p = true) :
    q ∈ h :: entriesOf L' h := by
  induction css generalizing m L p with
  | nil =>
    cases hrun
    exact hp
  | cons cs css ih =>
    by_cases hph : p = h
    · rw [Lists.turns, if_pos hph] at hrun
      cases hrun
      exact hp
    · obtain ⟨L₁, h1, -, h2⟩ := turns_cons hph hrun
      have hA₁ := agrees_calls hA cs h1
      simp only [Lists.pinned, hph, decide_false, Bool.false_or, h1, Option.any_some, Bool.and_eq_true,
        decide_eq_true_eq] at hpin
      obtain ⟨⟨hh, hent⟩, hrest⟩ := hpin
      exact ih hA₁ (successor_mem hA₁ hh (List.mem_cons_of_mem _ hent)) h2 hrest

/-- Others may make any calls during the visits, as long as each visit leaves the
current entry on some list. Then, after any number of turns, the cursor is where
the loop over sequences has it, on a list again, and memory shows the lists. If
the entry is pinned, the cursor has not left the list of the loop. -/
theorem reset_loop_follows (m : Mem) (L L' : Lists) (hA : Agrees m L) (h p q : Addr) (css : List (List Call))
    (hrun : Lists.turns h css L p = some (L', q)) (offset : Nat) :
    ∃ m', reset_turns offset h css m (list_entry offset p) = (m', list_entry offset q) ∧ Shows m' L' ∧
      (p ∈ members L → q ∈ members L') ∧
      (p ∈ h :: entriesOf L h → Lists.pinned h css L p = true → q ∈ h :: entriesOf L' h) := by
  obtain ⟨m', h1, h2⟩ := turns_simulate hA css hrun
  exact ⟨m', h1, h2.shows, fun hp => turns_members hA css hp hrun, fun hp => turns_pinned hA css hp hrun⟩

/-- During the first visit the next entry is deleted and another one is added; in
the second one, of the added entry, the entry itself is moved to another list. -/
theorem reset_loop_follows_two :
    let m := Mem.calls ⟨fun _ => 0, fun _ => 0⟩ [.op (.LIST_HEAD 1), .op (.list_add 12 1), .op (.list_add 11 1),
      .op (.list_add 10 1), .op (.LIST_HEAD 2), .op (.list_add 20 2)]
    ∃ m', reset_turns 8 1 [[.op (.list_del 11), .op (.list_add 9 10)], [.op (.list_move 9 2)]] m (list_entry 8 10) =
        (m', list_entry 8 20) ∧ Shows m' [(2, [9, 20]), (1, [10, 12])] ∧ 20 ∈ members [(2, [9, 20]), (1, [10, 12])] :=
  let ⟨m', h1, h2, h3, _⟩ := reset_loop_follows _ [(2, [20]), (1, [10, 11, 12])] [(2, [9, 20]), (1, [10, 12])]
    (agrees_calls (agrees_nil _) _ (by decide)) 1 10 20
    [[.op (.list_del 11), .op (.list_add 9 10)], [.op (.list_move 9 2)]] (by decide) 8
  ⟨m', h1, h2, h3 (by decide)⟩

/-! ## Deletions of other entries -/

/-- A list without the nodes `D`. -/
def minus (D : List Addr) (r : Addr × List Addr) : Addr × List Addr := (r.1, r.2.filter fun x => x ∉ D)

/-- Memory after the deletions `D`: they are taken off their lists, and initialised. -/
structure Deleted (m : Mem) (L : Lists) (D : List Addr) : Prop where
  agrees : Agrees m (L.map (minus D))
  self : ∀ d ∈ D, m.next d = d ∧ m.prev d = d
  listed : ∀ d ∈ D, d ∈ entries L

theorem minus_nil (L : Lists) : L.map (minus []) = L := by
  have e : L.map (minus []) = L.map id := List.map_congr_left fun r _ => by simp [minus]
  rw [e, List.map_id]

theorem Deleted.off (hD : Deleted m L D) (hA : Agrees m' L) {d : Addr} (hd : d ∈ D) :
    d ∉ members (L.map (minus D)) := by
  intro hm
  obtain ⟨r', hr', hdr⟩ := mem_members.1 hm
  obtain ⟨r, hr, rfl⟩ := List.mem_map.1 hr'
  rcases List.mem_cons.1 hdr with e | hdr
  · -- a head is no entry
    obtain ⟨s, hs, hds⟩ := mem_entries.1 (hD.listed d hd)
    have hsr : s = r := hA.eq_of_mem hs hr (List.mem_cons_of_mem _ hds) (by simp [e, minus])
    subst hsr
    have hhead := (List.nodup_cons.1 (hA.nodup_list hs)).1
    exact hhead (e ▸ hds)
  · simp only [minus, List.mem_filter, decide_eq_true_eq] at hdr
    exact hdr.2 hd

theorem remove_minus {d : Addr} (r : Addr × List Addr) (hd : r.2.Nodup) :
    remove d (minus D r) = minus (D ++ [d]) r := by
  unfold remove minus
  congr 1
  rw [(hd.filter _).erase_eq_filter, List.filter_filter]
  apply List.filter_congr
  intro x _
  by_cases hx : x = d
  · simp [hx]
  · simp [hx]

theorem eq_of_links {m m' : Mem} (hn : ∀ a, m.next a = m'.next a) (hp : ∀ a, m.prev a = m'.prev a) : m = m' := by
  obtain ⟨next, prev⟩ := m
  obtain ⟨next', prev'⟩ := m'
  obtain rfl : next = next' := funext hn
  obtain rfl : prev = prev' := funext hp
  rfl

/-- Deleting once more what is deleted changes nothing. -/
theorem list_del_init_self {d : Addr} (hd : m.next d = d ∧ m.prev d = d) : list_del_init m d = m := by
  obtain ⟨h1, h2⟩ := hd
  have hnext : ∀ a, (list_del_init m d).next a = m.next a := by
    intro a
    by_cases ha : a = d
    · simp [list_del_init, INIT_LIST_HEAD, ha, h1]
    · simp [list_del_init, INIT_LIST_HEAD, __list_del_entry, __list_del_entry_valid, __list_del, ha, h2]
  have hprev : ∀ a, (list_del_init m d).prev a = m.prev a := by
    intro a
    by_cases ha : a = d
    · simp [list_del_init, INIT_LIST_HEAD, ha, h2]
    · simp [list_del_init, INIT_LIST_HEAD, __list_del_entry, __list_del_entry_valid, __list_del, ha, h1]
  exact eq_of_links hnext hprev

/-- Only which nodes are deleted matters. -/
theorem Deleted.congr {D' : List Addr} (hD : Deleted m L D) (he : ∀ x, x ∈ D ↔ x ∈ D') : Deleted m L D' := by
  have hminus : minus D = minus D' := by
    funext r
    simp [minus, he]
  exact ⟨hminus ▸ hD.agrees, fun d hd => hD.self d ((he d).2 hd), fun d hd => hD.listed d ((he d).2 hd)⟩

section
variable {m₀ : Mem} (hA : Agrees m₀ L) {d : Addr}
include hA

/-- The node next to a listed one is listed; a deleted node is not. -/
theorem Deleted.self_del (hD : Deleted m L D) (hd : d ∈ entries (L.map (minus D))) {x : Addr} (hx : x ∈ D) :
    (list_del_init m d).next x = x ∧ (list_del_init m d).prev x = x := by
  obtain ⟨r, hr, hdr⟩ := mem_entries.1 hd
  have hring := hD.agrees.rings r hr
  have hoff := hD.off hA hx
  have hlisted : ∀ a ∈ r.1 :: r.2, x ≠ a := fun a ha e => hoff (mem_members.2 ⟨r, hr, e ▸ ha⟩)
  have hmem : d ∈ r.1 :: r.2 := List.mem_cons_of_mem _ hdr
  have h1 := hlisted _ (hring.prev_next d hmem).1
  have h2 := hlisted _ (hring.next_prev d hmem).1
  have h3 := hlisted d hmem
  simp [list_del_init, INIT_LIST_HEAD, __list_del_entry, __list_del_entry_valid, __list_del, h1, h2, h3, hD.self x hx]

/-- One more deletion. -/
theorem Deleted.del (hD : Deleted m L D) (hd : d ∈ entries L) : Deleted (list_del_init m d) L (D ++ [d]) := by
  by_cases hdD : d ∈ D
  · rw [list_del_init_self (hD.self d hdD)]
    refine hD.congr fun x => ?_
    simp only [List.mem_append, List.mem_singleton]
    exact ⟨.inl, fun hx => hx.elim id (· ▸ hdD)⟩
  · have hent : d ∈ entries (L.map (minus D)) := by
      obtain ⟨r, hr, hdr⟩ := mem_entries.1 hd
      exact mem_entries.2 ⟨minus D r, List.mem_map_of_mem hr, by simp [minus, hdr, hdD]⟩
    have hdel := agrees_list_del_init hD.agrees hent
    have hmap : (L.map (minus D)).map (remove d) = L.map (minus (D ++ [d])) := by
      rw [List.map_map]
      apply List.map_congr_left
      intro r hr
      exact remove_minus r (List.nodup_cons.1 (hA.nodup_list hr)).2
    rw [hmap] at hdel
    refine ⟨hdel, fun x hx => ?_, List.forall_mem_append.2 ⟨hD.listed, by simpa using hd⟩⟩
    rcases List.mem_append.1 hx with hx | hx
    · exact hD.self_del hA hent hx
    · obtain rfl := List.mem_singleton.1 hx
      simp [list_del_init, INIT_LIST_HEAD]

/-- All deletions of a visit. -/
theorem Deleted.del_all (hD : Deleted m L D) {ds : List Addr} (hds : ∀ d ∈ ds, d ∈ entries L) :
    Deleted (ds.foldl list_del_init m) L (D ++ ds) := by
  induction ds generalizing m D with
  | nil => simpa using hD
  | cons d ds ih =>
    have hrest := ih (hD.del hA (hds d List.mem_cons_self)) fun x hx => hds x (List.mem_cons_of_mem _ hx)
    simpa using hrest

end

/-- The entries that the loop visits among `w`: those that no earlier visit deleted. -/
def survivors (del : Addr → List Addr) : (gone w : List Addr) → List Addr
  | _, [] => []
  | gone, x :: w => if x ∈ gone then survivors del gone w else x :: survivors del (gone ++ del x) w

/-- The body that deletes the entries `del pos`, before or behind the cursor and on any list. -/
def deleting (del : Addr → List Addr) (m : Mem) (pos : Addr) : Mem := (del pos).foldl list_del_init m

variable {del : Addr → List Addr}

/-- What is behind an entry after some deletions. -/
theorem Deleted.next (hD : Deleted m L D) (hh : (h, u ++ p :: w) ∈ L) (hp : p ∉ D) :
    m.next p = headOf (w.filter fun x => x ∉ D) h := by
  have hring := hD.agrees.rings _ (List.mem_map_of_mem hh)
  have hrow : (minus D (h, u ++ p :: w)).2 = (u.filter fun x => x ∉ D) ++ p :: w.filter fun x => x ∉ D := by
    simp [minus, hp]
  rw [hrow] at hring
  exact hring.next_mem

theorem reset_loop_deleted {m₀ : Mem} (hA : Agrees m₀ L) (hh : (h, u ++ w) ∈ L) (hD : Deleted m L D)
    (hdel : ∀ x ∈ w, ∀ d ∈ del x, d ∈ entries L ∧ d ≠ x) (hf : w.length < fuel) (n : Int) :
    ∃ m', for_each_entry_reset offset (fun m pos => deleting del m (member offset pos)) h fuel m
        (list_entry offset (headOf (w.filter fun x => x ∉ D) h)) n =
          some (m', (survivors del D w).map (list_entry offset)) ∧
      Deleted m' L (D ++ (survivors del D w).flatMap del) := by
  induction w generalizing m u D fuel n with
  | nil =>
    obtain ⟨fuel, rfl⟩ := Nat.exists_eq_add_of_lt hf
    exact ⟨m, by simp [for_each_entry_reset, survivors], by simpa [survivors] using hD⟩
  | cons x w ih =>
    have hh' : (h, (u ++ [x]) ++ w) ∈ L := by simpa using hh
    have hdel' : ∀ y ∈ w, ∀ d ∈ del y, d ∈ entries L ∧ d ≠ y := fun y hy => hdel y (List.mem_cons_of_mem _ hy)
    by_cases hx : x ∈ D
    · -- deleted before its turn
      have hlen : w.length < fuel := Nat.lt_of_succ_lt hf
      obtain ⟨m', h1, h2⟩ := ih hh' hD hdel' hlen n
      exact ⟨m', by simpa [hx, survivors] using h1, by simpa [hx, survivors] using h2⟩
    · obtain ⟨fuel, rfl⟩ := Nat.exists_eq_add_of_lt hf
      have hxh : x ≠ h := by
        rintro rfl
        exact (List.nodup_cons.1 (hA.nodup_list hh)).1 (by simp)
      have hD₁ := hD.del_all hA fun d hd => (hdel x List.mem_cons_self d hd).1
      have hpin : x ∉ D ++ del x := by
        rw [List.mem_append, not_or]
        exact ⟨hx, fun hm => (hdel x List.mem_cons_self x hm).2 rfl⟩
      have hnext := hD₁.next hh hpin
      have hlen : w.length < (x :: w).length + fuel := by
        simp only [List.length_cons]
        omega
      obtain ⟨m', h1, h2⟩ := ih hh' hD₁ hdel' hlen
        (list_next_entry offset (deleting del m x) (list_entry offset (headOf (w.filter fun y => y ∉ D ++ del x) h)))
      refine ⟨m', ?_, by simpa [hx, survivors] using h2⟩
      have hreset : list_safe_reset_next offset (deleting del m x) (list_entry offset x) =
          list_entry offset (headOf (w.filter fun y => y ∉ D ++ del x) h) := by
        rw [list_safe_reset_next, list_next_entry, member_list_entry]
        exact congrArg _ hnext
      have hfilter : (x :: w).filter (fun y => decide (y ∉ D)) = x :: w.filter fun y => decide (y ∉ D) := by
        simp [hx]
      rw [hfilter, headOf_cons]
      unfold for_each_entry_reset
      simp only [member_list_entry, beq_iff_eq, hxh, if_false, hreset]
      unfold deleting at h1 ⊢
      rw [h1]
      simp [survivors, hx]

/-- Each visit may delete any other entries, of this list or of others, visited or
not. The loop ends, it visits in order the entries that were still there at their
turn, and every list keeps the entries that no visit deleted. -/
theorem reset_loop_deletes (m : Mem) (L : Lists) (hA : Agrees m L) (h : Addr) (xs : List Addr) (hh : (h, xs) ∈ L)
    (del : Addr → List Addr) (hdel : ∀ x ∈ xs, ∀ d ∈ del x, d ∈ entries L ∧ d ≠ x) (offset fuel : Nat)
    (hf : xs.length < fuel) :
    ∃ m', list_for_each_entry_reset offset (fun m pos => deleting del m (member offset pos)) fuel m h =
        some (m', (survivors del [] xs).map (list_entry offset)) ∧
      Shows m' (L.map (minus ((survivors del [] xs).flatMap del))) := by
  have hstart : Deleted m L [] := ⟨(minus_nil L).symm ▸ hA, by simp, by simp⟩
  have hfirst : m.next h = headOf (xs.filter fun x => x ∉ []) h := by
    simpa using (hA.rings _ hh).next_head
  obtain ⟨m', h1, h2⟩ := reset_loop_deleted (u := []) hA hh hstart hdel hf
    (list_next_entry offset m (list_first_entry offset m h))
  rw [← hfirst] at h1
  rw [List.nil_append] at h2
  exact ⟨m', h1, h2.agrees.shows⟩

/-- The first visit deletes the second entry, the visit of the third one the first. -/
theorem reset_loop_deletes_two :
    let m := Mem.run ⟨fun _ => 0, fun _ => 0⟩ [.LIST_HEAD 1, .list_add_tail 10 1, .list_add_tail 11 1,
      .list_add_tail 12 1]
    let del := fun x => if x = 10 then [11] else if x = 12 then [10] else []
    ∃ m', list_for_each_entry_reset 8 (fun m pos => deleting del m (member 8 pos)) 4 m 1 = some (m', [2, 4]) ∧
      Shows m' [(1, [12])] :=
  reset_loop_deletes _ [(1, [10, 11, 12])] (agrees_run (agrees_nil _) _ (by decide)) 1 [10, 11, 12] (by decide) _
    (by decide) 8 4 (by decide)

end SiteCode.ListHead
