import SiteCode.ListHead.Runs
/-!
# Safe iteration

The safe loops read the successor of the current entry before their body runs.
A body that takes the current entry off its list, in whatever way, leaves the
successor where it was: the part of the ring that is not visited yet never changes.
-/

namespace SiteCode.ListHead

open Lib ListHead.Lists

/-- What a loop body does with the current entry. -/
inductive Action where
  | keep
  | list_del
  | list_del_init
  | list_move (head : Addr)
  | list_move_tail (head : Addr)
  deriving DecidableEq, Repr

def Action.exec (m : Mem) (pos : Addr) : Action → Mem
  | keep => m
  | list_del => ListHead.list_del m pos
  | list_del_init => ListHead.list_del_init m pos
  | list_move head => ListHead.list_move m pos head
  | list_move_tail head => ListHead.list_move_tail m pos head

/-- The action does not move an entry of the list `h` to a list that is none, or to `h` again. -/
def Action.ok (L : Lists) (h : Addr) : Action → Prop
  | keep | list_del | list_del_init => True
  | list_move head | list_move_tail head => head ∈ heads L ∧ head ≠ h

/-- A list after the entries `us` of the list `h` were visited, in this order. -/
def settle (act : Addr → Action) (h : Addr) (us : List Addr) (r : Addr × List Addr) : Addr × List Addr :=
  (r.1, if r.1 = h then r.2.filter fun x => x ∉ us ∨ act x = .keep
    else (us.filter fun x => act x = .list_move r.1).reverse ++ r.2 ++ us.filter fun x => act x = .list_move_tail r.1)

variable {m : Mem} {L : Lists} {act : Addr → Action} {h p : Addr} {xs us w : List Addr}

theorem settle_nil (L : Lists) : L.map (settle act h []) = L := by
  have e : L.map (settle act h []) = L.map id := by
    apply List.map_congr_left
    intro r _
    simp [settle]
  rw [e, List.map_id]

theorem settle_head : settle act h us (h, xs) = (h, xs.filter fun x => x ∉ us ∨ act x = .keep) := by
  simp [settle]

/-! ## One visit -/

theorem settle_mem (hp : p ∈ xs) (hu : p ∉ us) : p ∈ (settle act h us (h, xs)).2 := by
  simp [settle_head, hp, hu]

/-- A head is on no other list. -/
theorem head_off {k : Addr} (hA : Agrees m (L.map (settle act h us))) (hk : k ∈ heads L) {r : Addr × List Addr}
    (hr : r ∈ L) (hne : r.1 ≠ k) : k ∉ (settle act h us r).1 :: (settle act h us r).2 := by
  intro hm
  obtain ⟨r', hr', rfl⟩ := List.mem_map.1 hk
  have hm' : r'.1 ∈ (settle act h us r').1 :: (settle act h us r').2 := List.mem_cons_self
  have e : settle act h us r = settle act h us r' :=
    hA.eq_of_mem (List.mem_map_of_mem hr) (List.mem_map_of_mem hr') hm hm'
  have e1 : (settle act h us r).1 = (settle act h us r').1 := congrArg Prod.fst e
  exact hne e1

/-- The current entry is on no other list. -/
theorem entry_off (hA : Agrees m (L.map (settle act h us))) (hh : (h, xs) ∈ L) (hp : p ∈ xs) (hu : p ∉ us)
    {r : Addr × List Addr} (hr : r ∈ L) (hne : r.1 ≠ h) : p ∉ (settle act h us r).1 :: (settle act h us r).2 := by
  intro hm
  have hpm : p ∈ h :: (settle act h us (h, xs)).2 := List.mem_cons_of_mem _ (settle_mem hp hu)
  have e : settle act h us r = settle act h us (h, xs) :=
    hA.eq_of_mem (List.mem_map_of_mem hr) (List.mem_map_of_mem hh) hm hpm
  have e1 : (settle act h us r).1 = (settle act h us (h, xs)).1 := congrArg Prod.fst e
  exact hne e1

/-- The list a move goes to is still there, and it is not the entry's own. -/
theorem receiver {k : Addr} (hA : Agrees m (L.map (settle act h us))) (hh : (h, xs) ∈ L) (hp : p ∈ xs) (hu : p ∉ us)
    (hk : k ∈ heads L) (hkh : k ≠ h) :
    k ∈ members (L.map (settle act h us)) ∧ p ≠ k := by
  obtain ⟨r, hr, rfl⟩ := List.mem_map.1 hk
  refine ⟨mem_members.2 ⟨settle act h us r, List.mem_map_of_mem hr, List.mem_cons_self⟩, ?_⟩
  rintro rfl
  exact entry_off hA hh hp hu hr hkh List.mem_cons_self

/-- A list other than `h` after one more visit. -/
theorem settle_concat {r : Addr × List Addr} (hne : r.1 ≠ h) : settle act h (us ++ [p]) r =
    (r.1, (if act p = .list_move r.1 then [p] else []) ++ (settle act h us r).2 ++
      if act p = .list_move_tail r.1 then [p] else []) := by
  by_cases h1 : act p = .list_move r.1
  · simp [settle, hne, h1]
  · by_cases h2 : act p = .list_move_tail r.1
    · simp [settle, hne, h2]
    · simp [settle, hne, h1, h2]

theorem settle_concat_same {r : Addr × List Addr} (hne : r.1 ≠ h) (h1 : act p ≠ .list_move r.1)
    (h2 : act p ≠ .list_move_tail r.1) : settle act h (us ++ [p]) r = settle act h us r := by
  rw [settle_concat hne, if_neg h1, if_neg h2, List.nil_append, List.append_nil]
  rfl

theorem settle_concat_keep (hact : act p = .keep) (r : Addr × List Addr) :
    settle act h (us ++ [p]) r = settle act h us r := by
  by_cases hne : r.1 = h
  · simp only [settle, hne, if_true]
    congr 1
    apply List.filter_congr
    intro x _
    by_cases hx : x = p
    · simp [hx, hact]
    · simp [hx]
  · exact settle_concat_same hne (by simp [hact]) (by simp [hact])

/-- The list `h` after a visit that takes the entry off it. -/
theorem remove_settle_head (hd : xs.Nodup) (hact : act p ≠ .keep) :
    remove p (settle act h us (h, xs)) = settle act h (us ++ [p]) (h, xs) := by
  rw [settle_head, settle_head, remove, (hd.filter _).erase_eq_filter, List.filter_filter]
  congr 1
  apply List.filter_congr
  intro x _
  by_cases hx : x = p
  · simp [hx, hact]
  · simp [hx]

section
variable (hA : Agrees m (L.map (settle act h us))) (hh : (h, xs) ∈ L) (hone : ∀ r ∈ L, r.1 = h → r = (h, xs))
  (hd : xs.Nodup) (hp : p ∈ xs) (hu : p ∉ us)
include hA hh hone hd hp hu

/-- The lists after the entry is taken off and `f` puts it where the action says. -/
theorem visit_map {f : Addr × List Addr → Addr × List Addr} (hact : act p ≠ .keep)
    (hhead : f (settle act h (us ++ [p]) (h, xs)) = settle act h (us ++ [p]) (h, xs))
    (hother : ∀ r ∈ L, r.1 ≠ h → f (settle act h us r) = settle act h (us ++ [p]) r) :
    ((L.map (settle act h us)).map (remove p)).map f = L.map (settle act h (us ++ [p])) := by
  rw [List.map_map, List.map_map]
  apply List.map_congr_left
  intro r hr
  simp only [Function.comp_apply]
  by_cases hr1 : r.1 = h
  · obtain rfl := hone r hr hr1
    rw [remove_settle_head hd hact, hhead]
  · rw [remove_of_not_mem _ (entry_off hA hh hp hu hr hr1)]
    exact hother r hr hr1

/-- A move: `f` acts on the receiving list alone. -/
theorem visit_map_move {k : Addr} {f : Addr × List Addr → Addr × List Addr} (hk : k ∈ heads L) (hkh : k ≠ h)
    (hact : act p ≠ .keep) (hact' : ∀ k', k' ≠ k → act p ≠ .list_move k' ∧ act p ≠ .list_move_tail k')
    (hf : ∀ r, k ∉ r.1 :: r.2 → f r = r)
    (hput : ∀ r ∈ L, r.1 = k → f (settle act h us r) = settle act h (us ++ [p]) r) :
    ((L.map (settle act h us)).map (remove p)).map f = L.map (settle act h (us ++ [p])) := by
  apply visit_map hA hh hone hd hp hu hact
  · rw [← remove_settle_head hd hact]
    apply hf
    intro hm
    refine head_off hA hk hh hkh.symm (List.mem_cons.2 ?_)
    exact (List.mem_cons.1 hm).imp id List.mem_of_mem_erase
  · intro r hr hr1
    by_cases hrk : r.1 = k
    · exact hput r hr hrk
    · rw [hf _ (head_off hA hk hr hrk), settle_concat_same hr1 (hact' _ hrk).1 (hact' _ hrk).2]

/-- One visit. -/
theorem agrees_visit (hok : (act p).ok L h) : Agrees ((act p).exec m p) (L.map (settle act h (us ++ [p]))) := by
  have hn : p ∈ entries (L.map (settle act h us)) :=
    mem_entries.2 ⟨_, List.mem_map_of_mem hh, settle_mem hp hu⟩
  cases e : act p with
  | keep =>
    have hsame : L.map (settle act h (us ++ [p])) = L.map (settle act h us) :=
      List.map_congr_left fun r _ => settle_concat_keep e r
    rw [hsame]
    exact hA
  | list_del =>
    have hmap := visit_map (f := id) hA hh hone hd hp hu (by simp [e]) rfl fun r _ hr1 =>
      (settle_concat_same hr1 (by simp [e]) (by simp [e])).symm
    rw [List.map_id] at hmap
    exact hmap ▸ agrees_list_del hA hn
  | list_del_init =>
    have hmap := visit_map (f := id) hA hh hone hd hp hu (by simp [e]) rfl fun r _ hr1 =>
      (settle_concat_same hr1 (by simp [e]) (by simp [e])).symm
    rw [List.map_id] at hmap
    exact hmap ▸ agrees_list_del_init hA hn
  | list_move k =>
    obtain ⟨hk, hkh⟩ : k ∈ heads L ∧ k ≠ h := by rwa [e] at hok
    obtain ⟨hkm, hpk⟩ := receiver hA hh hp hu hk hkh
    rw [← visit_map_move (f := addAfter k [p]) hA hh hone hd hp hu hk hkh (by simp [e])]
    · exact agrees_list_move hA hn hkm hpk
    · intro k' hne
      simp [e, hne.symm]
    · exact addAfter_of_not_mem [p]
    · rintro r - rfl
      rw [settle_concat hkh, e]
      simp [addAfter, settle]
  | list_move_tail k =>
    obtain ⟨hk, hkh⟩ : k ∈ heads L ∧ k ≠ h := by rwa [e] at hok
    obtain ⟨hkm, hpk⟩ := receiver hA hh hp hu hk hkh
    rw [← visit_map_move (f := addBefore k [p]) hA hh hone hd hp hu hk hkh (by simp [e])]
    · exact agrees_list_move_tail hA hn hkm hpk
    · intro k' hne
      simp [e, hne.symm]
    · exact addBefore_of_not_mem [p]
    · rintro r - rfl
      rw [settle_concat hkh, e]
      simp [addBefore, settle]

end

/-! ## The loops -/

/-- The two directions of a loop. -/
inductive Dir where
  | next
  | prev

namespace Dir

def link : Dir → Mem → Addr → Addr
  | next => Mem.next
  | prev => Mem.prev

/-- The entries in the order of the loop. -/
def order : Dir → List Addr → List Addr
  | next, xs => xs
  | prev, xs => xs.reverse

theorem ring (d : Dir) (hr : Ring m.next m.prev h xs) : ∃ back, Ring (d.link m) back h (d.order xs) := by
  cases d with
  | next => exact ⟨_, hr⟩
  | prev => exact ⟨_, hr.reverse⟩

theorem order_filter (d : Dir) (f : Addr → Bool) : d.order (xs.filter f) = (d.order xs).filter f := by
  cases d with
  | next => rfl
  | prev => exact List.filter_reverse.symm

theorem order_perm (d : Dir) : (d.order xs).Perm xs := by
  cases d with
  | next => exact .refl xs
  | prev => exact xs.reverse_perm

end Dir

/-- The body that does `act` with the entry at hand. -/
def acting (act : Addr → Action) (m : Mem) (pos : Addr) : Mem := (act pos).exec m pos

/-- The entries that are left to visit are still behind the current one. -/
theorem order_settle (d : Dir) (hsplit : d.order xs = us ++ w) (hnd : (us ++ w).Nodup) :
    d.order (settle act h us (h, xs)).2 = (us.filter fun x => x ∉ us ∨ act x = .keep) ++ w := by
  have hw : (w.filter fun x => x ∉ us ∨ act x = .keep) = w := by
    apply List.filter_eq_self.2
    intro x hx
    have hxu : x ∉ us := fun hm => (List.nodup_append.1 hnd).2.2 x hm x hx rfl
    simp [hxu]
  rw [settle_head, d.order_filter, hsplit, List.filter_append, hw]

/-- The loop visits what is left in order, and does with each entry what `act` says. -/
theorem for_each_safe_acts (d : Dir) (hA : Agrees m (L.map (settle act h us))) (hh : (h, xs) ∈ L)
    (hone : ∀ r ∈ L, r.1 = h → r = (h, xs)) (hd : (h :: xs).Nodup) (hok : ∀ x ∈ xs, (act x).ok L h)
    (hsplit : d.order xs = us ++ w) {fuel : Nat} (hf : w.length < fuel) :
    ∃ m', for_each_safe d.link (acting act) h fuel m (headOf w h) (d.link m (headOf w h)) = some (m', w) ∧
      Agrees m' (L.map (settle act h (us ++ w))) := by
  induction w generalizing m us fuel with
  | nil =>
    obtain ⟨fuel, rfl⟩ := Nat.exists_eq_add_of_lt hf
    exact ⟨m, by simp [for_each_safe], by simpa using hA⟩
  | cons p w ih =>
    obtain ⟨fuel, rfl⟩ := Nat.exists_eq_add_of_lt hf
    have hperm : (us ++ p :: w).Perm xs := hsplit ▸ d.order_perm
    have hxs := (List.nodup_cons.1 hd).2
    have hnd : (us ++ p :: w).Nodup := hperm.nodup_iff.2 hxs
    have hp : p ∈ xs := hperm.mem_iff.1 (by simp)
    have hu : p ∉ us := fun hm => (List.nodup_append.1 hnd).2.2 p hm p (by simp) rfl
    have hph : p ≠ h := by
      rintro rfl
      exact (List.nodup_cons.1 hd).1 hp
    -- the successor is read on the ring as it is now, and it is the next entry to visit
    have hn : d.link m p = headOf w h := by
      obtain ⟨back, hr⟩ := d.ring (hA.rings _ (List.mem_map_of_mem hh))
      have hr' : Ring (d.link m) back h (d.order (settle act h us (h, xs)).2) := hr
      rw [order_settle d hsplit hnd] at hr'
      exact hr'.next_mem
    have hvisit := agrees_visit hA hh hone hxs hp hu (hok p hp)
    have hw : w.length < w.length + 1 + fuel := by omega
    obtain ⟨m', h1, h2⟩ := ih hvisit (by simpa using hsplit) hw
    refine ⟨m', ?_, by simpa using h2⟩
    have hrest : for_each_safe d.link (acting act) h (w.length + 1 + fuel) (acting act m p) (headOf w h)
        (d.link (acting act m p) (headOf w h)) = some (m', w) := h1
    simp [for_each_safe, hph, hn, hrest]

/-- A list after the loop over the list `h` that visits `zs`: `h` keeps the kept
entries, and moved entries stand in front of a list or behind it. -/
def outcome (act : Addr → Action) (h : Addr) (zs : List Addr) (r : Addr × List Addr) : Addr × List Addr :=
  (r.1, if r.1 = h then r.2.filter fun x => act x = .keep
    else (zs.filter fun x => act x = .list_move r.1).reverse ++ r.2 ++ zs.filter fun x => act x = .list_move_tail r.1)

theorem settle_order (d : Dir) (hone : ∀ r ∈ L, r.1 = h → r = (h, xs)) :
    L.map (settle act h (d.order xs)) = L.map (outcome act h (d.order xs)) := by
  apply List.map_congr_left
  intro r hr
  by_cases hr1 : r.1 = h
  · obtain rfl := hone r hr hr1
    have hall : (xs.filter fun x => x ∉ d.order xs ∨ act x = .keep) = xs.filter fun x => act x = .keep := by
      apply List.filter_congr
      intro x hx
      simp [d.order_perm.mem_iff, hx]
    simp only [settle, outcome, if_true, hall]
  · simp only [settle, outcome, hr1, if_false]

/-- The whole loop in either direction. -/
theorem safe_loop_acts (d : Dir) (hA : Agrees m L) (hh : (h, xs) ∈ L) (hok : ∀ x ∈ xs, (act x).ok L h) {fuel : Nat}
    (hf : xs.length < fuel) :
    ∃ m', for_each_safe d.link (acting act) h fuel m (d.link m h) (d.link m (d.link m h)) = some (m', d.order xs) ∧
      Agrees m' (L.map (outcome act h (d.order xs))) := by
  have hone : ∀ r ∈ L, r.1 = h → r = (h, xs) := by
    intro r hr hr1
    exact hA.eq_of_mem hr hh (a := h) (by simp [hr1]) List.mem_cons_self
  obtain ⟨back, hr⟩ := d.ring (hA.rings _ hh)
  have hfirst : d.link m h = headOf (d.order xs) h := hr.next_head
  have hlen : (d.order xs).length < fuel := d.order_perm.length_eq.symm ▸ hf
  have hA₀ : Agrees m (L.map (settle act h [])) := by rwa [settle_nil]
  have hsplit : d.order xs = [] ++ d.order xs := rfl
  rw [hfirst, ← settle_order d hone]
  exact for_each_safe_acts d hA₀ hh hone (hA.nodup_list hh) hok hsplit hlen

/-- The loop over entries is the loop over their members. -/
theorem for_each_entry_safe_eq (offset : Nat) (link : Mem → Addr → Addr) (body : Mem → Addr → Mem) (head : Addr)
    (fuel : Nat) (m : Mem) (pos n : Addr) :
    for_each_entry_safe offset (fun m pos => list_entry offset (link m (member offset pos)))
        (fun m pos => body m (member offset pos)) head fuel m (list_entry offset pos) (list_entry offset n) =
      (for_each_safe link body head fuel m pos n).map fun r => (r.1, r.2.map (list_entry offset)) := by
  induction fuel generalizing m pos n with
  | zero => rfl
  | succ fuel ih =>
    unfold for_each_entry_safe for_each_safe
    rw [member_list_entry]
    split
    · rfl
    · simp only [member_list_entry, ih, Option.map_map]
      rfl

theorem entry_loop_eq (offset : Nat) (link : Mem → Addr → Addr) (body : Mem → Addr → Mem) (head : Addr)
    (fuel : Nat) (m : Mem) :
    let pos := list_entry offset (link m head)
    for_each_entry_safe offset (fun m pos => list_entry offset (link m (member offset pos)))
        (fun m pos => body m (member offset pos)) head fuel m pos (list_entry offset (link m (member offset pos))) =
      (for_each_safe link body head fuel m (link m head) (link m (link m head))).map fun r =>
        (r.1, r.2.map (list_entry offset)) := by
  intro pos
  rw [member_list_entry]
  exact for_each_entry_safe_eq offset link body head fuel m _ _

theorem list_for_each_entry_safe_eq (offset : Nat) (body : Mem → Addr → Mem) (fuel : Nat) (m : Mem) (head : Addr) :
    list_for_each_entry_safe offset (fun m pos => body m (member offset pos)) fuel m head =
      (list_for_each_safe body fuel m head).map fun r => (r.1, r.2.map (list_entry offset)) :=
  entry_loop_eq offset Mem.next body head fuel m

theorem list_for_each_entry_safe_reverse_eq (offset : Nat) (body : Mem → Addr → Mem) (fuel : Nat) (m : Mem)
    (head : Addr) : list_for_each_entry_safe_reverse offset (fun m pos => body m (member offset pos)) fuel m head =
      (list_for_each_prev_safe body fuel m head).map fun r => (r.1, r.2.map (list_entry offset)) :=
  entry_loop_eq offset Mem.prev body head fuel m

/-- On any list `h`, with any choice of what the body does with each entry: the four
safe loops end, visit every entry once, forwards or backwards, and leave the lists in
which `h` has its kept entries and each other list its own with the moved ones around
them. -/
theorem safe_loops_act (m : Mem) (L : Lists) (hA : Agrees m L) (h : Addr) (xs : List Addr) (hh : (h, xs) ∈ L)
    (act : Addr → Action) (hok : ∀ x ∈ xs, (act x).ok L h) (offset fuel : Nat) (hf : xs.length < fuel) :
    (∃ m', list_for_each_safe (acting act) fuel m h = some (m', xs) ∧ Shows m' (L.map (outcome act h xs))) ∧
    (∃ m', list_for_each_prev_safe (acting act) fuel m h = some (m', xs.reverse) ∧
      Shows m' (L.map (outcome act h xs.reverse))) ∧
    (∃ m', list_for_each_entry_safe offset (fun m pos => acting act m (member offset pos)) fuel m h =
        some (m', xs.map (list_entry offset)) ∧ Shows m' (L.map (outcome act h xs))) ∧
    ∃ m', list_for_each_entry_safe_reverse offset (fun m pos => acting act m (member offset pos)) fuel m h =
        some (m', xs.reverse.map (list_entry offset)) ∧ Shows m' (L.map (outcome act h xs.reverse)) := by
  obtain ⟨m₁, h1, hA₁⟩ := safe_loop_acts .next hA hh hok hf
  obtain ⟨m₂, h2, hA₂⟩ := safe_loop_acts .prev hA hh hok hf
  have hnext : list_for_each_safe (acting act) fuel m h = some (m₁, xs) := h1
  have hprev : list_for_each_prev_safe (acting act) fuel m h = some (m₂, xs.reverse) := h2
  refine ⟨⟨m₁, hnext, hA₁.shows⟩, ⟨m₂, hprev, hA₂.shows⟩, ⟨m₁, ?_, hA₁.shows⟩, ⟨m₂, ?_, hA₂.shows⟩⟩
  · rw [list_for_each_entry_safe_eq, hnext]
    rfl
  · rw [list_for_each_entry_safe_reverse_eq, hprev]
    rfl

/-- One entry is kept, one is deleted, and two go to the two ends of another list. -/
theorem safe_loops_act_four :
    let m := Mem.run ⟨fun _ => 0, fun _ => 0⟩ [.LIST_HEAD 1, .LIST_HEAD 2, .list_add_tail 10 1, .list_add_tail 11 1,
      .list_add_tail 12 1, .list_add_tail 13 1, .list_add 20 2]
    let act := fun x => if x = 11 then Action.list_del else if x = 12 then .list_move 2
      else if x = 13 then .list_move_tail 2 else .keep
    ∃ m', list_for_each_safe (acting act) 5 m 1 = some (m', [10, 11, 12, 13]) ∧
      Shows m' [(2, [12, 20, 13]), (1, [10])] :=
  (safe_loops_act _ [(2, [20]), (1, [10, 11, 12, 13])] (agrees_run (agrees_nil _) _ (by decide)) 1 [10, 11, 12, 13]
    (by decide) _ (by simp [Action.ok, heads]) 8 5 (by decide)).1

end SiteCode.ListHead
