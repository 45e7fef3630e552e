import Mathlib.Data.List.Flatten
import SiteCode.ListHead.Cut
/-!
# Runs of every call of `list.h`

The calls of `Lists.lean` leave every head initialised. The other ones do not: a
head that was spliced keeps links into the list that took its entries, and a cut
writes over the head it fills. Such a head is given up first (`forget`), and a
call that keeps its promises only then is a call on the lists that are left.
-/

namespace SiteCode.ListHead

open Lib ListHead.Lists

/-- The lists without the one of `head`. -/
def forget (head : Addr) (L : Lists) : Lists := L.filter fun r => r.1 ≠ head

/-- The front of the list `head` goes to `list`, whatever was on `list`. -/
def cut (list head : Addr) (front : List Addr → List Addr) (L : Lists) : Lists :=
  let xs := entriesOf L head
  (list, front xs) :: (forget list L).map fun r => if r.1 = head then (head, xs.drop (front xs).length) else r

/-- Any call of `list.h` that writes links. -/
inductive Call where
  | op (op : Op)
  /-- a head in use is initialised again -/
  | INIT_LIST_HEAD (list : Addr)
  | list_splice (list head : Addr)
  | list_splice_tail (list head : Addr)
  | list_cut_position (list head entry : Addr)
  | list_cut_before (list head entry : Addr)
  deriving DecidableEq, Repr

namespace Call

/-- When a call may be made. A cut fills a free node or a head, whose entries are lost. -/
def ok (L : Lists) : Call → Bool
  | op o => o.ok L
  | INIT_LIST_HEAD list => list ∈ heads L
  | list_splice list head | list_splice_tail list head =>
    list ∈ heads L ∧ head ∈ members L ∧ head ∉ list :: entriesOf L list
  | list_cut_position list head entry | list_cut_before list head entry =>
    (list ∉ members L ∨ list ∈ heads L) ∧ list ≠ head ∧ head ∈ heads L ∧ entry ∈ head :: entriesOf L head

/-- The edit a call stands for. An empty list is neither spliced nor cut behind
an entry: its head and the node to fill stay as they are. -/
def edit (L : Lists) : Call → Lists
  | op o => o.edit L
  | INIT_LIST_HEAD list => (list, []) :: forget list L
  | list_splice list head =>
    if entriesOf L list = [] then L else forget list (Op.edit L (.list_splice_init list head))
  | list_splice_tail list head =>
    if entriesOf L list = [] then L else forget list (Op.edit L (.list_splice_tail_init list head))
  | list_cut_position list head entry =>
    if entriesOf L head = [] then L
    else cut list head (fun xs => if entry = head then [] else through (· = entry) xs) L
  | list_cut_before list head entry => cut list head (fun xs => xs.takeWhile (· ≠ entry)) L

def exec (m : Mem) : Call → Mem
  | op o => o.exec m
  | INIT_LIST_HEAD list => ListHead.INIT_LIST_HEAD m list
  | list_splice list head => ListHead.list_splice m list head
  | list_splice_tail list head => ListHead.list_splice_tail m list head
  | list_cut_position list head entry => ListHead.list_cut_position m list head entry
  | list_cut_before list head entry => ListHead.list_cut_before m list head entry

end Call

/-- A sequence of calls, as long as every one may be made. -/
def Lists.calls (L : Lists) : List Call → Option Lists
  | [] => some L
  | c :: cs => if c.ok L then Lists.calls (c.edit L) cs else none

def Mem.calls (m : Mem) (cs : List Call) : Mem := cs.foldl Call.exec m

variable {m : Mem} {L : Lists} {k h p : Addr} {xs u v : List Addr}

/-! ## Giving up a list -/

theorem agrees_forget (hA : Agrees m L) (k : Addr) : Agrees m (forget k L) := by
  refine ⟨hA.nodup.sublist ?_, fun r hr => hA.rings r (List.mem_filter.1 hr).1⟩
  exact List.Sublist.flatMap List.filter_sublist _

/-- What is given up is on no list any more. -/
theorem not_mem_forget (hA : Agrees m L) (hk : k ∉ members L ∨ k ∈ heads L) : k ∉ members (forget k L) := by
  intro hm
  obtain ⟨r, hr, hkr⟩ := mem_members.1 hm
  obtain ⟨hrL, hne⟩ := List.mem_filter.1 hr
  have hne : r.1 ≠ k := by simpa using hne
  rcases hk with hk | hk
  · exact hk (mem_members.2 ⟨r, hrL, hkr⟩)
  · obtain ⟨r', hr', rfl⟩ := List.mem_map.1 hk
    exact hne (congrArg Prod.fst (hA.eq_of_mem hrL hr' hkr List.mem_cons_self))

theorem Agrees.mem_of_head (hA : Agrees m L) (hk : k ∈ heads L) : (k, Lists.entriesOf L k) ∈ L := by
  obtain ⟨⟨k', ys⟩, hr, rfl⟩ := List.mem_map.1 hk
  rwa [hA.entriesOf hr]

theorem mem_heads_forget (hh : h ∈ heads L) (hne : k ≠ h) : h ∈ heads (forget k L) := by
  obtain ⟨r, hr, rfl⟩ := List.mem_map.1 hh
  refine List.mem_map_of_mem (List.mem_filter.2 ⟨hr, ?_⟩)
  simpa using hne.symm

theorem entriesOf_forget (hA : Agrees m L) (hh : h ∈ heads L) (hne : k ≠ h) :
    entriesOf (forget k L) h = entriesOf L h := by
  apply (agrees_forget hA k).entriesOf
  refine List.mem_filter.2 ⟨hA.mem_of_head hh, ?_⟩
  simpa using hne.symm

/-- A node that is on no list may have any links. -/
theorem agrees_of_init (hA : Agrees (INIT_LIST_HEAD m k) L) (hk : k ∉ members L) : Agrees m L := by
  have hne : ∀ a ∈ members L, a ≠ k := fun a ha e => hk (e ▸ ha)
  exact hA.congr (fun a ha => by simp [INIT_LIST_HEAD, hne a ha]) fun a ha => by simp [INIT_LIST_HEAD, hne a ha]

/-! ## Splicing -/

theorem list_empty_iff (hA : Agrees m L) (hk : k ∈ heads L) : list_empty m k = true ↔ entriesOf L k = [] := by
  have hrow := hA.mem_of_head hk
  rw [list_empty_eq (hA.rings _ hrow) (hA.nodup_list hrow), decide_eq_true_eq, List.length_eq_zero_iff]

/-- A splice that does not initialise the head it empties: the one that does,
and the head is given up. -/
theorem agrees_splice_stale {m' : Mem} {L' : Lists} (hA : Agrees (INIT_LIST_HEAD m' k) L') (hk : k ∈ heads L') :
    Agrees m' (forget k L') :=
  agrees_of_init (agrees_forget hA k) (not_mem_forget hA (.inr hk))

theorem mem_heads_splice {f : Addr × List Addr → Addr × List Addr} (hf : ∀ r, (f r).1 = r.1) (hk : k ∈ heads L) :
    k ∈ heads ((L.map (clear k)).map f) := by
  obtain ⟨r, hr, rfl⟩ := List.mem_map.1 hk
  refine List.mem_map.2 ⟨_, List.mem_map_of_mem (List.mem_map_of_mem hr), ?_⟩
  simp [hf, clear]

theorem agrees_list_splice (hA : Agrees m L) (hk : k ∈ heads L) (hp : p ∈ members L) (hpk : p ∉ k :: entriesOf L k) :
    Agrees (list_splice m k p) (Call.edit L (.list_splice k p)) := by
  have hinit := agrees_list_splice_init hA hk hp hpk
  simp only [Call.edit]
  unfold list_splice
  by_cases he : entriesOf L k = []
  · rw [if_pos he, (list_empty_iff hA hk).2 he]
    exact hA
  · have hempty : list_empty m k = false := by rwa [← list_empty_iff hA hk, Bool.not_eq_true] at he
    rw [if_neg he, hempty]
    simp only [list_splice_init, hempty] at hinit
    exact agrees_splice_stale hinit (mem_heads_splice (fun _ => rfl) hk)

theorem agrees_list_splice_tail (hA : Agrees m L) (hk : k ∈ heads L) (hp : p ∈ members L)
    (hpk : p ∉ k :: entriesOf L k) : Agrees (list_splice_tail m k p) (Call.edit L (.list_splice_tail k p)) := by
  have hinit := agrees_list_splice_tail_init hA hk hp hpk
  simp only [Call.edit]
  unfold list_splice_tail
  by_cases he : entriesOf L k = []
  · rw [if_pos he, (list_empty_iff hA hk).2 he]
    exact hA
  · have hempty : list_empty m k = false := by rwa [← list_empty_iff hA hk, Bool.not_eq_true] at he
    rw [if_neg he, hempty]
    simp only [list_splice_tail_init, hempty] at hinit
    exact agrees_splice_stale hinit (mem_heads_splice (fun _ => rfl) hk)

/-! ## Cutting -/

/-- A cut of the list `h` at a gap, onto a node that may be a head. -/
theorem agrees_cut_gap {list : Addr} {front : List Addr → List Addr} (hA : Agrees m L)
    (hl : list ∉ members L ∨ list ∈ heads L) (hne : list ≠ h) (hh : h ∈ heads L) (hxs : entriesOf L h = u ++ v)
    (hfront : front (u ++ v) = u) : Agrees (list_cut_before m list h (headOf v h)) (cut list h front L) := by
  have hA₁ := agrees_forget hA list
  have hl₁ := not_mem_forget hA hl
  have hh₁ := mem_heads_forget hh hne
  have hrow : (h, u ++ v) ∈ forget list L := by
    have := hA₁.mem_of_head hh₁
    rwa [entriesOf_forget hA hh hne, hxs] at this
  have hhm : h ∈ members (forget list L) := mem_members.2 ⟨_, hrow, List.mem_cons_self⟩
  have hkeep : ∀ r : Addr × List Addr, h ∉ r.1 :: r.2 → (if r.1 = h then (h, v) else r) = r := by
    intro r hr
    exact if_neg fun e => hr (by simp [e])
  obtain ⟨h', xs, rest, hL, hm, hA₂, hf⟩ := hA₁.focus hhm _ hkeep
  obtain rfl := hA₁.head_eq hh₁ hL hm
  obtain rfl : xs = u ++ v := by
    have := hA₂.eq_of_mem (hL.mem_iff.1 hrow) List.mem_cons_self List.mem_cons_self List.mem_cons_self
    exact (congrArg Prod.snd this).symm
  rw [if_pos rfl] at hf
  have hcut := agrees_list_cut_before hA₂ fun hm => hl₁ ((members_perm hL).mem_iff.2 hm)
  refine hcut.perm ?_
  unfold cut
  simp only [hxs, hfront, List.drop_left]
  exact hf.cons _

theorem agrees_cut_before {list e : Addr} (hA : Agrees m L) (hl : list ∉ members L ∨ list ∈ heads L) (hne : list ≠ h)
    (hh : h ∈ heads L) (he : e ∈ h :: entriesOf L h) :
    Agrees (list_cut_before m list h e) (Call.edit L (.list_cut_before list h e)) := by
  have hd := hA.nodup_list (hA.mem_of_head hh)
  obtain ⟨u, v, hxs, rfl, -⟩ := gap_before hd he
  simp only at hxs
  apply agrees_cut_gap hA hl hne hh hxs
  rw [hxs] at hd
  have hu : ∀ x ∈ u, x ≠ headOf v h := by
    rintro x hx rfl
    rcases List.mem_cons.1 (headOf_mem v h) with e | hm
    · exact (List.nodup_cons.1 hd).1 (List.mem_append_left _ (e ▸ hx))
    · exact (List.nodup_append.1 (List.nodup_cons.1 hd).2).2.2 _ hx _ hm rfl
  rw [List.takeWhile_append_of_pos (by simpa using hu)]
  cases v with
  | nil => simp
  | cons z v => simp

theorem agrees_cut_position {list e : Addr} (hA : Agrees m L) (hl : list ∉ members L ∨ list ∈ heads L) (hne : list ≠ h)
    (hh : h ∈ heads L) (he : e ∈ h :: entriesOf L h) :
    Agrees (list_cut_position m list h e) (Call.edit L (.list_cut_position list h e)) := by
  have hrow := hA.mem_of_head hh
  have hd := hA.nodup_list hrow
  have hr := hA.rings _ hrow
  simp only [Call.edit]
  by_cases hx : entriesOf L h = []
  · rw [if_pos hx, list_cut_position, (list_empty_iff hA hh).2 hx]
    exact hA
  · rw [if_neg hx, list_cut_position_eq hr hd he hx]
    obtain ⟨u, v, hxs, hlast, -⟩ := gap_after hd he
    simp only at hxs
    rw [hxs] at hr hd
    have hnext : m.next e = headOf v h := hlast ▸ hr.seam.1
    rw [hnext]
    apply agrees_cut_gap hA hl hne hh hxs
    -- the gap behind `e` is in front of everything or behind an entry
    rcases List.eq_nil_or_concat u with rfl | ⟨u, x, rfl⟩
    · rw [lastOf_nil] at hlast
      exact if_pos hlast.symm
    · rw [List.concat_eq_append] at hd ⊢
      simp only [List.concat_eq_append, lastOf_concat] at hlast
      subst hlast
      have hxh : x ≠ h := by
        rintro rfl
        exact (List.nodup_cons.1 hd).1 (by simp)
      have hxu : ∀ y ∈ u, y ≠ x := by
        rintro y hy rfl
        have hnd := (List.nodup_append.1 (List.nodup_cons.1 hd).2).1
        exact (List.nodup_append.1 hnd).2.2 y hy y (by simp) rfl
      have hfind : u.find? (fun y => decide (y = x)) = none := by simpa using hxu
      rw [if_neg hxh, List.append_assoc, through_append_of_none hfind]
      simp [through]

/-! ## Runs -/

/-- One call. -/
theorem agrees_call (hA : Agrees m L) (c : Call) (hok : c.ok L = true) : Agrees (c.exec m) (c.edit L) := by
  cases c with
  | op o => exact agrees_exec hA o hok
  | INIT_LIST_HEAD list =>
    have hlist : list ∈ heads L := by simpa [Call.ok] using hok
    exact agrees_new_head (agrees_forget hA list) (not_mem_forget hA (.inr hlist))
  | list_splice list head =>
    obtain ⟨h1, h2, h3⟩ := of_decide_eq_true hok
    exact agrees_list_splice hA h1 h2 h3
  | list_splice_tail list head =>
    obtain ⟨h1, h2, h3⟩ := of_decide_eq_true hok
    exact agrees_list_splice_tail hA h1 h2 h3
  | list_cut_position list head entry =>
    obtain ⟨h1, h2, h3, h4⟩ := of_decide_eq_true hok
    exact agrees_cut_position hA h1 h2 h3 h4
  | list_cut_before list head entry =>
    obtain ⟨h1, h2, h3, h4⟩ := of_decide_eq_true hok
    exact agrees_cut_before hA h1 h2 h3 h4

/-- A run of calls. -/
theorem agrees_calls (hA : Agrees m L) (cs : List Call) {L' : Lists} (h : Lists.calls L cs = some L') :
    Agrees (m.calls cs) L' := by
  induction cs generalizing m L with
  | nil =>
    cases h
    exact hA
  | cons c cs ih =>
    rw [Lists.calls] at h
    split at h
    · exact ih (agrees_call hA c ‹_›) h
    · cases h

/-- All of `list.h` refines sequences. After any run of calls, of which splices leave
heads stale and cuts fill heads that are in use, memory shows exactly the lists that
the edits of sequences give. -/
theorem list_calls_refine (m : Mem) (cs : List Call) (L : Lists) (h : Lists.calls [] cs = some L) :
    Shows (m.calls cs) L :=
  (agrees_calls (agrees_nil m) cs h).shows

/-- A spliced head is stale until a cut fills it again; an empty list is not cut. -/
theorem list_calls_refine_stale : Shows
    (Mem.calls ⟨fun _ => 0, fun _ => 0⟩ [.op (.LIST_HEAD 1), .op (.LIST_HEAD 2), .op (.list_add_tail 10 1),
      .op (.list_add_tail 11 1), .op (.list_add_tail 12 2), .list_splice 1 2, .list_cut_position 1 2 10,
      .INIT_LIST_HEAD 2, .list_cut_position 1 2 2, .list_splice_tail 2 1])
    [(2, []), (1, [10])] :=
  list_calls_refine _ _ _ (by decide)

end SiteCode.ListHead
