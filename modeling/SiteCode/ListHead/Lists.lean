import Mathlib.Data.List.Rotate
import SiteCode.Lib.Edit
import SiteCode.ListHead.Ops
/-!
# What the list operations are for

The abstract side: a program's lists are sequences of nodes, each with its
head, and an operation edits those sequences. No pointer occurs here. The
edits are the meaning of `list.h`; `Refine.lean` shows that the pointer writes
compute them.
-/

namespace SiteCode.ListHead

open Lib

/-- The lists of a program: each head with its entries, in order. -/
abbrev Lists := List (Addr × List Addr)

namespace Lists

/-- Every node that is a head or an entry. -/
def members (L : Lists) : List Addr := L.flatMap fun r => r.1 :: r.2

def heads (L : Lists) : List Addr := L.map (·.1)

def entries (L : Lists) : List Addr := L.flatMap (·.2)

def entriesOf (L : Lists) (head : Addr) : List Addr := (L.lookup head).getD []

end Lists

/-! ## Edits of sequences -/

/-- Put `ys` behind the node `p` of a list; behind the head is the front. -/
def addAfter (p : Addr) (ys : List Addr) (r : Addr × List Addr) : Addr × List Addr :=
  (r.1, if r.1 = p then ys ++ r.2 else graft p (p :: ys) r.2)

/-- Put `ys` in front of the node `p` of a list; before the head is the back. -/
def addBefore (p : Addr) (ys : List Addr) (r : Addr × List Addr) : Addr × List Addr :=
  (r.1, if r.1 = p then r.2 ++ ys else graft p (ys ++ [p]) r.2)

def remove (n : Addr) (r : Addr × List Addr) : Addr × List Addr := (r.1, r.2.erase n)

/-- `new` takes the place of `old`, be it an entry or the head. -/
def subst (old new : Addr) (r : Addr × List Addr) : Addr × List Addr :=
  let f := fun x => if x = old then new else x
  (f r.1, r.2.map f)

def clear (head : Addr) (r : Addr × List Addr) : Addr × List Addr :=
  if r.1 = head then (r.1, []) else r

def rotate (head : Addr) (r : Addr × List Addr) : Addr × List Addr :=
  if r.1 = head then (r.1, r.2.rotate 1) else r

/-! ## Operations -/

/-- A call of a program. A `head` argument may be any node of a list: `list.h`
adds and splices at an entry just as it does at a head. -/
inductive Op where
  | LIST_HEAD (name : Addr)
  | INIT_LIST_HEAD (list : Addr)
  | list_add (new head : Addr)
  | list_add_tail (new head : Addr)
  | list_del (entry : Addr)
  | list_del_init (entry : Addr)
  | list_move (list head : Addr)
  | list_move_tail (list head : Addr)
  | list_replace (old new : Addr)
  | list_replace_init (old new : Addr)
  | list_rotate_left (head : Addr)
  | list_splice_init (list head : Addr)
  | list_splice_tail_init (list head : Addr)
  deriving DecidableEq, Repr

open ListHead.Lists

/-- When an operation may be called: added and replacing nodes are on no list,
deleted and moved nodes are entries, the lists of a splice differ. -/
def Op.ok (L : Lists) : Op → Bool
  | .LIST_HEAD name => name ∉ members L
  | .INIT_LIST_HEAD list => list ∉ members L
  | .list_add new head | .list_add_tail new head => new ∉ members L ∧ head ∈ members L
  | .list_del entry | .list_del_init entry => entry ∈ entries L
  | .list_move list head | .list_move_tail list head =>
    list ∈ entries L ∧ head ∈ members L ∧ list ≠ head
  | .list_replace old new | .list_replace_init old new => old ∈ members L ∧ new ∉ members L
  | .list_rotate_left head => head ∈ heads L
  | .list_splice_init list head | .list_splice_tail_init list head =>
    list ∈ heads L ∧ head ∈ members L ∧ head ∉ list :: entriesOf L list

/-- The edit an operation stands for. A replaced head hands its entries to the
new head; after `list_replace_init` it is the head of an empty list again. -/
def Op.edit (L : Lists) : Op → Lists
  | .LIST_HEAD name => (name, []) :: L
  | .INIT_LIST_HEAD list => (list, []) :: L
  | .list_add new head => L.map (addAfter head [new])
  | .list_add_tail new head => L.map (addBefore head [new])
  | .list_del entry | .list_del_init entry => L.map (remove entry)
  | .list_move list head => (L.map (remove list)).map (addAfter head [list])
  | .list_move_tail list head => (L.map (remove list)).map (addBefore head [list])
  | .list_replace old new => L.map (subst old new)
  | .list_replace_init old new =>
    if old ∈ heads L then (old, []) :: L.map (subst old new) else L.map (subst old new)
  | .list_rotate_left head => L.map (rotate head)
  | .list_splice_init list head => (L.map (clear list)).map (addAfter head (entriesOf L list))
  | .list_splice_tail_init list head => (L.map (clear list)).map (addBefore head (entriesOf L list))

/-- A sequence of edits, as long as every call is allowed. -/
def Lists.run (L : Lists) : List Op → Option Lists
  | [] => some L
  | op :: ops => if op.ok L then Lists.run (op.edit L) ops else none

/-- The same call on memory. -/
def Op.exec (m : Mem) : Op → Mem
  | .LIST_HEAD name => ListHead.LIST_HEAD m name
  | .INIT_LIST_HEAD list => ListHead.INIT_LIST_HEAD m list
  | .list_add new head => ListHead.list_add m new head
  | .list_add_tail new head => ListHead.list_add_tail m new head
  | .list_del entry => ListHead.list_del m entry
  | .list_del_init entry => ListHead.list_del_init m entry
  | .list_move list head => ListHead.list_move m list head
  | .list_move_tail list head => ListHead.list_move_tail m list head
  | .list_replace old new => ListHead.list_replace m old new
  | .list_replace_init old new => ListHead.list_replace_init m old new
  | .list_rotate_left head => ListHead.list_rotate_left m head
  | .list_splice_init list head => ListHead.list_splice_init m list head
  | .list_splice_tail_init list head => ListHead.list_splice_tail_init m list head

def Mem.run (m : Mem) (ops : List Op) : Mem := ops.foldl Op.exec m

/-! ## Gaps

An edit happens at a gap `u | v` of the sequence. Each kind of edit is the same
append there, and does nothing to a list without the node it names. -/

/-- The gap behind a node. -/
theorem gap_after {p h : Addr} {xs : List Addr} (hd : (h :: xs).Nodup) (hp : p ∈ h :: xs) :
    ∃ u v, xs = u ++ v ∧ lastOf h u = p ∧ ∀ ys, addAfter p ys (h, xs) = (h, u ++ ys ++ v) := by
  by_cases he : h = p
  · exact ⟨[], xs, rfl, he, fun ys => by simp [addAfter, he]⟩
  · obtain ⟨u, v, rfl⟩ := List.append_of_mem ((List.mem_cons.1 hp).resolve_left (Ne.symm he))
    refine ⟨u ++ [p], v, by simp, lastOf_concat _ _ _, fun ys => ?_⟩
    simp [addAfter, he, graft_append (List.nodup_cons.1 hd).2]

/-- The gap in front of a node. -/
theorem gap_before {p h : Addr} {xs : List Addr} (hd : (h :: xs).Nodup) (hp : p ∈ h :: xs) :
    ∃ u v, xs = u ++ v ∧ headOf v h = p ∧ ∀ ys, addBefore p ys (h, xs) = (h, u ++ ys ++ v) := by
  by_cases he : h = p
  · exact ⟨xs, [], by simp, he, fun ys => by simp [addBefore, he]⟩
  · obtain ⟨u, v, rfl⟩ := List.append_of_mem ((List.mem_cons.1 hp).resolve_left (Ne.symm he))
    refine ⟨u, p :: v, rfl, rfl, fun ys => ?_⟩
    simp [addBefore, he, graft_append (List.nodup_cons.1 hd).2]

namespace Lists

@[simp] theorem members_nil : members [] = [] := rfl
@[simp] theorem members_cons (r : Addr × List Addr) (L : Lists) :
    members (r :: L) = (r.1 :: r.2) ++ members L := rfl

theorem mem_members {L : Lists} {n : Addr} : n ∈ members L ↔ ∃ r ∈ L, n ∈ r.1 :: r.2 :=
  List.mem_flatMap

theorem members_perm {L L' : Lists} (h : L.Perm L') : (members L).Perm (members L') :=
  h.flatMap_right _

/-- An edit that leaves lists without `n` alone does nothing where `n` is on no list. -/
theorem map_eq_self {L : Lists} {n : Addr} (f : Addr × List Addr → Addr × List Addr)
    (hf : ∀ r, n ∉ r.1 :: r.2 → f r = r) (hn : n ∉ members L) : L.map f = L := by
  have e : L.map f = L.map id :=
    List.map_congr_left fun r hr => hf r fun hm => hn (mem_members.2 ⟨r, hr, hm⟩)
  rw [e, List.map_id]

end Lists

theorem addAfter_of_not_mem {p : Addr} (ys : List Addr) (r : Addr × List Addr) (h : p ∉ r.1 :: r.2) :
    addAfter p ys r = r := by
  simp only [List.mem_cons, not_or] at h
  simp [addAfter, Ne.symm h.1, graft_of_not_mem h.2]

theorem addBefore_of_not_mem {p : Addr} (ys : List Addr) (r : Addr × List Addr) (h : p ∉ r.1 :: r.2) :
    addBefore p ys r = r := by
  simp only [List.mem_cons, not_or] at h
  simp [addBefore, Ne.symm h.1, graft_of_not_mem h.2]

theorem remove_of_not_mem {n : Addr} (r : Addr × List Addr) (h : n ∉ r.1 :: r.2) : remove n r = r := by
  simp only [List.mem_cons, not_or] at h
  simp [remove, List.erase_of_not_mem h.2]

theorem subst_of_not_mem (old new : Addr) (r : Addr × List Addr) (h : old ∉ r.1 :: r.2) :
    subst old new r = r := by
  simp only [List.mem_cons, not_or] at h
  have e : r.2.map (fun x => if x = old then new else x) = r.2.map id :=
    List.map_congr_left fun x hx => if_neg (by rintro rfl; exact h.2 hx)
  simp [subst, Ne.symm h.1, e]

theorem clear_of_not_mem {h : Addr} (r : Addr × List Addr) (hr : h ∉ r.1 :: r.2) : clear h r = r := by
  simp only [List.mem_cons, not_or] at hr
  simp [clear, Ne.symm hr.1]

theorem rotate_of_not_mem {h : Addr} (r : Addr × List Addr) (hr : h ∉ r.1 :: r.2) : rotate h r = r := by
  simp only [List.mem_cons, not_or] at hr
  simp [rotate, Ne.symm hr.1]

end SiteCode.ListHead
