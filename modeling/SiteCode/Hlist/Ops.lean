import SiteCode.Lib.Chain
/-!
# `list.h`: lists with a single pointer head

The `hlist` functions of `list.h`, as the field writes of their C bodies in
order. A `pprev` field holds the address of a link field, which lives in a head
or in another node; writing through NULL or a poison value is a fault (`none`).
Heads and nodes are arbitrary types: an address is an element.
-/

set_option linter.style.nameCheck false

namespace SiteCode.Hlist

/-- `struct hlist_node *` -/
inductive Ptr (N : Type) where
  | NULL
  | LIST_POISON1
  | node (n : N)
  deriving DecidableEq, Repr

/-- `struct hlist_node **`: `&h->first`, `&n->next`, or no address of a link. -/
inductive Slot (H N : Type) where
  | NULL
  | LIST_POISON2
  | first (h : H)
  | next (n : N)
  deriving DecidableEq, Repr

/-- The fields of every `struct hlist_head` and `struct hlist_node`. -/
structure Mem (H N : Type) where
  first : H → Ptr N
  next : N → Ptr N
  pprev : N → Slot H N

variable {H N : Type}

namespace Mem

/-- `*s` -/
def load (m : Mem H N) : Slot H N → Option (Ptr N)
  | .first h => some (m.first h)
  | .next n => some (m.next n)
  | .NULL | .LIST_POISON2 => none

section
variable [DecidableEq H]

/-- `h->first = p` -/
def setFirst (m : Mem H N) (h : H) (p : Ptr N) : Mem H N :=
  { m with first := fun k => if k = h then p else m.first k }

@[simp] theorem first_setFirst (m : Mem H N) (h k : H) (p : Ptr N) :
    (m.setFirst h p).first k = if k = h then p else m.first k := rfl
@[simp] theorem next_setFirst (m : Mem H N) (h : H) (p : Ptr N) : (m.setFirst h p).next = m.next := rfl
@[simp] theorem pprev_setFirst (m : Mem H N) (h : H) (p : Ptr N) : (m.setFirst h p).pprev = m.pprev := rfl

end

section
variable [DecidableEq N]

/-- `n->next = p` -/
def setNext (m : Mem H N) (n : N) (p : Ptr N) : Mem H N :=
  { m with next := fun k => if k = n then p else m.next k }

/-- `n->pprev = s` -/
def setPprev (m : Mem H N) (n : N) (s : Slot H N) : Mem H N :=
  { m with pprev := fun k => if k = n then s else m.pprev k }

@[simp] theorem load_setPprev (m : Mem H N) (n : N) (s t : Slot H N) : (m.setPprev n s).load t = m.load t := by
  cases t <;> rfl

@[simp] theorem next_setNext (m : Mem H N) (n k : N) (p : Ptr N) :
    (m.setNext n p).next k = if k = n then p else m.next k := rfl
@[simp] theorem next_setPprev (m : Mem H N) (n : N) (s : Slot H N) : (m.setPprev n s).next = m.next := rfl
@[simp] theorem pprev_setNext (m : Mem H N) (n : N) (p : Ptr N) : (m.setNext n p).pprev = m.pprev := rfl
@[simp] theorem pprev_setPprev (m : Mem H N) (n k : N) (s : Slot H N) :
    (m.setPprev n s).pprev k = if k = n then s else m.pprev k := rfl

end

variable [DecidableEq H] [DecidableEq N]

/-- `*s = p` -/
def store (m : Mem H N) (s : Slot H N) (p : Ptr N) : Option (Mem H N) :=
  match s with
  | .first h => some (m.setFirst h p)
  | .next n => some (m.setNext n p)
  | .NULL | .LIST_POISON2 => none

/-- `if (p) p->pprev = s` -/
def fixPprev (m : Mem H N) (p : Ptr N) (s : Slot H N) : Option (Mem H N) :=
  match p with
  | .NULL => some m
  | .node n => some (m.setPprev n s)
  | .LIST_POISON1 => none

@[simp] theorem load_setFirst (m : Mem H N) (h : H) (p : Ptr N) (s : Slot H N) :
    (m.setFirst h p).load s = if s = .first h then some p else m.load s := by
  cases s <;> simp only [load, setFirst, Slot.first.injEq, reduceCtorEq, if_false]
  split <;> rfl

@[simp] theorem load_setNext (m : Mem H N) (n : N) (p : Ptr N) (s : Slot H N) :
    (m.setNext n p).load s = if s = .next n then some p else m.load s := by
  cases s <;> simp only [load, setNext, Slot.next.injEq, reduceCtorEq, if_false]
  split <;> rfl

/-- A store goes to the addressed link and nowhere else. -/
theorem store_spec (m : Mem H N) {s : Slot H N} (hs : (m.load s).isSome) (q : Ptr N) :
    ∃ m', m.store s q = some m' ∧ m'.pprev = m.pprev ∧ ∀ t, m'.load t = if t = s then some q else m.load t := by
  cases s with
  | first h => exact ⟨_, rfl, rfl, fun t => by simp⟩
  | next n => exact ⟨_, rfl, rfl, fun t => by simp⟩
  | NULL | LIST_POISON2 => cases hs

end Mem

variable [DecidableEq H] [DecidableEq N]

/-! ## Initialisation and tests -/

def INIT_HLIST_HEAD (m : Mem H N) (h : H) : Mem H N := m.setFirst h .NULL

def INIT_HLIST_NODE (m : Mem H N) (h : N) : Mem H N :=
  let m := m.setNext h .NULL
  m.setPprev h .NULL

def hlist_unhashed (m : Mem H N) (h : N) : Bool := m.pprev h = .NULL

def hlist_empty (m : Mem H N) (h : H) : Bool := m.first h = .NULL

def hlist_is_singular_node (m : Mem H N) (n : N) (h : H) : Bool :=
  m.next n = .NULL ∧ m.pprev n = .first h

/-! ## Deleting -/

def __hlist_del (m : Mem H N) (n : N) : Option (Mem H N) := do
  let next := m.next n
  let pprev := m.pprev n
  let m ← m.store pprev next
  m.fixPprev next pprev

def hlist_del (m : Mem H N) (n : N) : Option (Mem H N) := do
  let m ← __hlist_del m n
  let m := m.setNext n .LIST_POISON1
  return m.setPprev n .LIST_POISON2

def hlist_del_init (m : Mem H N) (n : N) : Option (Mem H N) := do
  if !hlist_unhashed m n then
    let m ← __hlist_del m n
    return INIT_HLIST_NODE m n
  else
    return m

/-! ## Adding -/

def hlist_add_head (m : Mem H N) (n : N) (h : H) : Option (Mem H N) := do
  let first := m.first h
  let m := m.setNext n first
  let m ← m.fixPprev first (.next n)
  let m := m.setFirst h (.node n)
  return m.setPprev n (.first h)

def hlist_add_before (m : Mem H N) (n next : N) : Option (Mem H N) := do
  let m := m.setPprev n (m.pprev next)
  let m := m.setNext n (.node next)
  let m := m.setPprev next (.next n)
  m.store (m.pprev n) (.node n)

def hlist_add_behind (m : Mem H N) (n prev : N) : Option (Mem H N) := do
  let m := m.setNext n (m.next prev)
  let m := m.setNext prev (.node n)
  let m := m.setPprev n (.next prev)
  m.fixPprev (m.next n) (.next n)

/-! ## A node that seems to be on a list -/

def hlist_add_fake (m : Mem H N) (n : N) : Mem H N := m.setPprev n (.next n)

def hlist_fake (m : Mem H N) (h : N) : Bool := m.pprev h = .next h

/-! ## Moving a whole list -/

def hlist_move_list (m : Mem H N) (old new : H) : Option (Mem H N) := do
  let m := m.setFirst new (m.first old)
  let m ← m.fixPprev (m.first new) (.first new)
  return m.setFirst old .NULL

/-! ## Traversal -/

/-- The loop `for (; pos; pos = pos->next) body` from the position `pos`. The
body may change memory and may `break`. The result is the memory, the nodes
visited in order and the final `pos`; `none` is a fault, or a loop that is not
over after `fuel` tests. -/
def hlist_for_each_from (body : Mem H N → N → Option (Mem H N × Bool)) :
    (fuel : Nat) → Mem H N → Ptr N → Option (Mem H N × List N × Ptr N)
  | 0, _, _ => none
  | fuel + 1, m, pos =>
    match pos with
    | .NULL => some (m, [], .NULL)
    | .LIST_POISON1 => none
    | .node n => do
      let (m, brk) ← body m n
      if brk then
        return (m, [n], .node n)
      let (m, visited, pos) ← hlist_for_each_from body fuel m (m.next n)
      return (m, n :: visited, pos)

/-- `hlist_for_each(pos, head) body`, and `hlist_for_each_entry` as well: an
entry and its node are one object. -/
def hlist_for_each (body : Mem H N → N → Option (Mem H N × Bool)) (fuel : Nat) (m : Mem H N) (head : H) :
    Option (Mem H N × List N × Ptr N) :=
  hlist_for_each_from body fuel m (m.first head)

/-- A struct type with an `hlist_node` member: the node inside an object, and the
object around a node. -/
structure Member (O N : Type) where
  /-- `&obj->member` -/
  node : O → N
  /-- `container_of(ptr, type, member)` -/
  container_of : N → O
  container_of_node : ∀ o, container_of (node o) = o

/-- `hlist_entry_safe(ptr, type, member)`: NULL stays NULL. -/
def hlist_entry_safe {O : Type} (s : Member O N) : Ptr N → Ptr O
  | .NULL => .NULL
  | .LIST_POISON1 => .LIST_POISON1
  | .node ptr => .node (s.container_of ptr)

/-- The loop of `hlist_for_each_entry_safe` from the position `pos`: the successor
`n` is read before the body and turned into the next position after it. -/
def hlist_for_each_entry_safe_from {O : Type} (s : Member O N) (body : Mem H N → O → Option (Mem H N × Bool)) :
    (fuel : Nat) → Mem H N → Ptr O → Option (Mem H N × List O × Ptr O)
  | 0, _, _ => none
  | fuel + 1, m, pos =>
    match pos with
    | .NULL => some (m, [], .NULL)
    | .LIST_POISON1 => none
    | .node o => do
      let n := m.next (s.node o)
      let (m, brk) ← body m o
      if brk then
        return (m, [o], .node o)
      let (m, visited, pos) ← hlist_for_each_entry_safe_from s body fuel m (hlist_entry_safe s n)
      return (m, o :: visited, pos)

/-- `hlist_for_each_entry_safe(pos, n, head, member) body` -/
def hlist_for_each_entry_safe {O : Type} (s : Member O N) (body : Mem H N → O → Option (Mem H N × Bool)) (fuel : Nat)
    (m : Mem H N) (head : H) : Option (Mem H N × List O × Ptr O) :=
  hlist_for_each_entry_safe_from s body fuel m (hlist_entry_safe s (m.first head))

/-- The node of a pointer to it. -/
def Member.self : Member N N := ⟨id, id, fun _ => rfl⟩

/-- `hlist_for_each_safe(pos, n, head) body` -/
def hlist_for_each_safe (body : Mem H N → N → Option (Mem H N × Bool)) (fuel : Nat) (m : Mem H N) (head : H) :
    Option (Mem H N × List N × Ptr N) :=
  hlist_for_each_entry_safe_from Member.self body fuel m (m.first head)

/-- The loop `for (; pos; pos = hlist_entry_safe(pos->member.next)) body`. -/
def for_each_entry {O : Type} (s : Member O N) (body : Mem H N → O → Option (Mem H N × Bool)) :
    (fuel : Nat) → Mem H N → Ptr O → Option (Mem H N × List O × Ptr O)
  | 0, _, _ => none
  | fuel + 1, m, pos =>
    match pos with
    | .NULL => some (m, [], .NULL)
    | .LIST_POISON1 => none
    | .node o => do
      let (m, brk) ← body m o
      if brk then
        return (m, [o], .node o)
      let (m, visited, pos) ← for_each_entry s body fuel m (hlist_entry_safe s (m.next (s.node o)))
      return (m, o :: visited, pos)

def hlist_for_each_entry {O : Type} (s : Member O N) (body : Mem H N → O → Option (Mem H N × Bool)) (fuel : Nat)
    (m : Mem H N) (head : H) : Option (Mem H N × List O × Ptr O) :=
  for_each_entry s body fuel m (hlist_entry_safe s (m.first head))

def hlist_for_each_entry_continue {O : Type} (s : Member O N) (body : Mem H N → O → Option (Mem H N × Bool))
    (fuel : Nat) (m : Mem H N) (pos : O) : Option (Mem H N × List O × Ptr O) :=
  for_each_entry s body fuel m (hlist_entry_safe s (m.next (s.node pos)))

def hlist_for_each_entry_from {O : Type} (s : Member O N) (body : Mem H N → O → Option (Mem H N × Bool)) (fuel : Nat)
    (m : Mem H N) (pos : Ptr O) : Option (Mem H N × List O × Ptr O) :=
  for_each_entry s body fuel m pos

/-- A body that only looks. -/
def look (m : Mem H N) (_ : N) : Option (Mem H N × Bool) := some (m, false)

end SiteCode.Hlist
