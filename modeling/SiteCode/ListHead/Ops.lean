import SiteCode.Lib.Ring
/-!
# `list.h`: doubly linked lists

The functions of `list.h` on a memory of `struct list_head`s. Each one is the
sequence of field writes of its C body, in the same order, under the C name.
`READ_ONCE` and `WRITE_ONCE` are plain accesses: there is one thread.
-/

set_option linter.style.nameCheck false

namespace SiteCode.ListHead

/-- The address of a `struct list_head`. -/
abbrev Addr := Nat

/-- `poison.h`, with `POISON_POINTER_DELTA` 0. -/
def LIST_POISON1 : Addr := 0x100
def LIST_POISON2 : Addr := 0x200

/-- The two fields of every `struct list_head`. -/
structure Mem where
  next : Addr → Addr
  prev : Addr → Addr

namespace Mem

/-- `a->next = v` -/
def setNext (m : Mem) (a v : Addr) : Mem := { m with next := fun b => if b = a then v else m.next b }

/-- `a->prev = v` -/
def setPrev (m : Mem) (a v : Addr) : Mem := { m with prev := fun b => if b = a then v else m.prev b }

@[simp] theorem setNext_next (m : Mem) (a v b : Addr) :
    (m.setNext a v).next b = if b = a then v else m.next b := rfl
@[simp] theorem setNext_prev (m : Mem) (a v : Addr) : (m.setNext a v).prev = m.prev := rfl
@[simp] theorem setPrev_prev (m : Mem) (a v b : Addr) :
    (m.setPrev a v).prev b = if b = a then v else m.prev b := rfl
@[simp] theorem setPrev_next (m : Mem) (a v : Addr) : (m.setPrev a v).next = m.next := rfl

end Mem

/-! ## Initialisation -/

/-- `LIST_HEAD(name)`: the initialiser `{ &(name), &(name) }`. -/
def LIST_HEAD (m : Mem) (name : Addr) : Mem := (m.setNext name name).setPrev name name

def INIT_LIST_HEAD (m : Mem) (list : Addr) : Mem :=
  let m := m.setNext list list
  m.setPrev list list

/-! ## Adding and deleting -/

/-- Without `CONFIG_DEBUG_LIST`. -/
def __list_add_valid (_new _prev _next : Addr) : Bool := true
def __list_del_entry_valid (_entry : Addr) : Bool := true

def __list_add (m : Mem) (new prev next : Addr) : Mem :=
  if !__list_add_valid new prev next then m
  else
    let m := m.setPrev next new
    let m := m.setNext new next
    let m := m.setPrev new prev
    m.setNext prev new

def list_add (m : Mem) (new head : Addr) : Mem := __list_add m new head (m.next head)

def list_add_tail (m : Mem) (new head : Addr) : Mem := __list_add m new (m.prev head) head

def __list_del (m : Mem) (prev next : Addr) : Mem :=
  let m := m.setPrev next prev
  m.setNext prev next

def __list_del_entry (m : Mem) (entry : Addr) : Mem :=
  if !__list_del_entry_valid entry then m
  else __list_del m (m.prev entry) (m.next entry)

def list_del (m : Mem) (entry : Addr) : Mem :=
  let m := __list_del_entry m entry
  let m := m.setNext entry LIST_POISON1
  m.setPrev entry LIST_POISON2

def list_replace (m : Mem) (old new : Addr) : Mem :=
  let m := m.setNext new (m.next old)
  let m := m.setPrev (m.next new) new
  let m := m.setPrev new (m.prev old)
  m.setNext (m.prev new) new

def list_replace_init (m : Mem) (old new : Addr) : Mem :=
  let m := list_replace m old new
  INIT_LIST_HEAD m old

def list_del_init (m : Mem) (entry : Addr) : Mem :=
  let m := __list_del_entry m entry
  INIT_LIST_HEAD m entry

def list_move (m : Mem) (list head : Addr) : Mem :=
  let m := __list_del_entry m list
  list_add m list head

def list_move_tail (m : Mem) (list head : Addr) : Mem :=
  let m := __list_del_entry m list
  list_add_tail m list head

/-! ## Tests -/

def list_is_last (m : Mem) (list head : Addr) : Bool := m.next list == head

def list_empty (m : Mem) (head : Addr) : Bool := m.next head == head

def list_empty_careful (m : Mem) (head : Addr) : Bool :=
  let next := m.next head
  next == head && next == m.prev head

def list_is_singular (m : Mem) (head : Addr) : Bool :=
  !list_empty m head && m.next head == m.prev head

/-! ## Rotating, cutting and splicing -/

def list_rotate_left (m : Mem) (head : Addr) : Mem :=
  if !list_empty m head then
    let first := m.next head
    list_move_tail m first head
  else m

def __list_cut_position (m : Mem) (list head entry : Addr) : Mem :=
  let new_first := m.next entry
  let m := m.setNext list (m.next head)
  let m := m.setPrev (m.next list) list
  let m := m.setPrev list entry
  let m := m.setNext entry list
  let m := m.setNext head new_first
  m.setPrev new_first head

def list_cut_position (m : Mem) (list head entry : Addr) : Mem :=
  if list_empty m head then m
  else if list_is_singular m head && (m.next head != entry && head != entry) then m
  else if entry == head then INIT_LIST_HEAD m list
  else __list_cut_position m list head entry

def list_cut_before (m : Mem) (list head entry : Addr) : Mem :=
  if m.next head == entry then INIT_LIST_HEAD m list
  else
    let m := m.setNext list (m.next head)
    let m := m.setPrev (m.next list) list
    let m := m.setPrev list (m.prev entry)
    let m := m.setNext (m.prev list) list
    let m := m.setNext head entry
    m.setPrev entry head

def __list_splice (m : Mem) (list prev next : Addr) : Mem :=
  let first := m.next list
  let last := m.prev list
  let m := m.setPrev first prev
  let m := m.setNext prev first
  let m := m.setNext last next
  m.setPrev next last

def list_splice (m : Mem) (list head : Addr) : Mem :=
  if !list_empty m list then __list_splice m list head (m.next head) else m

def list_splice_tail (m : Mem) (list head : Addr) : Mem :=
  if !list_empty m list then __list_splice m list (m.prev head) head else m

def list_splice_init (m : Mem) (list head : Addr) : Mem :=
  if !list_empty m list then
    let m := __list_splice m list head (m.next head)
    INIT_LIST_HEAD m list
  else m

def list_splice_tail_init (m : Mem) (list head : Addr) : Mem :=
  if !list_empty m list then
    let m := __list_splice m list (m.prev head) head
    INIT_LIST_HEAD m list
  else m

/-! ## Traversal -/

/-- `list_for_each(pos, head)`: the positions visited, `none` if the loop is
not over after `fuel` tests. -/
def list_for_each (m : Mem) (head : Addr) (fuel : Nat) : Option (List Addr) :=
  Lib.walk m.next head fuel (m.next head)

/-- `list_for_each_prev(pos, head)`. -/
def list_for_each_prev (m : Mem) (head : Addr) (fuel : Nat) : Option (List Addr) :=
  Lib.walk m.prev head fuel (m.prev head)

/-! ## Safe traversal -/

/-- The loop `for (..; pos != head; pos = n, n = link(pos)) body`: the memory it
leaves and the positions visited, `none` if it is not over after `fuel` tests. -/
def for_each_safe (link : Mem → Addr → Addr) (body : Mem → Addr → Mem) (head : Addr) :
    (fuel : Nat) → Mem → (pos n : Addr) → Option (Mem × List Addr)
  | 0, _, _, _ => none
  | fuel + 1, m, pos, n =>
    if pos == head then some (m, [])
    else
      let m := body m pos
      (for_each_safe link body head fuel m n (link m n)).map fun r => (r.1, pos :: r.2)

def list_for_each_safe (body : Mem → Addr → Mem) (fuel : Nat) (m : Mem) (head : Addr) : Option (Mem × List Addr) :=
  let pos := m.next head
  for_each_safe Mem.next body head fuel m pos (m.next pos)

def list_for_each_prev_safe (body : Mem → Addr → Mem) (fuel : Nat) (m : Mem) (head : Addr) : Option (Mem × List Addr) :=
  let pos := m.prev head
  for_each_safe Mem.prev body head fuel m pos (m.prev pos)

/-! ### Entries

A pointer to a struct is a number that may fall below every address: the head of a
list is in no struct, and the loops compute `list_entry` of it all the same. -/

/-- `list_entry(ptr, type, member)`, with the offset of the member. -/
def list_entry (offset : Nat) (ptr : Addr) : Int := ptr - offset

/-- `&pos->member` -/
def member (offset : Nat) (pos : Int) : Addr := (pos + offset).toNat

def list_first_entry (offset : Nat) (m : Mem) (ptr : Addr) : Int := list_entry offset (m.next ptr)

def list_last_entry (offset : Nat) (m : Mem) (ptr : Addr) : Int := list_entry offset (m.prev ptr)

def list_next_entry (offset : Nat) (m : Mem) (pos : Int) : Int := list_entry offset (m.next (member offset pos))

def list_prev_entry (offset : Nat) (m : Mem) (pos : Int) : Int := list_entry offset (m.prev (member offset pos))

/-- NULL is `none`. -/
def list_first_entry_or_null (offset : Nat) (m : Mem) (ptr : Addr) : Option Int :=
  let pos := m.next ptr
  if pos != ptr then some (list_entry offset pos) else none

def list_prepare_entry (offset : Nat) (pos : Option Int) (head : Addr) : Int := pos.getD (list_entry offset head)

/-- The loop `for (..; &pos->member != head; pos = link(pos))`: the entries visited. -/
def for_each_entry (offset : Nat) (link : Int → Int) (head : Addr) : (fuel : Nat) → (pos : Int) → Option (List Int)
  | 0, _ => none
  | fuel + 1, pos =>
    if member offset pos == head then some []
    else (for_each_entry offset link head fuel (link pos)).map (pos :: ·)

def list_for_each_entry (offset : Nat) (m : Mem) (head : Addr) (fuel : Nat) : Option (List Int) :=
  for_each_entry offset (list_next_entry offset m) head fuel (list_first_entry offset m head)

def list_for_each_entry_reverse (offset : Nat) (m : Mem) (head : Addr) (fuel : Nat) : Option (List Int) :=
  for_each_entry offset (list_prev_entry offset m) head fuel (list_last_entry offset m head)

def list_for_each_entry_continue (offset : Nat) (m : Mem) (pos : Int) (head : Addr) (fuel : Nat) : Option (List Int) :=
  for_each_entry offset (list_next_entry offset m) head fuel (list_next_entry offset m pos)

def list_for_each_entry_continue_reverse (offset : Nat) (m : Mem) (pos : Int) (head : Addr) (fuel : Nat) :
    Option (List Int) :=
  for_each_entry offset (list_prev_entry offset m) head fuel (list_prev_entry offset m pos)

def list_for_each_entry_from (offset : Nat) (m : Mem) (pos : Int) (head : Addr) (fuel : Nat) : Option (List Int) :=
  for_each_entry offset (list_next_entry offset m) head fuel pos

def list_for_each_entry_from_reverse (offset : Nat) (m : Mem) (pos : Int) (head : Addr) (fuel : Nat) :
    Option (List Int) :=
  for_each_entry offset (list_prev_entry offset m) head fuel pos

/-- The loop `for (..; &pos->member != head; pos = n, n = link(n)) body`. -/
def for_each_entry_safe (offset : Nat) (link : Mem → Int → Int) (body : Mem → Int → Mem) (head : Addr) :
    (fuel : Nat) → Mem → (pos n : Int) → Option (Mem × List Int)
  | 0, _, _, _ => none
  | fuel + 1, m, pos, n =>
    if member offset pos == head then some (m, [])
    else
      let m := body m pos
      (for_each_entry_safe offset link body head fuel m n (link m n)).map fun r => (r.1, pos :: r.2)

def list_for_each_entry_safe (offset : Nat) (body : Mem → Int → Mem) (fuel : Nat) (m : Mem) (head : Addr) :
    Option (Mem × List Int) :=
  let pos := list_first_entry offset m head
  for_each_entry_safe offset (list_next_entry offset) body head fuel m pos (list_next_entry offset m pos)

def list_for_each_entry_safe_reverse (offset : Nat) (body : Mem → Int → Mem) (fuel : Nat) (m : Mem) (head : Addr) :
    Option (Mem × List Int) :=
  let pos := list_last_entry offset m head
  for_each_entry_safe offset (list_prev_entry offset) body head fuel m pos (list_prev_entry offset m pos)

def list_for_each_entry_safe_continue (offset : Nat) (body : Mem → Int → Mem) (fuel : Nat) (m : Mem) (pos : Int)
    (head : Addr) : Option (Mem × List Int) :=
  let pos := list_next_entry offset m pos
  for_each_entry_safe offset (list_next_entry offset) body head fuel m pos (list_next_entry offset m pos)

def list_for_each_entry_safe_from (offset : Nat) (body : Mem → Int → Mem) (fuel : Nat) (m : Mem) (pos : Int)
    (head : Addr) : Option (Mem × List Int) :=
  for_each_entry_safe offset (list_next_entry offset) body head fuel m pos (list_next_entry offset m pos)

/-- `list_safe_reset_next(pos, n, member)`: the new `n`. -/
def list_safe_reset_next (offset : Nat) (m : Mem) (pos : Int) : Int := list_next_entry offset m pos

/-- The loop of `list_for_each_entry_safe` with a body that ends in `list_safe_reset_next`. -/
def for_each_entry_reset (offset : Nat) (body : Mem → Int → Mem) (head : Addr) :
    (fuel : Nat) → Mem → (pos n : Int) → Option (Mem × List Int)
  | 0, _, _, _ => none
  | fuel + 1, m, pos, _ =>
    if member offset pos == head then some (m, [])
    else
      let m := body m pos
      let n := list_safe_reset_next offset m pos
      (for_each_entry_reset offset body head fuel m n (list_next_entry offset m n)).map fun r => (r.1, pos :: r.2)

def list_for_each_entry_reset (offset : Nat) (body : Mem → Int → Mem) (fuel : Nat) (m : Mem) (head : Addr) :
    Option (Mem × List Int) :=
  let pos := list_first_entry offset m head
  for_each_entry_reset offset body head fuel m pos (list_next_entry offset m pos)

@[simp] theorem member_list_entry (offset : Nat) (ptr : Addr) : member offset (list_entry offset ptr) = ptr := by
  simp [member, list_entry]

end SiteCode.ListHead
