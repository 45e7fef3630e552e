import SiteCode.Lib.Writes
import SiteCode.ListHead.Calls
/-!
# The operations write by write

Another processor sees the memory between any two field writes of an operation. Each
function of `list.h` is spelled out as the writes of its C body, in their order.
-/

set_option linter.style.nameCheck false

namespace SiteCode.ListHead

open Lib ListHead.Lists

inductive Field where
  | next
  | prev
  deriving DecidableEq, Repr

/-- A field of a `struct list_head`, and what is written to it. -/
abbrev Write := (Field × Addr) × Addr

namespace Mem

/-- The fields as cells. -/
def cell (m : Mem) : Field × Addr → Addr
  | (.next, a) => m.next a
  | (.prev, a) => m.prev a

def write (m : Mem) (w : Write) : Mem :=
  match w.1 with
  | (.next, a) => m.setNext a w.2
  | (.prev, a) => m.setPrev a w.2

def writes (m : Mem) (ws : List Write) : Mem := ws.foldl write m

theorem cell_write (m : Mem) (w : Write) : (m.write w).cell = Function.update m.cell w.1 w.2 := by
  obtain ⟨⟨f, a⟩, v⟩ := w
  funext ⟨g, b⟩
  cases f <;> cases g <;> by_cases hb : b = a <;> simp [write, cell, hb]

theorem cell_writes (m : Mem) (ws : List Write) : (m.writes ws).cell = after m.cell ws := by
  induction ws generalizing m with
  | nil => rfl
  | cons w ws ih =>
    rw [after_cons, ← cell_write, ← ih]
    rfl

theorem writes_append (m : Mem) (ws ws' : List Write) : m.writes (ws ++ ws') = (m.writes ws).writes ws' :=
  List.foldl_append

end Mem

/-! ## The writes of each function -/

def setNext (a v : Addr) : Write := ((.next, a), v)
def setPrev (a v : Addr) : Write := ((.prev, a), v)

def INIT_LIST_HEAD.writes (list : Addr) : List Write := [setNext list list, setPrev list list]

def __list_add.writes (new prev next : Addr) : List Write :=
  [setPrev next new, setNext new next, setPrev new prev, setNext prev new]

def list_add.writes (m : Mem) (new head : Addr) : List Write := __list_add.writes new head (m.next head)

def list_add_tail.writes (m : Mem) (new head : Addr) : List Write := __list_add.writes new (m.prev head) head

def __list_del.writes (prev next : Addr) : List Write := [setPrev next prev, setNext prev next]

def __list_del_entry.writes (m : Mem) (entry : Addr) : List Write := __list_del.writes (m.prev entry) (m.next entry)

def list_del.writes (m : Mem) (entry : Addr) : List Write :=
  __list_del_entry.writes m entry ++ [setNext entry LIST_POISON1, setPrev entry LIST_POISON2]

/-- `new->next->prev` and `new->prev->next` are read after the writes before them. -/
def list_replace.writes (m : Mem) (old new : Addr) : List Write :=
  let next := m.next old
  let prev := if old = next then new else m.prev old
  [setNext new next, setPrev next new, setPrev new prev, setNext prev new]

def list_replace_init.writes (m : Mem) (old new : Addr) : List Write :=
  list_replace.writes m old new ++ INIT_LIST_HEAD.writes old

def list_del_init.writes (m : Mem) (entry : Addr) : List Write :=
  __list_del_entry.writes m entry ++ INIT_LIST_HEAD.writes entry

def list_move.writes (m : Mem) (list head : Addr) : List Write :=
  __list_del_entry.writes m list ++ list_add.writes (__list_del_entry m list) list head

def list_move_tail.writes (m : Mem) (list head : Addr) : List Write :=
  __list_del_entry.writes m list ++ list_add_tail.writes (__list_del_entry m list) list head

def list_rotate_left.writes (m : Mem) (head : Addr) : List Write :=
  if !list_empty m head then list_move_tail.writes m (m.next head) head else []

def __list_splice.writes (m : Mem) (list prev next : Addr) : List Write :=
  [setPrev (m.next list) prev, setNext prev (m.next list), setNext (m.prev list) next, setPrev next (m.prev list)]

def list_splice_init.writes (m : Mem) (list head : Addr) : List Write :=
  if !list_empty m list then __list_splice.writes m list head (m.next head) ++ INIT_LIST_HEAD.writes list else []

def list_splice_tail_init.writes (m : Mem) (list head : Addr) : List Write :=
  if !list_empty m list then __list_splice.writes m list (m.prev head) head ++ INIT_LIST_HEAD.writes list else []

def list_splice.writes (m : Mem) (list head : Addr) : List Write :=
  if !list_empty m list then __list_splice.writes m list head (m.next head) else []

def list_splice_tail.writes (m : Mem) (list head : Addr) : List Write :=
  if !list_empty m list then __list_splice.writes m list (m.prev head) head else []

def __list_cut_position.writes (m : Mem) (list head entry : Addr) : List Write :=
  let new_first := m.next entry
  [setNext list (m.next head), setPrev (m.next head) list, setPrev list entry, setNext entry list,
    setNext head new_first, setPrev new_first head]

def list_cut_position.writes (m : Mem) (list head entry : Addr) : List Write :=
  if list_empty m head then []
  else if list_is_singular m head && (m.next head != entry && head != entry) then []
  else if entry == head then INIT_LIST_HEAD.writes list
  else __list_cut_position.writes m list head entry

/-- `entry->prev` is read after two writes, which go to other fields. -/
def list_cut_before.writes (m : Mem) (list head entry : Addr) : List Write :=
  if m.next head == entry then INIT_LIST_HEAD.writes list
  else
    [setNext list (m.next head), setPrev (m.next head) list, setPrev list (m.prev entry), setNext (m.prev entry) list,
      setNext head entry, setPrev entry head]

def Op.writes (m : Mem) : Op → List Write
  | .LIST_HEAD name => INIT_LIST_HEAD.writes name
  | .INIT_LIST_HEAD list => INIT_LIST_HEAD.writes list
  | .list_add new head => list_add.writes m new head
  | .list_add_tail new head => list_add_tail.writes m new head
  | .list_del entry => list_del.writes m entry
  | .list_del_init entry => list_del_init.writes m entry
  | .list_move list head => list_move.writes m list head
  | .list_move_tail list head => list_move_tail.writes m list head
  | .list_replace old new => list_replace.writes m old new
  | .list_replace_init old new => list_replace_init.writes m old new
  | .list_rotate_left head => list_rotate_left.writes m head
  | .list_splice_init list head => list_splice_init.writes m list head
  | .list_splice_tail_init list head => list_splice_tail_init.writes m list head

theorem writes_list_replace (m : Mem) (old new : Addr) :
    m.writes (list_replace.writes m old new) = list_replace m old new := by
  unfold list_replace.writes list_replace Mem.writes
  simp [Mem.write, setNext, setPrev]

/-- The writes make the operation. -/
theorem writes_exec (m : Mem) (op : Op) : m.writes (op.writes m) = op.exec m := by
  cases op
  case list_replace old new => exact writes_list_replace m old new
  case list_replace_init old new =>
    change m.writes (list_replace_init.writes m old new) = list_replace_init m old new
    unfold list_replace_init.writes
    rw [Mem.writes_append, writes_list_replace]
    rfl
  case list_rotate_left head =>
    change m.writes (list_rotate_left.writes m head) = list_rotate_left m head
    unfold list_rotate_left.writes list_rotate_left
    split <;> rfl
  case list_splice_init list head =>
    change m.writes (list_splice_init.writes m list head) = list_splice_init m list head
    unfold list_splice_init.writes list_splice_init
    split <;> rfl
  case list_splice_tail_init list head =>
    change m.writes (list_splice_tail_init.writes m list head) = list_splice_tail_init m list head
    unfold list_splice_tail_init.writes list_splice_tail_init
    split <;> rfl
  all_goals rfl

def Call.writes (m : Mem) : Call → List Write
  | .op o => o.writes m
  | .INIT_LIST_HEAD list => INIT_LIST_HEAD.writes list
  | .list_splice list head => list_splice.writes m list head
  | .list_splice_tail list head => list_splice_tail.writes m list head
  | .list_cut_position list head entry => list_cut_position.writes m list head entry
  | .list_cut_before list head entry => list_cut_before.writes m list head entry

theorem writes_cut_position (m : Mem) (list head entry : Addr) :
    m.writes (__list_cut_position.writes m list head entry) = __list_cut_position m list head entry := by
  unfold __list_cut_position.writes __list_cut_position Mem.writes
  simp [Mem.write, setNext, setPrev]

theorem writes_call (m : Mem) (c : Call) : m.writes (c.writes m) = c.exec m := by
  cases c with
  | op o => exact writes_exec m o
  | INIT_LIST_HEAD list => rfl
  | list_splice list head =>
    change m.writes (list_splice.writes m list head) = list_splice m list head
    unfold list_splice.writes list_splice
    split <;> rfl
  | list_splice_tail list head =>
    change m.writes (list_splice_tail.writes m list head) = list_splice_tail m list head
    unfold list_splice_tail.writes list_splice_tail
    split <;> rfl
  | list_cut_position list head entry =>
    change m.writes (list_cut_position.writes m list head entry) = list_cut_position m list head entry
    unfold list_cut_position.writes list_cut_position
    split
    · rfl
    split
    · rfl
    split
    · rfl
    · exact writes_cut_position m list head entry
  | list_cut_before list head entry =>
    change m.writes (list_cut_before.writes m list head entry) = list_cut_before m list head entry
    unfold list_cut_before.writes list_cut_before
    by_cases hfirst : m.next head = entry
    · simp only [hfirst, beq_self_eq_true, if_true]
      rfl
    · simp [Mem.writes, Mem.write, setNext, setPrev, hfirst, Ne.symm hfirst]

/-- The writes of a run. -/
def runWrites (m : Mem) : List Call → List Write
  | [] => []
  | c :: cs => c.writes m ++ runWrites (c.exec m) cs

theorem writes_run (m : Mem) (cs : List Call) : m.writes (runWrites m cs) = m.calls cs := by
  induction cs generalizing m with
  | nil => rfl
  | cons c cs ih =>
    rw [runWrites, Mem.writes_append, writes_call, ih]
    rfl

theorem runWrites_append (m : Mem) (cs cs' : List Call) :
    runWrites m (cs ++ cs') = runWrites m cs ++ runWrites (m.calls cs) cs' := by
  induction cs generalizing m with
  | nil => rfl
  | cons c cs ih =>
    rw [List.cons_append, runWrites, runWrites, ih, List.append_assoc]
    rfl

end SiteCode.ListHead
