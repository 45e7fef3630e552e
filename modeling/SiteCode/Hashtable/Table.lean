import SiteCode.Hashtable.Hash
import SiteCode.Hlist.Runs
/-!
# `hashtable.h`

A table is an array of `sz` hlist heads; an index outside of it is a fault
(`none`). An object and the `hlist_node` inside it are one thing.
-/

set_option linter.style.nameCheck false

namespace SiteCode.Hashtable

open Hlist

/-- `struct hlist_head name[sz]`, and the nodes of all objects. -/
abbrev Table (sz : Nat) (O : Type) := Hlist.Mem (Fin sz) O

section

variable {sz : Nat} {O : Type} [DecidableEq O]

/-- `DEFINE_HASHTABLE(name, bits)` among objects with nodes `next`, `pprev`. -/
def DEFINE_HASHTABLE (bits : Nat) (next : O → Ptr O) (pprev : O → Slot (Fin (1 <<< bits)) O) :
    Table (1 <<< bits) O :=
  ⟨fun _ => .NULL, next, pprev⟩

def __hash_init (ht : Table sz O) : Table sz O := (List.finRange sz).foldl INIT_HLIST_HEAD ht

def hash_init (hashtable : Table sz O) : Table sz O := __hash_init hashtable

def HASH_SIZE (_ : Table sz O) : Nat := sz

def HASH_BITS (name : Table sz O) : u32 := BitVec.ofNat 32 (ilog2 (HASH_SIZE name))

/-- `&name[hash_min(key, HASH_BITS(name))]` -/
def bucket (ws : WordSize) (t : IntType) (name : Table sz O) (key : t.Val) : Option (Fin sz) := do
  let i ← hash_min ws t key (HASH_BITS name)
  if h : i.toNat < sz then some ⟨i.toNat, h⟩ else none

def hash_add (ws : WordSize) (t : IntType) (name : Table sz O) (node : O) (key : t.Val) : Option (Table sz O) := do
  let head ← bucket ws t name key
  hlist_add_head name node head

def hash_hashed (name : Table sz O) (node : O) : Bool := !hlist_unhashed name node

def hash_del (name : Table sz O) (node : O) : Option (Table sz O) := hlist_del_init name node

/-- The loop of `__hash_empty` over the indices that are left. -/
def hash_empty_from (ht : Table sz O) : List (Fin sz) → Bool
  | [] => true
  | i :: is => if !hlist_empty ht i then false else hash_empty_from ht is

def __hash_empty (ht : Table sz O) : Bool := hash_empty_from ht (List.finRange sz)

def hash_empty (name : Table sz O) : Bool := __hash_empty name

/-- The outer loop of `hash_for_each` over the buckets that are left, with the
cursor `obj` that tells a `break` of the inner loop. -/
def hash_for_each_from (body : Table sz O → O → Option (Table sz O × Bool)) (fuel : Nat) (name : Table sz O)
    (obj : Ptr O) : List (Fin sz) → Option (Table sz O × List O × Ptr O)
  | [] => some (name, [], obj)
  | bkt :: bkts =>
    if obj = .NULL then do
      let (name, seen, obj) ← hlist_for_each body fuel name bkt
      let (name, seen', obj) ← hash_for_each_from body fuel name obj bkts
      return (name, seen ++ seen', obj)
    else
      some (name, [], obj)

def hash_for_each (body : Table sz O → O → Option (Table sz O × Bool)) (fuel : Nat) (name : Table sz O) :
    Option (Table sz O × List O × Ptr O) :=
  hash_for_each_from body fuel name .NULL (List.finRange sz)

def hash_for_each_possible (ws : WordSize) (t : IntType) (body : Table sz O → O → Option (Table sz O × Bool))
    (fuel : Nat) (name : Table sz O) (key : t.Val) : Option (Table sz O × List O × Ptr O) := do
  let head ← bucket ws t name key
  hlist_for_each body fuel name head

section
variable {N : Type}

/-- The outer loop of `hash_for_each_safe` over the buckets that are left. Here an
object and its node are two things. -/
def hash_for_each_safe_from (s : Member O N) (body : Table sz N → O → Option (Table sz N × Bool)) (fuel : Nat)
    (name : Table sz N) (obj : Ptr O) : List (Fin sz) → Option (Table sz N × List O × Ptr O)
  | [] => some (name, [], obj)
  | bkt :: bkts =>
    if obj = .NULL then do
      let (name, seen, obj) ← hlist_for_each_entry_safe s body fuel name bkt
      let (name, seen', obj) ← hash_for_each_safe_from s body fuel name obj bkts
      return (name, seen ++ seen', obj)
    else
      some (name, [], obj)

def hash_for_each_safe (s : Member O N) (body : Table sz N → O → Option (Table sz N × Bool)) (fuel : Nat)
    (name : Table sz N) : Option (Table sz N × List O × Ptr O) :=
  hash_for_each_safe_from s body fuel name .NULL (List.finRange sz)

def hash_for_each_possible_safe (ws : WordSize) (t : IntType) (s : Member O N)
    (body : Table sz N → O → Option (Table sz N × Bool)) (fuel : Nat) (name : Table sz N) (key : t.Val) :
    Option (Table sz N × List O × Ptr O) := do
  let i ← hash_min ws t key (BitVec.ofNat 32 (ilog2 sz))
  if h : i.toNat < sz then hlist_for_each_entry_safe s body fuel name ⟨i.toNat, h⟩ else none

end

end

/-! ## The bucket of a key -/

variable {O : Type}

theorem hash_bits_eq {b : Nat} (hb : b ≤ 30) (name : Table (1 <<< b) O) : HASH_BITS name = BitVec.ofNat 32 b := by
  rw [HASH_BITS, HASH_SIZE, ilog2_shiftLeft (by omega)]

/-- The bucket of a key is its hash, in every state of the table. -/
theorem bucket_hash (ws : WordSize) (t : IntType) {b : Nat} (h1 : 1 ≤ b) (h2 : b ≤ 30) (key : t.Val) :
    ∃ i : Fin (1 <<< b), (∃ h, hash_min ws t key (BitVec.ofNat 32 b) = some h ∧ h.toNat = i) ∧
      ∀ name : Table (1 <<< b) O, bucket ws t name key = some i := by
  have hb := toNat_ofNat_bits h2
  obtain ⟨h, hh, hlt⟩ := hash_min_lt ws t key (BitVec.ofNat 32 b) (by omega) (by omega)
  rw [hb, ← Nat.one_shiftLeft] at hlt
  refine ⟨⟨h.toNat, hlt⟩, ⟨h, hh, rfl⟩, fun name => ?_⟩
  simp [bucket, hash_bits_eq h2 name, hh, hlt]

end SiteCode.Hashtable
