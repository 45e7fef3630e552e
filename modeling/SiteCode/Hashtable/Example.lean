import SiteCode.Hashtable.Delete
/-!
# `hashtable_example.c`

The functions of the example program, each for any number of buckets and any objects in
place of its own few, with the text that it prints.
-/

namespace SiteCode.Hashtable

open Hlist

/-- `struct object`, without its node. -/
structure object where
  id : IntType.int.Val
  name : String
  deriving DecidableEq, Repr

namespace Example

variable {O : Type}

section
variable [DecidableEq O] {sz : Nat} (fuel : Nat) (objs : O → object)

/-- `printf("bucket[%d]=> %s\n", bkt, cur->name);` -/
def bucket_line (bkt : Fin sz) (cur : O) : String := "bucket[" ++ toString bkt.val ++ "]=> " ++ (objs cur).name ++ "\n"

/-- The loop `hash_for_each` that prints, over the buckets that are left. -/
def print_from (htable : Table sz O) (cur : Ptr O) : List (Fin sz) → Option (List String)
  | [] => some []
  | bkt :: bkts =>
    if cur = .NULL then do
      let (htable, seen, cur) ← hlist_for_each look fuel htable bkt
      let rest ← print_from htable cur bkts
      return seen.map (bucket_line objs bkt) ++ rest
    else
      some []

def print_all (htable : Table sz O) : Option (List String) := print_from fuel objs htable .NULL (List.finRange sz)

/-- `printf("key=%d => %s\n", key, obj->name);` -/
def key_line (key : IntType.int.Val) (obj : O) : String :=
  "key=" ++ toString key.toInt ++ " => " ++ (objs obj).name ++ "\n"

/-- The lookup of `hashtable_example`: what is printed where `obj->id == key`. -/
def find (ws : WordSize) (htable : Table sz O) (key : IntType.int.Val) : Option (List String) := do
  let (_, seen, _) ← hash_for_each_possible ws .int look fuel htable key
  return (seen.filter fun obj => (objs obj).id = key).map (key_line objs key)

/-- The text for one bucket. -/
def show_bucket (i : Fin sz) (seen : List O) : List String :=
  ["bucket[" ++ toString i.val ++ "]=> "] ++ seen.map (fun obj => (objs obj).name ++ ", ") ++ ["\n"]

/-- The loop of `hashtable_show_buckets` over the indices that are left. -/
def show_from (htable : Table sz O) : List (Fin sz) → Option (List String)
  | [] => some []
  | i :: is =>
    if !hlist_empty htable i then do
      let (htable, seen, _) ← hlist_for_each look fuel htable i
      let rest ← show_from htable is
      return show_bucket objs i seen ++ rest
    else
      show_from htable is

/-- `hash_add(htable, &obj.node, obj.id);` for one object after the other. -/
def hash_add_each (ws : WordSize) (htable : Table sz O) : List O → Option (Table sz O)
  | [] => some htable
  | obj :: rest => do
    let htable ← hash_add ws .int htable obj (objs obj).id
    hash_add_each ws htable rest

end

section
variable [DecidableEq O] (ws : WordSize) (bits fuel : Nat) (objs : O → object) (os : List O)

/-- `printf("hash_min(%d)=%d\n", i, hash_min(i, bits));` -/
def hash_line (i hash : Nat) : String := "hash_min(" ++ toString i ++ ")=" ++ toString hash ++ "\n"

/-- The loop of `print_hash_values` over the numbers that are left. -/
def hash_values_from : List Nat → Option (List String)
  | [] => some []
  | i :: is => do
    let hash ← hash_min ws .int (BitVec.ofNat _ i) (BitVec.ofNat 32 bits)
    let rest ← hash_values_from is
    return hash_line i hash.toNat :: rest

def print_hash_values : Option (List String) := hash_values_from ws bits (List.range (1 <<< bits))

/-- The objects are initialised, which sets the links of their nodes to NULL, and added. -/
def define (os : List O) : Option (Table (1 <<< bits) O) :=
  hash_add_each objs ws (DEFINE_HASHTABLE bits (fun _ => .NULL) fun _ => .NULL) os

def hashtable_example (key : IntType.int.Val) : Option (List String) := do
  let htable ← define ws bits objs os
  let found ← find fuel objs ws htable key
  let rest ← print_all fuel objs htable
  return found ++ rest

def hash_del_example (key : IntType.int.Val) : Option (List String) := do
  let htable ← define ws bits objs os
  let (htable, _) ← Hashtable.hash_del_example ws (fun obj => (objs obj).id) fuel htable key
  print_all fuel objs htable

def hashtable_show_buckets : Option (List String) := do
  let htable ← define ws bits objs os
  show_from fuel objs htable (List.finRange (HASH_SIZE htable))

def hash_add_same_key_example : Option (List String) := do
  let htable ← define ws bits objs os
  print_all fuel objs htable

end

/-! ## What is printed of a table -/

section
variable {ws : WordSize} {sz fuel : Nat} {objs : O → object} {bkt : IntType.int.Val → Fin sz}
  {home : O → Fin sz} {m : Table sz O} {S os : List O}

/-- Bucket by bucket, the objects of each in the order of `S`. -/
def lines (objs : O → object) (home : O → Fin sz) (S : List O) : List String :=
  (List.finRange sz).flatMap fun i => (S.filter fun o => home o = i).map (bucket_line objs i)

/-- Objects in one bucket. -/
theorem lines_of_one {i : Fin sz} (h : ∀ o ∈ S, home o = i) : lines objs home S = S.map (bucket_line objs i) := by
  obtain ⟨u, v, huv⟩ := List.append_of_mem (List.mem_finRange i)
  have hnd := huv ▸ List.nodup_finRange sz
  have hiu : i ∉ u := fun hm => (List.nodup_append.1 hnd).2.2 i hm i List.mem_cons_self rfl
  have hiv : i ∉ v := (List.nodup_cons.1 (List.nodup_append.1 hnd).2.1).1
  have hall : S.filter (fun o => home o = i) = S := List.filter_eq_self.2 fun o ho => by simpa using h o ho
  have hnone : ∀ is : List (Fin sz), i ∉ is →
      is.flatMap (fun j => (S.filter fun o => home o = j).map (bucket_line objs j)) = [] := by
    intro is hi
    refine List.flatMap_eq_nil_iff.2 fun j hj => ?_
    rw [List.map_eq_nil_iff, List.filter_eq_nil_iff]
    intro o ho hc
    exact hi ((h o ho).symm.trans (of_decide_eq_true hc) ▸ hj)
  rw [lines, huv, List.flatMap_append, List.flatMap_cons, hnone u hiu, hnone v hiv, hall, List.nil_append,
    List.append_nil]

theorem find_eq (hb : ∀ (name : Table sz O) key, bucket ws .int name key = some (bkt key))
    (hS : Stores (fun o => bkt (objs o).id) m S) (hf : S.length < fuel) (key : IntType.int.Val) :
    find fuel objs ws m key = some ((S.filter fun o => (objs o).id = key).map (key_line objs key)) := by
  have hfilter : (chains (fun o => bkt (objs o).id) S (bkt key)).filter (fun o => (objs o).id = key) =
      S.filter fun o => (objs o).id = key := by
    rw [chains, List.filter_filter]
    apply List.filter_congr
    intro o _
    by_cases hk : (objs o).id = key
    · simp [hk]
    · simp [hk]
  have hloop : hash_for_each_possible ws .int look fuel m key =
      some (m, chains (fun o => bkt (objs o).id) S (bkt key), .NULL) := by
    rw [hash_for_each_possible, hb]
    exact hS.for_each_bucket hf _
  rw [find, hloop, ← hfilter]
  rfl

variable [DecidableEq O]

theorem print_from_eq (hS : Stores home m S) (hf : S.length < fuel) (is : List (Fin sz)) :
    print_from fuel objs m .NULL is = some (is.flatMap fun i => (chains home S i).map (bucket_line objs i)) := by
  induction is with
  | nil => rfl
  | cons i is ih => simp [print_from, hS.for_each_bucket hf, ih]

theorem print_all_eq (hS : Stores home m S) (hf : S.length < fuel) :
    print_all fuel objs m = some (lines objs home S) := print_from_eq hS hf _

/-- A bucket without objects is not shown. -/
theorem show_from_eq (hS : Stores home m S) (hf : S.length < fuel) (is : List (Fin sz)) :
    show_from fuel objs m is =
      some ((is.filter fun i => chains home S i ≠ []).flatMap fun i => show_bucket objs i (chains home S i)) := by
  induction is with
  | nil => rfl
  | cons i is ih =>
    rw [show_from]
    by_cases h : chains home S i = []
    · simp [(hlist_empty_iff hS.agrees i).2 h, h, ih]
    · simp [Bool.eq_false_iff.2 (h ∘ (hlist_empty_iff hS.agrees i).1), h, hS.for_each_bucket hf, ih]

theorem hash_values_from_eq {bits : Nat}
    (hhash : ∀ v, ∃ h, hash_min ws .int v (BitVec.ofNat 32 bits) = some h ∧ h.toNat = bkt v) (is : List Nat) :
    hash_values_from ws bits is = some (is.map fun i => hash_line i (bkt (BitVec.ofNat _ i))) := by
  induction is with
  | nil => rfl
  | cons i is ih =>
    obtain ⟨h, hh, he⟩ := hhash (BitVec.ofNat _ i)
    simp [hash_values_from, hh, he, ih]

theorem stores_add_each (hb : ∀ (name : Table sz O) key, bucket ws .int name key = some (bkt key))
    (hS : Stores (fun o => bkt (objs o).id) m S) (hos : (os.reverse ++ S).Nodup) :
    ∃ m', hash_add_each objs ws m os = some m' ∧ Stores (fun o => bkt (objs o).id) m' (os.reverse ++ S) := by
  induction os generalizing m S with
  | nil => exact ⟨m, rfl, hS⟩
  | cons o os ih =>
    rw [List.reverse_cons, List.append_assoc] at hos ⊢
    have ho : o ∉ S := (List.nodup_cons.1 (List.nodup_append.1 hos).2.1).1
    obtain ⟨m₁, h1, hS₁⟩ := hS.add ho
    obtain ⟨m', h2, hS'⟩ := ih hS₁ hos
    exact ⟨m', by simp [hash_add_each, hash_add, hb, h1, h2], hS'⟩

end

variable [DecidableEq O]

/-- With any number of buckets and any different objects: the lookup prints the
objects with the key, the last added first; the full loop prints all objects, bucket
by bucket and in each the last added first; find and delete takes the last added
object with the key out of that; objects with one key are printed in one bucket; and
the buckets are shown unless they are empty. -/
theorem hashtable_examples_print (ws : WordSize) (bits : Nat) (h1 : 1 ≤ bits) (h2 : bits ≤ 30) (objs : O → object)
    (os : List O) (hos : os.Nodup) :
    ∃ bkt : IntType.int.Val → Fin (1 <<< bits),
      (∀ v, ∃ h, hash_min ws .int v (BitVec.ofNat 32 bits) = some h ∧ h.toNat = bkt v) ∧
      print_hash_values ws bits = some ((List.range (1 <<< bits)).map fun i => hash_line i (bkt (BitVec.ofNat _ i))) ∧
      ∀ fuel, os.length < fuel →
        let S := os.reverse
        let home := fun o => bkt (objs o).id
        (∀ key, hashtable_example ws bits fuel objs os key =
            some ((S.filter fun o => (objs o).id = key).map (key_line objs key) ++ lines objs home S)) ∧
        (∀ key, hash_del_example ws bits fuel objs os key =
            some (lines objs home (S.eraseP fun o => (objs o).id = key))) ∧
        (∀ o ∈ S, (∀ o' ∈ S, (objs o').id = (objs o).id) →
            hash_add_same_key_example ws bits fuel objs os = some (S.map (bucket_line objs (home o)))) ∧
        hashtable_show_buckets ws bits fuel objs os =
          some (((List.finRange (1 <<< bits)).filter fun i => S.filter (fun o => home o = i) ≠ []).flatMap fun i =>
            show_bucket objs i (S.filter fun o => home o = i)) := by
  choose bkt hhash hb using fun key => bucket_hash (O := O) ws .int h1 h2 key
  have hb' : ∀ (name : Table (1 <<< bits) O) key, bucket ws .int name key = some (bkt key) :=
    fun name key => hb key name
  refine ⟨bkt, hhash, hash_values_from_eq hhash _, fun fuel hf => ?_⟩
  intro S home
  have hempty : Stores home (DEFINE_HASHTABLE bits (fun _ => .NULL) fun _ => .NULL) [] :=
    stores_empty (fun _ => rfl) fun _ => rfl
  obtain ⟨m, hm, hS⟩ := stores_add_each hb' hempty (by simpa using hos : (os.reverse ++ []).Nodup)
  rw [List.append_nil] at hS
  have hdef : define ws bits objs os = some m := hm
  have hlen : S.length < fuel := by simpa [S] using hf
  refine ⟨fun key => ?_, fun key => ?_, fun o ho hsame => ?_, ?_⟩
  · rw [hashtable_example, hdef, Option.bind_eq_bind, Option.bind_some, find_eq hb' hS hlen, print_all_eq hS hlen]
    rfl
  · obtain ⟨m', visited, hdel, hS'⟩ := hS.del_first (hb key m) (fun o _ hk => congrArg bkt hk) hlen
    have hlen' : (S.eraseP fun o => (objs o).id = key).length < fuel := List.eraseP_sublist.length_le.trans_lt hlen
    rw [hash_del_example, hdef, Option.bind_eq_bind, Option.bind_some, hdel]
    exact print_all_eq hS' hlen'
  · have hone : ∀ o' ∈ S, home o' = home o := fun o' ho' => congrArg bkt (hsame o' ho')
    rw [hash_add_same_key_example, hdef, Option.bind_eq_bind, Option.bind_some, print_all_eq hS hlen,
      lines_of_one hone]
  · rw [hashtable_show_buckets, hdef, Option.bind_eq_bind, Option.bind_some]
    exact show_from_eq hS hlen _

/-- The objects of the program, the second one with the key of the first. -/
theorem hashtable_examples_print_two :
    let objs : Fin 4 → object := fun o => ⟨[1, 1, 3, 9].getD o 0, ["obj1", "obj2", "obj3", "obj9"].getD o ""⟩
    ∃ bkt : IntType.int.Val → Fin (1 <<< 3),
      hash_del_example .w64 3 5 objs [0, 1, 2, 3] 1 = some (lines objs (fun o => bkt (objs o).id) [3, 2, 0]) := by
  intro objs
  obtain ⟨bkt, -, -, h⟩ := hashtable_examples_print .w64 3 (by decide) (by decide) objs [0, 1, 2, 3] (by decide)
  exact ⟨bkt, (h 5 (by decide)).2.1 1⟩

end Example

end SiteCode.Hashtable
