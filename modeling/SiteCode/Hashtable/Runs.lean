import SiteCode.Hashtable.Table
/-!
# Runs of a hash table

A table holds a sequence of stored objects, the most recently added first. The
chain of a bucket is the part of that sequence that hashes to the bucket, so
adding, deleting and looking up are operations on the sequence.
-/

namespace SiteCode.Hashtable

open Hlist

variable {sz : Nat} {O : Type}

/-! ## Chains -/

/-- The chains of a table that stores `S`, by the bucket of each object. -/
def chains (home : O → Fin sz) (S : List O) : Lists (Fin sz) O := fun i => S.filter fun o => home o = i

/-- Memory `m` is a table that stores exactly the objects `S`. -/
structure Stores (home : O → Fin sz) (m : Table sz O) (S : List O) : Prop where
  nodup : S.Nodup
  agrees : Agrees m (chains home S)
  marked : ∀ o, Marked (· = .NULL) m (chains home S) o

variable {home : O → Fin sz} {m m' : Table sz O} {S : List O} {o : O}

theorem mem_chains {i : Fin sz} : o ∈ chains home S i ↔ o ∈ S ∧ home o = i := by
  simp [chains]

theorem onList_chains : OnList (chains home S) o ↔ o ∈ S := by
  simp [OnList, mem_chains]

theorem off_chains : Off (chains home S) o ↔ o ∉ S := by
  rw [off_iff, onList_chains]

/-- A key that changes while its object is not stored does not matter. -/
theorem chains_congr {home' : O → Fin sz} (h : ∀ o ∈ S, home' o = home o) : chains home' S = chains home S :=
  funext fun i => List.filter_congr fun o ho => by rw [h o ho]

theorem Stores.congr {home' : O → Fin sz} (hS : Stores home m S) (h : ∀ o ∈ S, home' o = home o) :
    Stores home' m S := by
  have e := chains_congr h
  exact ⟨hS.nodup, e ▸ hS.agrees, e ▸ hS.marked⟩

/-- Bucket by bucket, all stored objects and no other. -/
theorem flatMap_chains_perm (hS : S.Nodup) : ((List.finRange sz).flatMap (chains home S)).Perm S := by
  refine (List.perm_ext_iff_of_nodup ?_ hS).2 fun o => by simp [mem_chains]
  refine List.nodup_flatMap.2 ⟨fun i _ => hS.filter _, (List.nodup_finRange sz).imp fun hne o h1 h2 => ?_⟩
  exact hne ((mem_chains.1 h1).2.symm.trans (mem_chains.1 h2).2)

theorem stores_empty (hf : ∀ i, m.first i = .NULL) (hp : ∀ o, m.pprev o = .NULL) : Stores home m [] :=
  ⟨List.nodup_nil, agrees_init hf, fun o => .inr (hp o)⟩

variable [DecidableEq O]

/-- Adding an object to its bucket. -/
theorem agrees_hash_add (hA : Agrees m (chains home S)) (ho : o ∉ S) :
    ∃ m', hlist_add_head m o (home o) = some m' ∧ Agrees m' (chains home (o :: S)) ∧
      KeepsMarks (.hlist_add_head o (home o)) m (chains home S) m' (chains home (o :: S)) := by
  have e : Hlist.Op.edit (chains home S) (.hlist_add_head o (home o)) = chains home (o :: S) := by
    funext i
    by_cases hi : i = home o
    · subst hi; simp [Hlist.Op.edit, chains]
    · simp [Hlist.Op.edit, chains, hi, Ne.symm hi]
  exact e ▸ agrees_exec hA (.hlist_add_head o (home o)) (off_chains.2 ho)

/-- Deleting an object that is stored or unhashed. -/
theorem agrees_hash_del (hA : Agrees m (chains home S)) (ho : Marked (· = .NULL) m (chains home S) o) :
    ∃ m', hash_del m o = some m' ∧ Agrees m' (chains home (S.erase o)) ∧
      KeepsMarks (.hlist_del_init o) m (chains home S) m' (chains home (S.erase o)) := by
  have e : Hlist.Op.edit (chains home S) (.hlist_del_init o) = chains home (S.erase o) :=
    funext fun i => List.erase_filter ..
  exact e ▸ agrees_exec hA (.hlist_del_init o) ho

theorem Stores.add (hS : Stores home m S) (ho : o ∉ S) :
    ∃ m', hlist_add_head m o (home o) = some m' ∧ Stores home m' (o :: S) := by
  obtain ⟨m', h1, h2, h3⟩ := agrees_hash_add hS.agrees ho
  exact ⟨m', h1, List.nodup_cons.2 ⟨ho, hS.nodup⟩, h2, fun k => h3 _ k rfl (by simp) (.inl (hS.marked k))⟩

theorem Stores.del (hS : Stores home m S) (o : O) :
    ∃ m', hash_del m o = some m' ∧ Stores home m' (S.erase o) := by
  obtain ⟨m', h1, h2, h3⟩ := agrees_hash_del hS.agrees (hS.marked o)
  exact ⟨m', h1, hS.nodup.erase o, h2, fun k => h3 _ k rfl (by simp) (.inl (hS.marked k))⟩

/-! ## What a program sees -/

theorem Stores.hash_hashed_iff (hS : Stores home m S) : hash_hashed m o = true ↔ o ∈ S := by
  rw [hash_hashed, Bool.not_eq_true', Bool.eq_false_iff, ne_eq, hlist_unhashed_iff hS.agrees (hS.marked o), off_chains,
    not_not]

theorem Stores.hash_del_of_not_mem (hS : Stores home m S) (ho : o ∉ S) : hash_del m o = some m :=
  hlist_del_init_unhashed ((hS.marked o).resolve_left fun h => ho (onList_chains.1 h))

theorem hash_empty_from_iff (hA : Agrees m (chains home S)) (is : List (Fin sz)) :
    hash_empty_from m is = true ↔ ∀ i ∈ is, chains home S i = [] := by
  induction is with
  | nil => simp [hash_empty_from]
  | cons i is ih =>
    rw [hash_empty_from, List.forall_mem_cons, ← ih]
    by_cases h : chains home S i = []
    · simp [(hlist_empty_iff hA i).2 h, h]
    · simp [Bool.eq_false_iff.2 (h ∘ (hlist_empty_iff hA i).1), h]

/-- The table is empty when all its chains are. -/
theorem hash_empty_chains (hA : Agrees m (chains home S)) : hash_empty m = true ↔ S = [] := by
  rw [hash_empty, __hash_empty, hash_empty_from_iff hA]
  constructor
  · intro h
    apply List.eq_nil_iff_forall_not_mem.2
    intro o ho
    have := h (home o) (List.mem_finRange _)
    exact absurd (mem_chains.2 ⟨ho, rfl⟩) (this ▸ List.not_mem_nil)
  · rintro rfl i _
    rfl

/-- The double loop visits the chains one after the other: no inner loop breaks. -/
theorem hash_for_each_from_look (hA : Agrees m (chains home S)) {fuel : Nat} (hf : S.length < fuel)
    (is : List (Fin sz)) : hash_for_each_from look fuel m .NULL is = some (m, is.flatMap (chains home S), .NULL) := by
  induction is with
  | nil => rfl
  | cons i is ih =>
    have h : hlist_for_each look fuel m i = some (m, chains home S i, .NULL) :=
      hA.for_each i ((List.length_filter_le _ _).trans_lt hf)
    simp [hash_for_each_from, h, ih]

/-! ## Runs -/

/-- The memory of a program: the table with all nodes, and the objects' keys. -/
structure Mem (sz : Nat) (t : IntType) (O : Type) where
  name : Table sz O
  id : O → t.Val

/-- A step of a program. -/
inductive Op (t : IntType) (O : Type) where
  /-- `hash_add(table, &o->node, o->id)` -/
  | add (o : O)
  /-- `hash_del(&o->node)` -/
  | del (o : O)
  /-- `o->id = v` -/
  | assign (o : O) (v : t.Val)

variable {t : IntType}

namespace Op

/-- An object is added, or its key is changed, only while it is not stored. -/
def ok (S : List O) : Op t O → Prop
  | add o | assign o _ => o ∉ S
  | del _ => True

/-- What an operation does to the sequence of stored objects. -/
def edit (S : List O) : Op t O → List O
  | add o => o :: S
  | del o => S.erase o
  | assign _ _ => S

def exec (ws : WordSize) (m : Mem sz t O) : Op t O → Option (Mem sz t O)
  | add o => do return { m with name := ← hash_add ws t m.name o (m.id o) }
  | del o => do return { m with name := ← hash_del m.name o }
  | assign o v => some { m with id := Function.update m.id o v }

end Op

def run (ws : WordSize) (m : Mem sz t O) : List (Op t O) → Option (Mem sz t O)
  | [] => some m
  | op :: ops => (op.exec ws m).bind fun m => run ws m ops

/-- The objects stored after a run from `S`. -/
def stored (S : List O) (ops : List (Op t O)) : List O := ops.foldl Op.edit S

def Allowed (S : List O) : List (Op t O) → Prop
  | [] => True
  | op :: ops => op.ok S ∧ Allowed (op.edit S) ops

/-- One allowed step: it does not fault, and it edits the stored sequence. -/
theorem stores_exec {ws : WordSize} {bkt : t.Val → Fin sz}
    (hb : ∀ (name : Table sz O) key, bucket ws t name key = some (bkt key))
    {m : Mem sz t O} (hS : Stores (fun o => bkt (m.id o)) m.name S) (op : Op t O) (hok : op.ok S) :
    ∃ m', op.exec ws m = some m' ∧ Stores (fun o => bkt (m'.id o)) m'.name (op.edit S) := by
  cases op with
  | add o =>
    obtain ⟨name, h1, h2⟩ := hS.add hok
    exact ⟨{ m with name }, by simp [Op.exec, hash_add, hb, h1], h2⟩
  | del o =>
    obtain ⟨name, h1, h2⟩ := hS.del o
    exact ⟨{ m with name }, by simp [Op.exec, h1], h2⟩
  | assign o v =>
    refine ⟨_, rfl, hS.congr fun k hk => congrArg bkt ?_⟩
    exact Function.update_of_ne (ne_of_mem_of_not_mem hk hok) ..

theorem stores_run {ws : WordSize} {bkt : t.Val → Fin sz}
    (hb : ∀ (name : Table sz O) key, bucket ws t name key = some (bkt key))
    {m : Mem sz t O} (hS : Stores (fun o => bkt (m.id o)) m.name S) (ops : List (Op t O)) (hok : Allowed S ops) :
    ∃ m', run ws m ops = some m' ∧ Stores (fun o => bkt (m'.id o)) m'.name (stored S ops) := by
  induction ops generalizing m S with
  | nil => exact ⟨m, rfl, hS⟩
  | cons op ops ih =>
    obtain ⟨m₁, h1, h2⟩ := stores_exec hb hS op hok.1
    obtain ⟨m', h3, h4⟩ := ih h2 hok.2
    exact ⟨m', by simp [run, h1, h3], h4⟩

/-- After any allowed run over a fresh table: a lookup filtered by its key visits the
stored objects with that key, the last added first; the full loop visits each stored
object once; and the tests and deletions of objects that are not stored answer for the
stored objects. -/
theorem hashtable_runs_refine (ws : WordSize) (t : IntType) (bits : Nat) (h1 : 1 ≤ bits) (h2 : bits ≤ 30)
    (next : O → Ptr O) (id : O → t.Val) (ops : List (Op t O)) (hok : Allowed [] ops) :
    ∃ m', run ws ⟨DEFINE_HASHTABLE bits next fun _ => .NULL, id⟩ ops = some m' ∧
      let S := stored [] ops
      (∀ k fuel, S.length < fuel → ∃ visited,
        hash_for_each_possible ws t look fuel m'.name k = some (m'.name, visited, .NULL) ∧
        visited.filter (fun o => m'.id o = k) = S.filter (fun o => m'.id o = k)) ∧
      S.Nodup ∧
      (∀ fuel, S.length < fuel → ∃ visited,
        hash_for_each look fuel m'.name = some (m'.name, visited, .NULL) ∧ visited.Perm S) ∧
      (hash_empty m'.name = true ↔ S = []) ∧
      (∀ o, hash_hashed m'.name o = true ↔ o ∈ S) ∧
      ∀ o, o ∉ S → hash_del m'.name o = some m'.name := by
  -- the bucket of a key, the same in every state of the table
  choose bkt _ hb using fun key => bucket_hash (O := O) ws t h1 h2 key
  obtain ⟨m', hr, hS⟩ := stores_run (m := ⟨DEFINE_HASHTABLE bits next fun _ => .NULL, id⟩)
    (fun name key => hb key name) (stores_empty (fun _ => rfl) fun _ => rfl) ops hok
  refine ⟨m', hr, fun k fuel hf => ?_, hS.nodup, fun fuel hf => ?_, hash_empty_chains hS.agrees,
    fun o => hS.hash_hashed_iff, fun o ho => hS.hash_del_of_not_mem ho⟩
  · refine ⟨chains (fun o => bkt (m'.id o)) (stored [] ops) (bkt k), ?_, ?_⟩
    · simp [hash_for_each_possible, hb, hS.agrees.for_each (bkt k) ((List.length_filter_le _ _).trans_lt hf)]
    · rw [chains, List.filter_filter]
      apply List.filter_congr
      intro o _
      by_cases hk : m'.id o = k
      · simp [hk]
      · simp [hk]
  · exact ⟨_, hash_for_each_from_look hS.agrees hf _, flatMap_chains_perm hS.nodup⟩

/-- Two objects with one key in a table of 8 buckets; the first added is deleted. -/
theorem hashtable_runs_refine_del : ∃ m' : Mem (1 <<< 3) .int Bool,
    run .w64 ⟨DEFINE_HASHTABLE 3 (fun _ => .NULL) fun _ => .NULL, fun _ => (9 : IntType.int.Val)⟩
        [.add false, .add true, .del false] = some m' ∧
      hash_hashed m'.name true = true ∧ hash_hashed m'.name false = false ∧ hash_empty m'.name = false := by
  obtain ⟨m', h1, -, -, -, h2, h3, -⟩ := hashtable_runs_refine .w64 .int 3 (by decide) (by decide) (fun _ => .NULL)
    (fun _ : Bool => (9 : IntType.int.Val)) [.add false, .add true, .del false] (by simp [Allowed, Op.ok, Op.edit])
  refine ⟨m', h1, (h3 true).2 (by decide), ?_, ?_⟩
  · exact Bool.eq_false_iff.2 fun h => absurd ((h3 false).1 h) (by decide)
  · exact Bool.eq_false_iff.2 fun h => absurd (h2.1 h) (by decide)

end SiteCode.Hashtable
