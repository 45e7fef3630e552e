import SiteCode.Hashtable.Delete
import SiteCode.Hashtable.Safe
import SiteCode.Hlist.Calls
/-!
# Runs that delete in loops and start over

`Runs.lean` starts with a fresh table and deletes one object at a time. A program may
also call `hash_init`, on heads that hold anything and while objects are stored, and
it may delete from inside the safe loops. `hash_init` forgets the objects but leaves
their nodes as they are: such an object is stale, it seems hashed, and it must not be
deleted until it is initialised or added.
-/

namespace SiteCode.Hashtable

open Hlist Lib

variable {sz : Nat} {O : Type}

/-! ## Tables with stale objects -/

/-- Table `m` stores exactly the objects `S`; of the others, `Z` are stale. -/
structure Keeps (home : O → Fin sz) (m : Table sz O) (S : List O) (Z : O → Prop) : Prop where
  nodup : S.Nodup
  agrees : Agrees m (chains home S)
  unhashed : ∀ o, o ∉ S → (m.pprev o = .NULL ↔ ¬ Z o)
  stale : ∀ o, Z o → o ∉ S

variable {home : O → Fin sz} {m m' : Table sz O} {S : List O} {Z : O → Prop} {o : O} {p : O → Bool} {fuel : Nat}

theorem init_heads (is : List (Fin sz)) (m : Table sz O) :
    is.foldl INIT_HLIST_HEAD m = { m with first := fun i => if i ∈ is then .NULL else m.first i } := by
  induction is generalizing m with
  | nil => simp
  | cons i is ih =>
    rw [List.foldl_cons, ih]
    unfold INIT_HLIST_HEAD Hlist.Mem.setFirst
    congr 1
    funext k
    by_cases hk : k ∈ is
    · simp [hk]
    · by_cases hki : k = i <;> simp [hk, hki]

theorem hash_init_eq (m : Table sz O) : hash_init m = { m with first := fun _ => .NULL } := by
  rw [hash_init, __hash_init, init_heads]
  simp

theorem keeps_hash_init (home : O → Fin sz) (m : Table sz O) :
    Keeps home (hash_init m) [] fun o => m.pprev o ≠ .NULL := by
  rw [hash_init_eq]
  exact ⟨List.nodup_nil, agrees_init fun _ => rfl, fun o _ => not_not.symm, fun o _ => List.not_mem_nil⟩

theorem Keeps.congr {home' : O → Fin sz} (hK : Keeps home m S Z) (h : ∀ o ∈ S, home' o = home o) :
    Keeps home' m S Z :=
  ⟨hK.nodup, chains_congr h ▸ hK.agrees, hK.unhashed, hK.stale⟩

/-! ## What the loops see -/

theorem possible_safe_of_bucket {ws : WordSize} {t : IntType} {key : t.Val} {i : Fin sz}
    (hb : bucket ws t m key = some i) (body : Table sz O → O → Option (Table sz O × Bool)) :
    hash_for_each_possible_safe ws t Member.self body fuel m key =
      hlist_for_each_entry_safe Member.self body fuel m i := by
  unfold bucket at hb
  obtain ⟨h, h1, h2⟩ := Option.bind_eq_some_iff.1 hb
  unfold hash_for_each_possible_safe
  have h1' : hash_min ws t key (BitVec.ofNat 32 (ilog2 sz)) = some h := h1
  split at h2
  · next hlt =>
    cases h2
    simp [h1', hlt]
  · cases h2

theorem nodes_self (L : Lists (Fin sz) O) : nodes Member.self L = L := funext fun i => List.map_id (L i)

/-- The object itself, when it is deleted. -/
def itself (p : O → Bool) (o : O) : List O := if p o then [o] else []

/-- What a visit deletes is not among the entries that are left. -/
theorem itself_behind {xs u v : List O} {d : O} (hxs : xs.Nodup) (e : xs = u ++ o :: v) (hd : d ∈ itself p o) :
    d ∈ xs ∧ d ∉ v := by
  obtain rfl : d = o := by
    unfold itself at hd
    split at hd <;> simp_all
  rw [e] at hxs
  exact ⟨by simp [e], (List.nodup_cons.1 (List.nodup_append.1 hxs).2.1).1⟩

theorem flatMap_itself (p : O → Bool) (S : List O) : S.flatMap (itself p) = S.filter p := by
  induction S with
  | nil => rfl
  | cons o S ih =>
    rw [List.flatMap_cons, ih, itself]
    by_cases hp : p o <;> simp [hp]

theorem through_never (S : List O) : through (fun _ : O => false) S = S := by
  simpa using through_append_of_none (p := fun _ : O => false) (u := S) (by simp) []

theorem stop_never (S : List O) : stop (fun _ : O => false) S = .NULL := by
  rw [stop, List.find?_eq_none.2 (by simp), Option.elim_none]

/-! ## Operations -/

variable [DecidableEq O]

theorem Keeps.add (hK : Keeps home m S Z) (ho : o ∉ S) :
    ∃ m', hlist_add_head m o (home o) = some m' ∧ Keeps home m' (o :: S) fun k => k ≠ o ∧ Z k := by
  obtain ⟨m', h1, h2, -⟩ := agrees_hash_add hK.agrees ho
  refine ⟨m', h1, List.nodup_cons.2 ⟨ho, hK.nodup⟩, h2, fun k hk => ?_, fun k hk hm => ?_⟩
  · rw [List.mem_cons, not_or] at hk
    have hframe := exec_frame hK.agrees (.hlist_add_head o (home o)) (off_chains.2 ho) h1 (off_chains.2 hk.2)
      fun e => hk.1 (Option.some.inj e).symm
    rw [hframe.2, hK.unhashed k hk.2]
    simp [hk.1]
  · rcases List.mem_cons.1 hm with rfl | hm
    · exact hk.1 rfl
    · exact hK.stale k hk.2 hm

theorem Keeps.del (hK : Keeps home m S Z) (ho : ¬ Z o) :
    ∃ m', hash_del m o = some m' ∧ Keeps home m' (S.erase o) Z := by
  have hmark : Marked (· = .NULL) m (chains home S) o := by
    by_cases hm : o ∈ S
    · exact .inl (onList_chains.2 hm)
    · exact .inr ((hK.unhashed o hm).2 ho)
  obtain ⟨m', h1, h2, h3⟩ := agrees_hash_del hK.agrees hmark
  refine ⟨m', h1, hK.nodup.erase o, h2, fun k hk => ?_, fun k hk hm => hK.stale k hk (List.mem_of_mem_erase hm)⟩
  by_cases hko : k = o
  · subst hko
    have hnull := (h3 (· = .NULL) k rfl (by simp) (.inl hmark)).resolve_left (hk ∘ onList_chains.1)
    exact iff_of_true hnull ho
  · have hkS : k ∉ S := fun hm => hk ((List.mem_erase_of_ne hko).2 hm)
    have hframe := exec_frame hK.agrees (.hlist_del_init o) hmark h1 (off_chains.2 hkS)
      fun e => hko (Option.some.inj e).symm
    rw [hframe.2, hK.unhashed k hkS]

theorem Keeps.del_all {ds : List O} (hK : Keeps home m S Z) (hds : ∀ d ∈ ds, ¬ Z d) :
    ∃ m', ds.foldlM hash_del m = some m' ∧ Keeps home m' (S.diff ds) Z := by
  induction ds generalizing m S with
  | nil => exact ⟨m, rfl, hK⟩
  | cons d ds ih =>
    obtain ⟨m₁, h1, h2⟩ := hK.del (hds d List.mem_cons_self)
    obtain ⟨m', h3, h4⟩ := ih h2 fun d' hd' => hds d' (List.mem_cons_of_mem _ hd')
    exact ⟨m', by simp [h1, h3], by rwa [List.diff_cons]⟩

/-- `INIT_HLIST_NODE` on an object that is not stored. -/
theorem Keeps.init_node (hK : Keeps home m S Z) (ho : o ∉ S) :
    Keeps home (INIT_HLIST_NODE m o) S fun k => k ≠ o ∧ Z k := by
  refine ⟨hK.nodup, ?_, fun k hk => ?_, fun k hk => hK.stale k hk.2⟩
  · refine agrees_off_node hK.agrees (off_chains.2 ho) rfl fun k hk => ?_
    simp [INIT_HLIST_NODE, hk]
  · by_cases hko : k = o
    · simp [INIT_HLIST_NODE, hko]
    · simp [INIT_HLIST_NODE, hko, hK.unhashed k hk]

/-- The stored objects become stale. -/
theorem Keeps.hash_init (hK : Keeps home m S Z) : Keeps home (hash_init m) [] fun o => o ∈ S ∨ Z o := by
  have h := keeps_hash_init home m
  refine ⟨h.nodup, h.agrees, fun o ho => (h.unhashed o ho).trans (not_congr ?_), fun o _ => List.not_mem_nil⟩
  by_cases hS : o ∈ S
  · have hlisted := hK.agrees.pprev_listed (onList_chains.2 hS)
    exact iff_of_true hlisted.1 (.inl hS)
  · rw [ne_eq, hK.unhashed o hS, not_not, or_iff_right hS]

/-! ## What a program sees -/

theorem Keeps.hash_hashed_iff (hK : Keeps home m S Z) : hash_hashed m o = true ↔ o ∈ S ∨ Z o := by
  unfold hash_hashed hlist_unhashed
  rw [Bool.not_eq_true', decide_eq_false_iff_not]
  by_cases hS : o ∈ S
  · exact iff_of_true (hK.agrees.pprev_listed (onList_chains.2 hS)).1 (.inl hS)
  · rw [hK.unhashed o hS, not_not, or_iff_right hS]

/-! ## The safe loops delete what their bodies delete -/

section
variable {s : Member O O} {del : O → List O} {brk : O → Bool}

/-- In memory a loop of deletions is the deletions of its visits, one after the other. -/
theorem safe_from_fold {pos pos' : Ptr O} {visited : List O}
    (h : hlist_for_each_entry_safe_from s (deleting s del brk) fuel m pos = some (m', visited, pos')) :
    (visited.flatMap del).foldlM (fun m d => hlist_del_init m (s.node d)) m = some m' := by
  induction fuel generalizing m pos visited with
  | zero => cases h
  | succ fuel ih =>
    cases pos with
    | NULL =>
      cases h
      rfl
    | LIST_POISON1 => cases h
    | node o =>
      unfold hlist_for_each_entry_safe_from at h
      obtain ⟨⟨m₁, b⟩, h1, h2⟩ := Option.bind_eq_some_iff.1 h
      obtain ⟨m₂, h3, h4⟩ := Option.bind_eq_some_iff.1 h1
      cases h4
      dsimp only at h2
      by_cases hb : brk o
      · rw [if_pos hb] at h2
        cases h2
        simpa using h3
      · rw [if_neg hb] at h2
        obtain ⟨⟨m₃, visited', pos₁⟩, h5, h6⟩ := Option.bind_eq_some_iff.1 h2
        cases h6
        rw [List.flatMap_cons, List.foldlM_append, h3, Option.bind_eq_bind, Option.bind_some]
        exact ih h5

theorem hash_safe_from_fold {pos pos' : Ptr O} {visited : List O} {bkts : List (Fin sz)}
    (h : hash_for_each_safe_from s (hash_deleting s del brk) fuel m pos bkts = some (m', visited, pos')) :
    (visited.flatMap del).foldlM (fun m d => hash_del m (s.node d)) m = some m' := by
  induction bkts generalizing m pos visited with
  | nil =>
    cases h
    rfl
  | cons i bkts ih =>
    unfold hash_for_each_safe_from at h
    by_cases hpos : pos = .NULL
    · rw [if_pos hpos] at h
      obtain ⟨⟨m₁, seen, pos₁⟩, h1, h2⟩ := Option.bind_eq_some_iff.1 h
      obtain ⟨⟨m₂, seen', pos₂⟩, h3, h4⟩ := Option.bind_eq_some_iff.1 h2
      cases h4
      have hinner : (seen.flatMap del).foldlM (fun m d => hash_del m (s.node d)) m = some m₁ := safe_from_fold h1
      rw [List.flatMap_append, List.foldlM_append, hinner, Option.bind_eq_bind, Option.bind_some]
      exact ih h3
    · rw [if_neg hpos] at h
      cases h
      rfl

end

/-- `if (p) hash_del(&obj->node);` -/
def del_if (p : O → Bool) (name : Table sz O) (obj : O) : Option (Table sz O × Bool) := do
  if p obj then
    let name ← hash_del name obj
    return (name, false)
  else
    return (name, false)

theorem del_if_eq (p : O → Bool) :
    (del_if p : Table sz O → O → Option (Table sz O × Bool)) =
      hash_deleting Member.self (itself p) fun _ => false := by
  funext name obj
  unfold del_if hash_deleting itself
  by_cases hp : p obj
  · simp [hp, Member.self]
  · simp [hp]

/-- Taking out the matches of a part that holds them all. -/
theorem diff_filter_of_mem {T : List O} (hS : S.Nodup) (hT : ∀ o ∈ S, p o → o ∈ T) :
    S.diff (T.filter p) = S.filter fun o => !p o := by
  rw [hS.sdiff_eq_filter]
  apply List.filter_congr
  intro o ho
  by_cases hp : p o
  · simp [hp, hT o ho hp]
  · simp [hp]

/-- One bucket: the safe loop deletes the objects of `p` in it. -/
theorem Keeps.remove (hK : Keeps home m S Z) {i : Fin sz} (hp : ∀ o ∈ S, p o → home o = i) (hf : S.length < fuel) :
    ∃ m', hlist_for_each_entry_safe Member.self (del_if p) fuel m i = some (m', chains home S i, .NULL) ∧
      Keeps home m' (S.filter fun o => !p o) Z := by
  have hR : Remains Member.self (chains home S) [] m := remains_start ((nodes_self (chains home S)).symm ▸ hK.agrees)
  have hdel : ∀ u o v, chains home S i = u ++ o :: v → ∀ d ∈ itself p o, OnList (chains home S) d ∧ d ∉ v := by
    intro u o v e d hd
    obtain ⟨h1, h2⟩ := itself_behind (hK.nodup.filter _) e hd
    exact ⟨⟨i, h1⟩, h2⟩
  obtain ⟨m', h1, -⟩ := @Remains.for_each_entry_safe _ _ _ _ _ _ _ i [] _ _ _ _ (itself p) (fun _ => false) hR rfl
    (by simp) hdel _ ((List.length_filter_le _ _).trans_lt hf)
  have hfold := safe_from_fold h1
  rw [through_never, flatMap_itself] at hfold
  rw [through_never, stop_never] at h1
  have hstored : ∀ d ∈ (chains home S i).filter p, ¬ Z d := fun d hd hz =>
    hK.stale d hz (mem_chains.1 (List.mem_of_mem_filter hd)).1
  obtain ⟨m'', h2, h3⟩ := hK.del_all hstored
  obtain rfl : m' = m'' := Option.some.inj (hfold.symm.trans h2)
  rw [diff_filter_of_mem hK.nodup fun o ho hpo => mem_chains.2 ⟨ho, hp o ho hpo⟩] at h3
  refine ⟨m', ?_, h3⟩
  have hfirst : m.first i = ptrTo (chains home S i) := Option.some.inj (load_of_chain (hK.agrees.chain i))
  have hentry : hlist_entry_safe Member.self (m.first i) = ptrTo (chains home S i) := by
    rw [hfirst]
    simpa [Member.self] using hlist_entry_safe_ptrTo (Member.self (N := O)) (chains home S i)
  rw [hlist_for_each_entry_safe, hentry, del_if_eq]
  exact h1

/-- All buckets. -/
theorem Keeps.purge (hK : Keeps home m S Z) (p : O → Bool) (hf : S.length < fuel) :
    ∃ m', hash_for_each_safe Member.self (del_if p) fuel m = some (m', entries (chains home S), .NULL) ∧
      Keeps home m' (S.filter fun o => !p o) Z := by
  have hA : Agrees m (nodes Member.self (chains home S)) := (nodes_self (chains home S)).symm ▸ hK.agrees
  have hdel : ∀ u o v, entries (chains home S) = u ++ o :: v →
      ∀ d ∈ itself p o, OnList (chains home S) d ∧ d ∉ v := by
    intro u o v e d hd
    obtain ⟨h1, h2⟩ := itself_behind (nodup_entries hA) e hd
    exact ⟨mem_entries.1 h1, h2⟩
  obtain ⟨m', h1, -⟩ := @safe_from_buckets _ _ _ _ _ _ _ (itself p) (fun _ => false) _ _ _ (remains_start hA)
    (List.finRange sz) (by simp) hdel fun i => (List.length_filter_le _ _).trans_lt hf
  have hfold := hash_safe_from_fold h1
  rw [through_never, flatMap_itself] at hfold
  rw [through_never, stop_never, ← del_if_eq] at h1
  have hmem : ∀ o, o ∈ entries (chains home S) ↔ o ∈ S := fun o => mem_entries.trans onList_chains
  have hstored : ∀ d ∈ (entries (chains home S)).filter p, ¬ Z d := fun d hd hz =>
    hK.stale d hz ((hmem d).1 (List.mem_of_mem_filter hd))
  obtain ⟨m'', h2, h3⟩ := hK.del_all hstored
  obtain rfl : m' = m'' := Option.some.inj (hfold.symm.trans h2)
  rw [diff_filter_of_mem hK.nodup fun o ho _ => (hmem o).2 ho] at h3
  exact ⟨m', h1, h3⟩

/-! ## Runs -/

variable {t : IntType}

/-- A step of a program. -/
inductive Step (t : IntType) (O : Type) where
  | op (op : Op t O)
  /-- `hash_init(table)` -/
  | hash_init
  /-- `INIT_HLIST_NODE(&o->node)` -/
  | INIT_HLIST_NODE (o : O)
  /-- `hash_for_each_possible_safe(table, obj, tmp, node, key) if (obj->id == key) hash_del(&obj->node);` -/
  | remove (key : t.Val)
  /-- `hash_for_each_safe(table, bkt, tmp, obj, node) if (p(obj, obj->id)) hash_del(&obj->node);` -/
  | purge (p : O → t.Val → Bool)

/-- What a program knows: the stored objects, the stale ones, and the keys. -/
structure State (t : IntType) (O : Type) where
  stored : List O
  stale : O → Prop
  id : O → t.Val

namespace Step

/-- When a step is allowed: no object is added or changed while it is stored, and
no stale object is deleted. -/
def ok (S : State t O) : Step t O → Prop
  | op (.add o) | op (.assign o _) | INIT_HLIST_NODE o => o ∉ S.stored
  | op (.del o) => ¬ S.stale o
  | hash_init | remove _ | purge _ => True

def edit (S : State t O) : Step t O → State t O
  | op (.add o) => ⟨o :: S.stored, fun k => k ≠ o ∧ S.stale k, S.id⟩
  | op (.del o) => { S with stored := S.stored.erase o }
  | op (.assign o v) => { S with id := Function.update S.id o v }
  | hash_init => ⟨[], fun o => o ∈ S.stored ∨ S.stale o, S.id⟩
  | INIT_HLIST_NODE o => { S with stale := fun k => k ≠ o ∧ S.stale k }
  | remove key => { S with stored := S.stored.filter fun o => S.id o ≠ key }
  | purge p => { S with stored := S.stored.filter fun o => !p o (S.id o) }

def exec (ws : WordSize) (fuel : Nat) (m : Mem sz t O) : Step t O → Option (Mem sz t O)
  | op o => o.exec ws m
  | hash_init => some { m with name := Hashtable.hash_init m.name }
  | INIT_HLIST_NODE o => some { m with name := Hlist.INIT_HLIST_NODE m.name o }
  | remove key => do
    let (name, _) ← hash_for_each_possible_safe ws t Member.self (del_body m.id key) fuel m.name key
    return { m with name }
  | purge p => do
    let (name, _) ← hash_for_each_safe Member.self (del_if fun o => p o (m.id o)) fuel m.name
    return { m with name }

end Step

def steps (ws : WordSize) (fuel : Nat) (m : Mem sz t O) : List (Step t O) → Option (Mem sz t O)
  | [] => some m
  | step :: rest => (step.exec ws fuel m).bind fun m => steps ws fuel m rest

def State.edits (S : State t O) (rest : List (Step t O)) : State t O := rest.foldl Step.edit S

def StepsAllowed (S : State t O) : List (Step t O) → Prop
  | [] => True
  | step :: rest => step.ok S ∧ StepsAllowed (step.edit S) rest

/-- After `hash_init` on memory of which nothing is known. -/
def State.start (name : Table sz O) (id : O → t.Val) : State t O := ⟨[], fun o => name.pprev o ≠ .NULL, id⟩

theorem length_edit (S : State t O) (step : Step t O) : (step.edit S).stored.length ≤ S.stored.length + 1 := by
  cases step with
  | op op =>
    cases op with
    | add o => exact le_rfl
    | del o => exact (List.length_erase_le).trans (Nat.le_succ _)
    | assign o v => exact Nat.le_succ _
  | hash_init => exact Nat.zero_le _
  | INIT_HLIST_NODE o => exact Nat.le_succ _
  | remove key => exact (List.length_filter_le _ _).trans (Nat.le_succ _)
  | purge p => exact (List.length_filter_le _ _).trans (Nat.le_succ _)

theorem length_edits (S : State t O) (rest : List (Step t O)) :
    (S.edits rest).stored.length ≤ S.stored.length + rest.length := by
  induction rest generalizing S with
  | nil => exact le_rfl
  | cons step rest ih =>
    have hrest := ih (step.edit S)
    have hstep := length_edit S step
    unfold State.edits at hrest ⊢
    rw [List.foldl_cons, List.length_cons]
    omega

theorem del_body_eq (id : O → t.Val) (key : t.Val) :
    (del_body id key : Table sz O → O → Option (Table sz O × Bool)) = del_if fun o => decide (id o = key) := by
  funext name obj
  unfold del_body del_if
  by_cases hk : id obj = key <;> simp [hk]

/-- One allowed step. -/
theorem keeps_exec {ws : WordSize} {bkt : t.Val → Fin sz}
    (hb : ∀ (name : Table sz O) key, bucket ws t name key = some (bkt key)) {m : Mem sz t O} {S : State t O}
    (hid : m.id = S.id) (hK : Keeps (fun o => bkt (S.id o)) m.name S.stored S.stale) (step : Step t O)
    (hok : step.ok S) (hf : S.stored.length < fuel) :
    ∃ m', step.exec ws fuel m = some m' ∧ m'.id = (step.edit S).id ∧
      Keeps (fun o => bkt ((step.edit S).id o)) m'.name (step.edit S).stored (step.edit S).stale := by
  cases step with
  | op op =>
    cases op with
    | add o =>
      obtain ⟨name, h1, h2⟩ := hK.add hok
      exact ⟨{ m with name }, by simp [Step.exec, Op.exec, hash_add, hb, hid, h1], hid, h2⟩
    | del o =>
      obtain ⟨name, h1, h2⟩ := hK.del hok
      exact ⟨{ m with name }, by simp [Step.exec, Op.exec, h1], hid, h2⟩
    | assign o v =>
      refine ⟨_, rfl, by rw [hid]; rfl, hK.congr fun k hk => congrArg bkt ?_⟩
      exact Function.update_of_ne (ne_of_mem_of_not_mem hk hok) ..
  | hash_init => exact ⟨_, rfl, hid, hK.hash_init⟩
  | INIT_HLIST_NODE o => exact ⟨_, rfl, hid, hK.init_node hok⟩
  | remove key =>
    have hhome : ∀ o ∈ S.stored, decide (S.id o = key) → bkt (S.id o) = bkt key :=
      fun o _ hk => congrArg bkt (of_decide_eq_true hk)
    obtain ⟨name, h1, h2⟩ := hK.remove hhome hf
    refine ⟨{ m with name }, ?_, hid, ?_⟩
    · simp [Step.exec, hid, del_body_eq, possible_safe_of_bucket (hb m.name key), h1]
    · simpa [Step.edit] using h2
  | purge p =>
    obtain ⟨name, h1, h2⟩ := hK.purge (fun o => p o (S.id o)) hf
    exact ⟨{ m with name }, by simp [Step.exec, hid, h1], hid, h2⟩

theorem keeps_steps {ws : WordSize} {bkt : t.Val → Fin sz}
    (hb : ∀ (name : Table sz O) key, bucket ws t name key = some (bkt key)) {m : Mem sz t O} {S : State t O}
    (hid : m.id = S.id) (hK : Keeps (fun o => bkt (S.id o)) m.name S.stored S.stale) (rest : List (Step t O))
    (hok : StepsAllowed S rest) (hf : S.stored.length + rest.length < fuel) :
    ∃ m', steps ws fuel m rest = some m' ∧ m'.id = (S.edits rest).id ∧
      Keeps (fun o => bkt ((S.edits rest).id o)) m'.name (S.edits rest).stored (S.edits rest).stale := by
  induction rest generalizing m S with
  | nil => exact ⟨m, rfl, hid, hK⟩
  | cons step rest ih =>
    rw [List.length_cons] at hf
    have hnow : S.stored.length < fuel := by omega
    obtain ⟨m₁, h1, h2, h3⟩ := keeps_exec hb hid hK step hok.1 hnow
    have hlen := length_edit S step
    obtain ⟨m', h4, h5, h6⟩ := ih h2 h3 hok.2 (by omega)
    exact ⟨m', by simp [steps, h1, h4], h5, h6⟩

/-- Call `hash_init` on any memory, and take any allowed steps. No step faults and
every loop ends, the loops that delete among them. Afterwards lookups and the full
loop see the stored objects, and what seems hashed is stored or stale. -/
theorem hashtable_steps_refine (ws : WordSize) (t : IntType) (bits : Nat) (h1 : 1 ≤ bits) (h2 : bits ≤ 30)
    (name : Table (1 <<< bits) O) (id : O → t.Val) (rest : List (Step t O))
    (hok : StepsAllowed (State.start name id) rest) (fuel : Nat) (hf : rest.length < fuel) :
    ∃ m', steps ws fuel ⟨hash_init name, id⟩ rest = some m' ∧
      let S := (State.start name id).edits rest
      m'.id = S.id ∧ S.stored.Nodup ∧
      (∀ k, ∃ visited, hash_for_each_possible ws t look fuel m'.name k = some (m'.name, visited, .NULL) ∧
        visited.filter (fun o => S.id o = k) = S.stored.filter fun o => S.id o = k) ∧
      (∃ visited, hash_for_each look fuel m'.name = some (m'.name, visited, .NULL) ∧ visited.Perm S.stored) ∧
      (hash_empty m'.name = true ↔ S.stored = []) ∧
      (∀ o, hash_hashed m'.name o = true ↔ o ∈ S.stored ∨ S.stale o) ∧
      ∀ o, S.stale o → o ∉ S.stored := by
  choose bkt _ hb using fun key => bucket_hash (O := O) ws t h1 h2 key
  have hroom : (State.start name id).stored.length + rest.length < fuel := by simpa [State.start] using hf
  obtain ⟨m', hr, hid, hK⟩ := @keeps_steps _ _ _ _ _ _ _ (fun name key => hb key name) ⟨hash_init name, id⟩ _ rfl
    (keeps_hash_init _ name) rest hok hroom
  have hlen : ((State.start name id).edits rest).stored.length < fuel := by
    have hle := length_edits (State.start name id) rest
    simp only [State.start, List.length_nil, Nat.zero_add] at hle ⊢
    exact hle.trans_lt hf
  refine ⟨m', hr, hid, hK.nodup, fun k => ?_, ?_, (hash_empty_chains hK.agrees), fun o => hK.hash_hashed_iff, hK.stale⟩
  · refine ⟨chains (fun o => bkt (((State.start name id).edits rest).id o))
      ((State.start name id).edits rest).stored (bkt k), ?_, ?_⟩
    · simp [hash_for_each_possible, hb, hK.agrees.for_each (bkt k) ((List.length_filter_le _ _).trans_lt hlen)]
    · rw [chains, List.filter_filter]
      apply List.filter_congr
      intro o _
      by_cases hk : ((State.start name id).edits rest).id o = k <;> simp [hk]
  · exact ⟨_, hash_for_each_from_look hK.agrees hlen _, flatMap_chains_perm hK.nodup⟩

/-- On heads and nodes that hold anything: two objects with one key are removed, and
the object with another key is forgotten. -/
theorem hashtable_steps_refine_forget : ∃ m' : Mem (1 <<< 3) .int (Fin 3),
    steps .w64 9 ⟨hash_init ⟨fun _ => .node 0, fun _ => .LIST_POISON1, fun _ => .LIST_POISON2⟩,
        fun o => if o = 2 then 5 else 9⟩
      [.INIT_HLIST_NODE 0, .op (.add 0), .op (.add 1), .op (.add 2), .remove 9, .hash_init] = some m' ∧
      hash_empty m'.name = true ∧ hash_hashed m'.name 0 = false ∧ hash_hashed m'.name 2 = true := by
  obtain ⟨m', h1, -, -, -, -, h2, h3, -⟩ := hashtable_steps_refine .w64 .int 3 (by decide) (by decide)
    (⟨fun _ => .node 0, fun _ => .LIST_POISON1, fun _ => .LIST_POISON2⟩ : Table (1 <<< 3) (Fin 3))
    (fun o => if o = 2 then 5 else 9)
    [.INIT_HLIST_NODE 0, .op (.add 0), .op (.add 1), .op (.add 2), .remove 9, .hash_init]
    (by simp [StepsAllowed, Step.ok, Step.edit, State.start]) 9 (by decide)
  refine ⟨m', h1, h2.2 rfl, Bool.eq_false_iff.2 fun h => ?_, (h3 2).2 ?_⟩
  · simpa [State.edits, Step.edit, State.start] using (h3 0).1 h
  · simp only [State.edits, Step.edit, State.start, List.foldl_cons, List.foldl_nil]
    exact .inr (.inl (by decide))

end SiteCode.Hashtable
