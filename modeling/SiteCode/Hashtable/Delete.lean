import SiteCode.Hashtable.Runs
/-!
# Deleting inside `hash_for_each_possible`

The loop of `hash_del_example` deletes the objects with a key from inside the
plain loop over their bucket. `hash_del` clears the link that the loop goes on
with, so the first deletion is also the last step.
-/

namespace SiteCode.Hashtable

open Hlist Lib

variable {sz : Nat} {O : Type} {t : IntType}

variable {home : O → Fin sz} {m m' : Table sz O} {S : List O} {o : O}

theorem filter_eraseP (p : O → Bool) (S : List O) : (S.eraseP p).filter (fun o => !p o) = S.filter fun o => !p o := by
  induction S with
  | nil => rfl
  | cons x S ih =>
    by_cases hx : p x
    · simp [hx]
    · simp [hx, ih]

theorem chains_filter (p : O → Bool) (i : Fin sz) : chains home (S.filter p) i = (chains home S i).filter p := by
  simp only [chains, List.filter_filter, Bool.and_comm]

theorem Stores.for_each_bucket (hS : Stores home m S) {fuel : Nat} (hf : S.length < fuel) (i : Fin sz) :
    hlist_for_each look fuel m i = some (m, chains home S i, .NULL) :=
  hS.agrees.for_each i ((List.length_filter_le _ _).trans_lt hf)

variable [DecidableEq O]

/-- `if (obj->id == key) hash_del(&obj->node);` -/
def del_body (id : O → t.Val) (key : t.Val) (name : Table sz O) (obj : O) : Option (Table sz O × Bool) := do
  if id obj = key then
    let name ← hash_del name obj
    return (name, false)
  else
    return (name, false)

/-- The loop of `hash_del_example`, over a table and the keys of its objects. -/
def hash_del_example (ws : WordSize) (id : O → t.Val) (fuel : Nat) (htable : Table sz O) (key : t.Val) :
    Option (Table sz O × List O × Ptr O) :=
  hash_for_each_possible ws t (del_body id key) fuel htable key

/-- `hash_del` leaves a stored object without a successor. -/
theorem Stores.hash_del_next (hS : Stores home m S) (ho : o ∈ S) (hd : hash_del m o = some m') :
    m'.next o = .NULL := by
  have hu : hlist_unhashed m o = false := by
    have := hS.hash_hashed_iff.2 ho
    simpa [hash_hashed] using this
  unfold hash_del hlist_del_init at hd
  obtain ⟨m₁, -, rfl⟩ : ∃ m₁, __hlist_del m o = some m₁ ∧ INIT_HLIST_NODE m₁ o = m' := by
    simpa [hu, Option.bind_eq_some_iff] using hd
  simp [INIT_HLIST_NODE]

section
variable {id : O → t.Val} {key : t.Val} {u v : List O} {c : Slot (Fin sz) O}

theorem del_loop_none (hc : Chain .next (Ends m) (Leads m) c u) (hu : ∀ x ∈ u, id x ≠ key) (k : Nat) :
    hlist_for_each_from (del_body id key) (u.length + (k + 1)) m (ptrTo u) = some (m, u, .NULL) := by
  have hlook : ∀ x ∈ u, del_body id key m x = some (m, false) := fun x hx => if_neg (hu x hx)
  have hskip := for_each_from_skip (v := []) (by simpa using hc) hlook (k + 1)
  rw [List.append_nil] at hskip
  rw [hskip]
  simp [hlist_for_each_from, ptrTo]

/-- The first deletion ends the loop: there is no link to go on with. -/
theorem del_loop_first (hc : Chain .next (Ends m) (Leads m) c (u ++ o :: v)) (hu : ∀ x ∈ u, id x ≠ key)
    (ho : id o = key) (hd : hash_del m o = some m') (hn : m'.next o = .NULL) (k : Nat) :
    hlist_for_each_from (del_body id key) (u.length + (k + 2)) m (ptrTo (u ++ o :: v)) =
      some (m', u ++ [o], .NULL) := by
  have hbody : del_body id key m o = some (m', false) := by simp [del_body, ho, hd]
  rw [for_each_from_skip hc (fun x hx => if_neg (hu x hx))]
  simp [hlist_for_each_from, ptrTo, hbody, hn]

end

/-- The loop deletes the first object with the key, and no other. -/
theorem Stores.del_first {ws : WordSize} {id : O → t.Val} {key : t.Val} {i : Fin sz} (hS : Stores home m S)
    (hb : bucket ws t m key = some i) (hi : ∀ o ∈ S, id o = key → home o = i) {fuel : Nat} (hf : S.length < fuel) :
    ∃ name' visited, hash_del_example ws id fuel m key = some (name', visited, .NULL) ∧
      Stores home name' (S.eraseP fun o => id o = key) := by
  have hc := hS.agrees.chain i
  have hfirst : m.first i = ptrTo (chains home S i) := Option.some.inj (load_of_chain hc)
  have hlen : (chains home S i).length ≤ S.length := List.length_filter_le _ _
  rw [hash_del_example, hash_for_each_possible, hb, Option.bind_eq_bind, Option.bind_some, hlist_for_each, hfirst]
  by_cases hex : ∃ o ∈ S, id o = key
  · obtain ⟨o, ho, hk⟩ := hex
    -- the first match of `S` is the first match of the bucket as well
    obtain ⟨a, u, v, hu, ha, hsplit, herase⟩ := List.exists_of_eraseP (p := fun o => id o = key) ho (by simpa using hk)
    have ha' : id a = key := by simpa using ha
    have haS : a ∈ S := by simp [hsplit]
    have hau : a ∉ u := fun hm => hu a hm ha
    have hchain : chains home S i = chains home u i ++ a :: chains home v i := by
      simp [chains, hsplit, hi a haS ha']
    have hu' : ∀ x ∈ chains home u i, id x ≠ key := by
      intro x hx
      simpa using hu x (mem_chains.1 hx).1
    obtain ⟨m', hd, hS'⟩ := hS.del a
    rw [hsplit, List.erase_append_right _ hau, List.erase_cons_head, ← herase] at hS'
    rw [hchain] at hc hlen ⊢
    rw [List.length_append, List.length_cons] at hlen
    obtain ⟨k, rfl⟩ : ∃ k, fuel = (chains home u i).length + (k + 2) :=
      ⟨fuel - (chains home u i).length - 2, by omega⟩
    exact ⟨m', _, del_loop_first hc hu' ha' hd (hS.hash_del_next haS hd) k, hS'⟩
  · have hno : ∀ o ∈ S, id o ≠ key := fun o ho hk => hex ⟨o, ho, hk⟩
    obtain ⟨k, rfl⟩ : ∃ k, fuel = (chains home S i).length + (k + 1) :=
      ⟨fuel - (chains home S i).length - 1, by omega⟩
    refine ⟨m, _, del_loop_none hc (fun x hx => hno x (mem_chains.1 hx).1) k, ?_⟩
    rwa [List.eraseP_of_forall_not fun o ho => by simpa using hno o ho]

/-! ## When the key is gone -/

/-- Erasing the first match leaves no match exactly when no two elements match. -/
theorem eraseP_clean_iff {p : O → Bool} (hS : S.Nodup) :
    (∀ o ∈ S.eraseP p, ¬ p o) ↔ ∀ o ∈ S, ∀ o' ∈ S, p o → p o' → o = o' := by
  by_cases hex : ∃ o ∈ S, p o
  · obtain ⟨o, ho, hp⟩ := hex
    obtain ⟨a, u, v, hu, ha, rfl, herase⟩ := List.exists_of_eraseP ho hp
    have hav : a ∉ u ++ v := fun hm => (List.nodup_middle.1 hS |> List.nodup_cons.1).1 hm
    rw [herase]
    constructor
    · intro hclean x hx y hy hpx hpy
      have honly : ∀ z ∈ u ++ a :: v, p z → z = a := by
        intro z hz hpz
        by_contra hne
        exact hclean z (by simpa [hne] using hz) hpz
      rw [honly x hx hpx, honly y hy hpy]
    · intro h x hx hpx
      obtain rfl := h x (by simp only [List.mem_append, List.mem_cons] at hx ⊢; tauto) a (by simp) hpx ha
      exact hav hx
  · have hno : ∀ o ∈ S, ¬ p o := fun o ho hp => hex ⟨o, ho, hp⟩
    rw [List.eraseP_of_forall_not hno]
    exact ⟨fun _ o ho _ _ hp _ => absurd hp (hno o ho), fun _ => hno⟩

/-- After any run of additions, deletions and changes of keys over a fresh table, the
loop of `hash_del_example` ends, and takes out of every bucket the objects with the
key and no other, exactly when no two of the stored objects have the key. -/
theorem hash_del_example_removes_iff (ws : WordSize) (t : IntType) (bits : Nat) (h1 : 1 ≤ bits) (h2 : bits ≤ 30)
    (next : O → Ptr O) (id : O → t.Val) (ops : List (Op t O)) (hok : Allowed [] ops) (key : t.Val) :
    ∃ m, run ws ⟨DEFINE_HASHTABLE bits next fun _ => .NULL, id⟩ ops = some m ∧
      let S := stored [] ops
      ((∀ fuel, S.length < fuel → ∃ name' visited obj,
          hash_del_example ws m.id fuel m.name key = some (name', visited, obj) ∧
          ∀ i xs, hlist_for_each look fuel m.name i = some (m.name, xs, .NULL) →
            hlist_for_each look fuel name' i = some (name', xs.filter fun o => m.id o ≠ key, .NULL)) ↔
        ∀ o ∈ S, ∀ o' ∈ S, m.id o = key → m.id o' = key → o = o') := by
  choose bkt _ hb using fun key => bucket_hash (O := O) ws t h1 h2 key
  obtain ⟨m, hr, hS⟩ := stores_run (m := ⟨DEFINE_HASHTABLE bits next fun _ => .NULL, id⟩)
    (fun name key => hb key name) (stores_empty (fun _ => rfl) fun _ => rfl) ops hok
  refine ⟨m, hr, ?_⟩
  intro S
  have hiff := eraseP_clean_iff (p := fun o => decide (m.id o = key)) hS.nodup
  simp only [decide_eq_true_eq] at hiff
  rw [← hiff]
  have hhome : ∀ o ∈ S, m.id o = key → bkt (m.id o) = bkt key := fun o _ hk => congrArg bkt hk
  have hloop := fun fuel (hf : S.length < fuel) => hS.del_first (hb key m.name) hhome hf
  have hlen : (S.eraseP fun o => m.id o = key).length ≤ S.length := List.eraseP_sublist.length_le
  constructor
  · intro h o ho hk
    obtain ⟨name', visited, hl, hS'⟩ := hloop (S.length + 1) (Nat.lt_succ_self _)
    obtain ⟨name'', _, _, hl', hvis⟩ := h (S.length + 1) (Nat.lt_succ_self _)
    obtain rfl : name' = name'' := congrArg Prod.fst (Option.some.inj (hl.symm.trans hl'))
    have hfilter := hvis _ _ (hS.for_each_bucket (Nat.lt_succ_self _) (bkt (m.id o)))
    rw [hS'.for_each_bucket (hlen.trans_lt (Nat.lt_succ_self _))] at hfilter
    have hchain := congrArg (fun r => r.2.1) (Option.some.inj hfilter)
    have hmem : o ∈ chains (fun o => bkt (m.id o)) (S.eraseP fun o => m.id o = key) (bkt (m.id o)) :=
      mem_chains.2 ⟨ho, rfl⟩
    simp only at hchain
    rw [hchain] at hmem
    simp [hk] at hmem
  · intro h fuel hf
    obtain ⟨name', visited, hl, hS'⟩ := hloop fuel hf
    refine ⟨name', visited, .NULL, hl, fun i xs hxs => ?_⟩
    rw [hS.for_each_bucket hf] at hxs
    obtain rfl : chains (fun o => bkt (m.id o)) S i = xs := congrArg (fun r => r.2.1) (Option.some.inj hxs)
    have hclean : (S.eraseP fun o => m.id o = key) = S.filter fun o => !decide (m.id o = key) := by
      rw [← filter_eraseP, eq_comm, List.filter_eq_self]
      simpa using h
    rw [hS'.for_each_bucket (hlen.trans_lt hf), hclean, chains_filter]
    simp only [ne_eq, decide_not]

/-- Two objects with different keys, and one of them is found and deleted. -/
theorem hash_del_example_removes_one : ∃ m : Mem (1 <<< 3) .int Bool,
    run .w64 ⟨DEFINE_HASHTABLE 3 (fun _ => .NULL) fun _ => .NULL, fun o => if o then 1 else 9⟩
        [.add false, .add true] = some m ∧
      ∀ fuel, 2 < fuel → ∃ name' visited obj, hash_del_example .w64 m.id fuel m.name 1 = some (name', visited, obj) ∧
        ∀ i xs, hlist_for_each look fuel m.name i = some (m.name, xs, .NULL) →
          hlist_for_each look fuel name' i = some (name', xs.filter fun o => m.id o ≠ 1, .NULL) := by
  obtain ⟨m, h1, h2⟩ := hash_del_example_removes_iff .w64 .int 3 (by decide) (by decide) (fun _ => .NULL)
    (fun o : Bool => if o then 1 else 9) [.add false, .add true] (by simp [Allowed, Op.ok, Op.edit]) 1
  refine ⟨m, h1, h2.2 ?_⟩
  cases h1
  decide

/-- Two objects with one key: one of them is still in the table after the loop. -/
theorem hash_del_example_same_key : ∃ m : Mem (1 <<< 3) .int Bool,
    run .w64 ⟨DEFINE_HASHTABLE 3 (fun _ => .NULL) fun _ => .NULL, fun _ => 0⟩ [.add false, .add true] = some m ∧
      ¬ ∃ name' visited obj, hash_del_example .w64 m.id 3 m.name 0 = some (name', visited, obj) ∧
        ∀ o, m.id o = 0 → hash_hashed name' o = false := by
  refine ⟨_, rfl, ?_⟩
  rintro ⟨name', visited, obj, h, hgone⟩
  cases h
  exact absurd (hgone false rfl) (by decide)

end SiteCode.Hashtable
