import SiteCode.Hlist.Runs
/-!
# Deleting inside `hlist_for_each_entry_safe`

The loop goes on with a successor that it read before its body ran. A body that
deletes entries that were visited, the current one included, leaves that
successor in its chain, whatever it deletes and wherever.
-/

namespace SiteCode.Hlist

open Lib

variable {H N O : Type}

theorem Member.node_injective (s : Member O N) : Function.Injective s.node :=
  Function.LeftInverse.injective s.container_of_node

/-- The nodes of the objects of every head. -/
def nodes (s : Member O N) (L : Lists H O) : Lists H N := fun h => (L h).map s.node

variable {s : Member O N} {L : Lists H O} {D ds : List O} {m : Mem H N} {h : H} {u v : List O} {o d : O}

theorem onList_nodes : OnList (nodes s L) (s.node o) ↔ OnList L o := by
  simp [OnList, nodes, s.node_injective.eq_iff]

/-- `&pos->member` and back. -/
theorem hlist_entry_safe_ptrTo (s : Member O N) (v : List O) : hlist_entry_safe s (ptrTo (v.map s.node)) = ptrTo v := by
  cases v with
  | nil => rfl
  | cons o v => simp [hlist_entry_safe, s.container_of_node]

variable [DecidableEq O]

/-- What is left of every sequence when `D` is deleted. -/
def without (L : Lists H O) (D : List O) : Lists H O := fun h => (L h).filter fun o => o ∉ D

/-- `m` holds what the deletions `D` leave of `L`, and an object of `L` that is
deleted is initialised. -/
structure Remains (s : Member O N) (L : Lists H O) (D : List O) (m : Mem H N) : Prop where
  agrees : Agrees m (nodes s (without L D))
  marked : ∀ o, OnList L o → Marked (· = .NULL) m (nodes s (without L D)) (s.node o)

theorem without_nil (L : Lists H O) : without L [] = L := by
  funext h
  simp [without]

theorem onList_without : OnList (without L D) o ↔ OnList L o ∧ o ∉ D := by
  simp [OnList, without]

/-- In front of what is left to visit, the deletions are done; behind, nothing is deleted. -/
theorem without_append (hL : L h = u ++ v) (hv : ∀ o ∈ v, o ∉ D) :
    without L D h = (u.filter fun o => o ∉ D) ++ v := by
  have hfv : (v.filter fun o => o ∉ D) = v := List.filter_eq_self.2 (by simpa using hv)
  rw [without, hL, List.filter_append, hfv]

theorem remains_start (hA : Agrees m (nodes s L)) : Remains s L [] m :=
  ⟨by rwa [without_nil], fun _ ho => .inl (by rwa [without_nil, onList_nodes])⟩

theorem Remains.next (hR : Remains s L D m) (hL : L h = u ++ o :: v) (hv : ∀ k ∈ o :: v, k ∉ D) :
    m.next (s.node o) = ptrTo (v.map s.node) := by
  apply hR.agrees.next_mid (h := h) (u := (u.filter fun o => o ∉ D).map s.node)
  rw [nodes, without_append hL hv, List.map_append, List.map_cons]

theorem Remains.first (hR : Remains s L D m) (hv : ∀ o ∈ L h, o ∉ D) : m.first h = ptrTo ((L h).map s.node) := by
  have hw : without L D h = L h := without_append (L := L) (u := []) rfl hv
  have hc := hR.agrees.chain h
  rw [nodes, hw] at hc
  exact Option.some.inj (load_of_chain hc)

/-- Only which objects are deleted matters. -/
theorem Remains.congr {D' : List O} (hR : Remains s L D m) (h : ∀ o, o ∈ D ↔ o ∈ D') : Remains s L D' m := by
  have e : without L D = without L D' := by
    funext k
    simp [without, h]
  exact ⟨e ▸ hR.agrees, e ▸ hR.marked⟩

/-! ## Deleting what was visited -/

variable [DecidableEq H] [DecidableEq N]

/-- Deleting one more object. -/
theorem Remains.del (hR : Remains s L D m) (hd : OnList L d) :
    ∃ m', hlist_del_init m (s.node d) = some m' ∧ Remains s L (d :: D) m' := by
  obtain ⟨m', h1, h2, h3⟩ := agrees_exec hR.agrees (.hlist_del_init (s.node d)) (hR.marked d hd)
  have e : Op.edit (nodes s (without L D)) (.hlist_del_init (s.node d)) = nodes s (without L (d :: D)) := by
    funext h
    have hnd : (without L D h).Nodup := (hR.agrees.separate.nodup h).of_map _
    simp only [Op.edit, nodes]
    rw [← List.map_erase s.node_injective, hnd.erase_eq_filter]
    simp only [without, List.filter_filter]
    congr 1
    apply List.filter_congr
    intro o _
    simp [bne, beq_eq_decide]
  rw [e] at h2 h3
  exact ⟨m', h1, h2, fun o ho => h3 _ _ rfl (by simp) (.inl (hR.marked o ho))⟩

/-- A body that deletes the objects `del o` on the visit of `o`, and breaks where `brk` says so. -/
def deleting (s : Member O N) (del : O → List O) (brk : O → Bool) (m : Mem H N) (o : O) : Option (Mem H N × Bool) := do
  let m ← (del o).foldlM (fun m d => hlist_del_init m (s.node d)) m
  return (m, brk o)

theorem Remains.del_all (hR : Remains s L D m) (hds : ∀ d ∈ ds, OnList L d) :
    ∃ m', ds.foldlM (fun m d => hlist_del_init m (s.node d)) m = some m' ∧ Remains s L (ds.reverse ++ D) m' := by
  induction ds generalizing m D with
  | nil => exact ⟨m, rfl, hR⟩
  | cons d ds ih =>
    obtain ⟨m₁, h1, h2⟩ := hR.del (hds d List.mem_cons_self)
    obtain ⟨m', h3, h4⟩ := ih h2 fun d' hd' => hds d' (List.mem_cons_of_mem _ hd')
    exact ⟨m', by simp [h1, h3], by simpa using h4⟩

/-! ## The loop -/

/-- The final position of a loop over `v`. -/
def stop (brk : O → Bool) (v : List O) : Ptr O := (v.find? brk).elim .NULL .node

/-- The loop visits `v` up to the first break, and deletes what the visits delete. -/
theorem Remains.for_each_entry_safe {del : O → List O} {brk : O → Bool} (hR : Remains s L D m) (hL : L h = u ++ v)
    (hv : ∀ o ∈ v, o ∉ D) (hdel : ∀ u' o v', v = u' ++ o :: v' → ∀ d ∈ del o, OnList L d ∧ d ∉ v') {fuel : Nat}
    (hf : v.length < fuel) :
    ∃ m', hlist_for_each_entry_safe_from s (deleting s del brk) fuel m (ptrTo v) =
        some (m', through brk v, stop brk v) ∧
      Remains s L (D ++ (through brk v).flatMap del) m' := by
  induction v generalizing m u D fuel with
  | nil =>
    obtain ⟨fuel, rfl⟩ := Nat.exists_eq_add_of_lt hf
    exact ⟨m, rfl, by simpa [through] using hR⟩
  | cons o v ih =>
    obtain ⟨fuel, rfl⟩ := Nat.exists_eq_add_of_lt hf
    have hn := hR.next hL hv
    obtain ⟨m₁, h1, h2⟩ := hR.del_all fun d hd => (hdel [] o v rfl d hd).1
    have h2 : Remains s L (D ++ del o) m₁ := h2.congr fun k => by simp [or_comm]
    have hbody : deleting s del brk m o = some (m₁, brk o) := by simp [deleting, h1]
    by_cases hb : brk o
    · refine ⟨m₁, ?_, by simpa [through, hb] using h2⟩
      simp [hlist_for_each_entry_safe_from, hbody, hb, through, stop]
    · -- what the visit deleted is not among the entries that are left
      have hv' : ∀ k ∈ v, k ∉ D ++ del o := by
        intro k hk hm
        rcases List.mem_append.1 hm with hm | hm
        · exact hv k (List.mem_cons_of_mem _ hk) hm
        · exact (hdel [] o v rfl k hm).2 hk
      have hdel' : ∀ u' o' v', v = u' ++ o' :: v' → ∀ d ∈ del o', OnList L d ∧ d ∉ v' :=
        fun u' o' v' e => hdel (o :: u') o' v' (by simp [e])
      have hlen : v.length < v.length + 1 + fuel := by omega
      obtain ⟨m', h3, h4⟩ := ih h2 (u := u ++ [o]) (by simpa using hL) hv' hdel' hlen
      refine ⟨m', ?_, by simpa [through, hb] using h4⟩
      have hrest : hlist_for_each_entry_safe_from s (deleting s del brk) (v.length + 1 + fuel) m₁
          (hlist_entry_safe s (ptrTo (v.map s.node))) = some (m', through brk v, stop brk v) := by
        rw [hlist_entry_safe_ptrTo, h3]
      rw [ptrTo_cons, hlist_for_each_entry_safe_from]
      simp [hbody, hb, hn, hrest, through, stop]

end SiteCode.Hlist
