import SiteCode.Hashtable.Table
import SiteCode.Hlist.Safe
import Mathlib.Data.List.FinRange
/-!
# `hash_for_each_safe` under deletions

The two nested loops are one loop over the table, bucket by bucket. The cursor
of the inner loop is NULL where the inner loop ended, and the entry of the
`break` where it did not, whatever was deleted in between.
-/

namespace SiteCode.Hashtable

open Hlist Lib

variable {sz : Nat} {O N : Type}

/-- The entries of a table, bucket by bucket. -/
def entries (L : Fin sz → List O) : List O := (List.finRange sz).flatMap L

variable {s : Member O N} {L : Fin sz → List O} {D : List O} {m : Table sz N}
  {del : O → List O} {brk : O → Bool} {fuel : Nat}

theorem mem_entries {o : O} : o ∈ entries L ↔ OnList L o := by
  simp [entries, OnList]

theorem nodup_entries (hA : Agrees m (nodes s L)) : (entries L).Nodup := by
  refine List.nodup_flatMap.2 ⟨fun i _ => (hA.separate.nodup i).of_map _, ?_⟩
  refine (List.nodup_finRange sz).imp fun {i j} hne => ?_
  intro o hi hj
  exact hne (hA.separate.disjoint i j (s.node o) (List.mem_map_of_mem hi) (List.mem_map_of_mem hj))

theorem stop_append_of_none {u : List O} (h : u.find? brk = none) (v : List O) : stop brk (u ++ v) = stop brk v := by
  simp [stop, h]

theorem stop_append_of_some {u : List O} (h : (u.find? brk).isSome) (v : List O) : stop brk (u ++ v) = stop brk u := by
  obtain ⟨o, ho⟩ := Option.isSome_iff_exists.1 h
  simp [stop, ho]

theorem stop_ne_null {u : List O} (h : (u.find? brk).isSome) : stop brk u ≠ .NULL := by
  obtain ⟨o, ho⟩ := Option.isSome_iff_exists.1 h
  simp [stop, ho]

variable [DecidableEq N]

/-- A body that calls `hash_del` on the objects `del o` on the visit of `o`, and
breaks where `brk` says so. -/
def hash_deleting (s : Member O N) (del : O → List O) (brk : O → Bool) (name : Table sz N) (o : O) :
    Option (Table sz N × Bool) := do
  let name ← (del o).foldlM (fun name d => hash_del name (s.node d)) name
  return (name, brk o)

variable [DecidableEq O]

/-- The outer loop over the buckets `bkts`: one loop over all of their entries. -/
theorem safe_from_buckets (hR : Remains s L D m) (bkts : List (Fin sz))
    (hD : ∀ o ∈ bkts.flatMap L, o ∉ D)
    (hdel : ∀ u o v, bkts.flatMap L = u ++ o :: v → ∀ d ∈ del o, OnList L d ∧ d ∉ v) (hf : ∀ i, (L i).length < fuel) :
    ∃ m', hash_for_each_safe_from s (hash_deleting s del brk) fuel m .NULL bkts =
        some (m', through brk (bkts.flatMap L), stop brk (bkts.flatMap L)) ∧
      Remains s L (D ++ (through brk (bkts.flatMap L)).flatMap del) m' := by
  induction bkts generalizing m D with
  | nil => exact ⟨m, rfl, by simpa [through] using hR⟩
  | cons i bkts ih =>
    rw [List.flatMap_cons] at hD hdel ⊢
    have hfirst := hR.first (h := i) fun o ho => hD o (List.mem_append_left _ ho)
    have hbucket : ∀ u o v, L i = u ++ o :: v → ∀ d ∈ del o, OnList L d ∧ d ∉ v := by
      intro u o v e d hd
      obtain ⟨hd1, hd2⟩ := hdel u o (v ++ bkts.flatMap L) (by simp [e]) d hd
      exact ⟨hd1, fun hm => hd2 (List.mem_append_left _ hm)⟩
    obtain ⟨m₁, h1, h2⟩ : ∃ m₁, hlist_for_each_entry_safe s (hash_deleting s del brk) fuel m i =
        some (m₁, through brk (L i), stop brk (L i)) ∧ Remains s L (D ++ (through brk (L i)).flatMap del) m₁ := by
      rw [hlist_for_each_entry_safe, hfirst, hlist_entry_safe_ptrTo]
      exact hR.for_each_entry_safe (List.nil_append _).symm (fun o ho => hD o (List.mem_append_left _ ho)) hbucket
        (hf i)
    have hinner : hlist_for_each_entry_safe s (hash_deleting s del brk) fuel m i =
        some (m₁, through brk (L i), stop brk (L i)) := h1
    by_cases hb : ((L i).find? brk).isSome
    · -- a break: the guard ends the outer loop
      rw [through_append_of_some hb, stop_append_of_some hb]
      refine ⟨m₁, ?_, h2⟩
      cases bkts <;> simp [hash_for_each_safe_from, hinner, stop_ne_null hb]
    · have hb : (L i).find? brk = none := by simpa using hb
      have hall : through brk (L i) = L i := by simpa using through_append_of_none hb []
      have hend : stop brk (L i) = .NULL := by simp [stop, hb]
      rw [hall] at h2
      rw [hall, hend] at hinner
      -- what was deleted in this bucket is in no later one
      have hD' : ∀ o ∈ bkts.flatMap L, o ∉ D ++ (L i).flatMap del := by
        intro o ho hm
        rcases List.mem_append.1 hm with hm | hm
        · exact hD o (List.mem_append_right _ ho) hm
        · obtain ⟨k, hk, hdk⟩ := List.mem_flatMap.1 hm
          obtain ⟨u, v, e⟩ := List.append_of_mem hk
          exact (hdel u k (v ++ bkts.flatMap L) (by simp [e]) o hdk).2 (List.mem_append_right _ ho)
      obtain ⟨m', h3, h4⟩ := ih h2 hD' fun u o v e => hdel (L i ++ u) o v (by simp [e])
      refine ⟨m', ?_, ?_⟩
      · rw [through_append_of_none hb, stop_append_of_none hb]
        simp [hash_for_each_safe_from, hinner, h3]
      · rw [through_append_of_none hb, List.flatMap_append, ← List.append_assoc]
        exact h4

/-! ## The whole table -/

/-- Over any table, with any deletions of visited entries and any break,
`hash_for_each_safe` ends; it visits the entries bucket by bucket up to the first
break, and ends on that entry or on NULL; and every chain keeps the entries that were
not deleted, in order, while the deleted ones are unhashed. -/
theorem hash_for_each_safe_deletes (s : Member O N) (name : Table sz N) (L : Fin sz → List O)
    (hA : Agrees name (nodes s L)) (del : O → List O) (brk : O → Bool)
    (hdel : ∀ u o v, entries L = u ++ o :: v → ∀ d ∈ del o, d ∈ u ++ [o]) {fuel : Nat}
    (hf : ∀ i, (L i).length < fuel) :
    ∃ name' visited,
      hash_for_each_safe s (hash_deleting s del brk) fuel name = some (name', visited, stop brk (entries L)) ∧
      visited = through brk (entries L) ∧ visited.Nodup ∧
      Agrees name' (nodes s fun i => (L i).filter fun o => o ∉ visited.flatMap del) ∧
      ∀ o ∈ visited, ∀ d ∈ del o, hash_hashed name' (s.node d) = false := by
  have hnd := nodup_entries hA
  have hdel' : ∀ u o v, entries L = u ++ o :: v → ∀ d ∈ del o, OnList L d ∧ d ∉ v := by
    intro u o v e d hd
    have hd' := hdel u o v e d hd
    have hsplit : entries L = u ++ [o] ++ v := by simp [e]
    have hnd' := hsplit ▸ hnd
    refine ⟨mem_entries.1 ?_, fun hv => (List.nodup_append.1 hnd').2.2 d hd' d hv rfl⟩
    rw [hsplit]
    exact List.mem_append_left _ hd'
  obtain ⟨m', h1, h2⟩ := safe_from_buckets (remains_start hA) (List.finRange sz) (by simp) hdel' hf
  rw [List.nil_append] at h2
  refine ⟨m', _, h1, rfl, hnd.sublist (through_sublist _ _), h2.agrees, fun o ho d hd => ?_⟩
  obtain ⟨u, v, e⟩ := List.append_of_mem ((through_sublist _ _).subset ho)
  have hon : OnList L d := (hdel' u o v e d hd).1
  have hoff : ¬ OnList (nodes s (without L ((through brk (entries L)).flatMap del))) (s.node d) := by
    rw [onList_nodes, onList_without]
    exact fun h => h.2 (List.mem_flatMap.2 ⟨o, ho, hd⟩)
  have hp := (h2.marked d hon).resolve_left hoff
  simp [hash_hashed, hlist_unhashed, hp]

/-- A struct with its node 8 behind its start. -/
def eight : Member Nat Nat := ⟨(· + 8), (· - 8), fun _ => rfl⟩

/-- An empty bucket, and one with the objects `0, 1, 2`. -/
def three : Table 2 Nat where
  first i := if i = 0 then .NULL else .node 8
  next n := if n < 10 then .node (n + 1) else .NULL
  pprev n := if n = 8 then .first 1 else .next (n - 1)

/-- Every visited entry is deleted, and the loop breaks at the second one. -/
theorem hash_for_each_safe_deletes_two : ∃ name' visited,
    hash_for_each_safe eight (hash_deleting eight (fun o => [o]) (· = 1)) 4 three = some (name', visited, .node 1) ∧
      visited = [0, 1] ∧ visited.Nodup ∧
      Agrees name' (nodes eight fun i => (if i = 0 then [] else [0, 1, 2]).filter fun o =>
        o ∉ visited.flatMap fun o => [o]) ∧
      ∀ o ∈ visited, ∀ d ∈ [o], hash_hashed name' (eight.node d) = false := by
  refine hash_for_each_safe_deletes eight three (fun i => if i = 0 then [] else [0, 1, 2])
    ⟨⟨?_, ?_⟩, ?_⟩ (fun o => [o]) (· = 1) ?_ ?_
  · decide
  · decide
  · intro i
    match i with
    | 0 => exact chain_nil.2 rfl
    | 1 => exact ⟨by simp [nodes, eight, Leads, three, Mem.load], by simp [nodes, eight, Ends, three, Mem.load]⟩
  · intro u o v _ d hd
    simp only [List.mem_singleton] at hd
    simp [hd]
  · decide

end SiteCode.Hashtable
