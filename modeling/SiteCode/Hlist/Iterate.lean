import SiteCode.Hlist.Safe
/-!
# Searching an hlist

The loops over entries start at a head, behind an entry or at it. A loop that breaks
where `brk` says so is a search: it ends on the first match behind its start, or on
NULL. `hlist_for_each_safe` is the loop over nodes that may be deleted on the way.
-/

namespace SiteCode.Hlist

open Lib

variable {H N O : Type}

/-- A body that only looks, and breaks where `brk` says so. -/
def looking (brk : O → Bool) (m : Mem H N) (o : O) : Option (Mem H N × Bool) := some (m, brk o)

variable {s : Member O N} {L : Lists H O} {m : Mem H N} {h : H} {u v : List O} {o : O} {brk : O → Bool} {fuel : Nat}

theorem entry_next (hA : Agrees m (nodes s L)) (hL : L h = u ++ o :: v) :
    hlist_entry_safe s (m.next (s.node o)) = ptrTo v := by
  have hnodes : nodes s L h = u.map s.node ++ s.node o :: v.map s.node := by simp [nodes, hL]
  rw [hA.next_mid hnodes, hlist_entry_safe_ptrTo]

theorem entry_first (hA : Agrees m (nodes s L)) (h : H) : hlist_entry_safe s (m.first h) = ptrTo (L h) := by
  have hfirst : m.first h = ptrTo ((L h).map s.node) := Option.some.inj (load_of_chain (hA.chain h))
  rw [hfirst, hlist_entry_safe_ptrTo]

/-- The search through what is behind a gap. -/
theorem for_each_entry_search (hA : Agrees m (nodes s L)) (hL : L h = u ++ v) (hf : v.length < fuel) :
    for_each_entry s (looking brk) fuel m (ptrTo v) = some (m, through brk v, stop brk v) := by
  induction v generalizing u fuel with
  | nil =>
    obtain ⟨fuel, rfl⟩ := Nat.exists_eq_add_of_lt hf
    rfl
  | cons o v ih =>
    obtain ⟨fuel, rfl⟩ := Nat.exists_eq_add_of_lt hf
    have hnext := entry_next hA hL
    have hlen : v.length < v.length + 1 + fuel := by omega
    have hrest := ih (u := u ++ [o]) (by simpa using hL) hlen
    rw [ptrTo_cons, for_each_entry]
    by_cases hb : brk o
    · simp [looking, hb, through, stop]
    · have hthrough : through brk (o :: v) = o :: through brk v := by simp [through, hb]
      have hstop : stop brk (o :: v) = stop brk v := by simp [stop, hb]
      rw [hthrough, hstop]
      simp [looking, hb, hnext, hrest]

variable [DecidableEq H] [DecidableEq N]

/-- The deletions of visited nodes in a loop over one head. -/
theorem for_each_safe_deletes {K : Lists H N} (hA : Agrees m K) (del : N → List N)
    (hdel : ∀ u n v, K h = u ++ n :: v → ∀ d ∈ del n, d ∈ u ++ [n]) (hf : (K h).length < fuel) :
    ∃ m', hlist_for_each_safe (deleting Member.self del fun _ => false) fuel m h = some (m', K h, .NULL) ∧
      Agrees m' fun k => (K k).filter fun n => n ∉ (K h).flatMap del := by
  have hself : ∀ K : Lists H N, nodes Member.self K = K := fun K => funext fun k => List.map_id _
  have hR : Remains Member.self K [] m := remains_start ((hself K).symm ▸ hA)
  have hdel' : ∀ u n v, K h = u ++ n :: v → ∀ d ∈ del n, OnList K d ∧ d ∉ v := by
    intro u n v e d hd
    have hsplit : K h = (u ++ [n]) ++ v := by simp [e]
    have hmem := hdel u n v e d hd
    have hnd := hsplit ▸ hA.separate.nodup h
    refine ⟨⟨h, hsplit ▸ List.mem_append_left _ hmem⟩, fun hv => ?_⟩
    exact (List.nodup_append.1 hnd).2.2 d hmem d hv rfl
  have hnone : (K h).find? (fun _ : N => false) = none := by simp
  have hall : through (fun _ : N => false) (K h) = K h := by simpa using through_append_of_none hnone []
  have hstop : stop (fun _ : N => false) (K h) = .NULL := by rw [stop, hnone, Option.elim_none]
  have hfirst : m.first h = ptrTo (K h) := Option.some.inj (load_of_chain (hA.chain h))
  obtain ⟨m', h1, h2⟩ := @Remains.for_each_entry_safe _ _ _ _ _ _ _ h [] (K h) _ _ _ del (fun _ => false) hR rfl
    (by simp) hdel' _ hf
  rw [hall, hstop] at h1
  rw [hall, List.nil_append] at h2
  have hleft := h2.agrees
  rw [hself] at hleft
  refine ⟨m', ?_, hleft⟩
  rw [hlist_for_each_safe, hfirst]
  exact h1

/-- On the lists of objects `L`: a search from a head, behind an entry or at it visits
what follows up to the first match and ends on it, or on NULL; and the safe loop over
nodes visits all of them while it deletes visited ones. -/
theorem hlist_searches (s : Member O N) (m : Mem H N) (L : Lists H O) (hA : Agrees m (nodes s L)) (h : H)
    (brk : O → Bool) (fuel : Nat) (hf : (L h).length < fuel) :
    hlist_for_each_entry s (looking brk) fuel m h = some (m, through brk (L h), stop brk (L h)) ∧
    (∀ u o v, L h = u ++ o :: v →
      hlist_for_each_entry_continue s (looking brk) fuel m o = some (m, through brk v, stop brk v) ∧
      hlist_for_each_entry_from s (looking brk) fuel m (.node o) =
        some (m, through brk (o :: v), stop brk (o :: v))) ∧
    ∀ del : N → List N, (∀ u n v, nodes s L h = u ++ n :: v → ∀ d ∈ del n, d ∈ u ++ [n]) →
      ∃ m', hlist_for_each_safe (deleting Member.self del fun _ => false) fuel m h = some (m', nodes s L h, .NULL) ∧
        Agrees m' fun k => (nodes s L k).filter fun n => n ∉ (nodes s L h).flatMap del := by
  refine ⟨?_, fun u o v hL => ⟨?_, ?_⟩, fun del hdel => ?_⟩
  · rw [hlist_for_each_entry, entry_first hA]
    exact for_each_entry_search (u := []) hA rfl hf
  · have hsplit : L h = (u ++ [o]) ++ v := by simp [hL]
    rw [hL, List.length_append, List.length_cons] at hf
    rw [hlist_for_each_entry_continue, entry_next hA hL]
    apply for_each_entry_search hA hsplit
    omega
  · rw [hL, List.length_append] at hf
    apply for_each_entry_search hA hL
    omega
  · exact for_each_safe_deletes hA del hdel (by simpa [nodes] using hf)

/-- A head with the objects 0, 1 and 2, in structs with a node 8 behind their start. -/
theorem hlist_searches_three :
    let s : Member Nat Nat := ⟨(· + 8), (· - 8), fun _ => rfl⟩
    let m : Mem Unit Nat := ⟨fun _ => .node 8, fun n => if n < 10 then .node (n + 1) else .NULL,
      fun n => if n = 8 then .first () else .next (n - 1)⟩
    hlist_for_each_entry_continue s (looking (· = 2)) 4 m 0 = some (m, [1, 2], .node 2) := by
  intro s m
  refine ((hlist_searches s m (fun _ => [0, 1, 2])
    ⟨⟨fun _ => (by decide : [8, 9, 10].Nodup), fun _ _ _ _ _ => rfl⟩, fun _ => ?_⟩ () (· = 2) 4
    (by decide)).2.1 [] 0 [1, 2] rfl).1
  exact ⟨by simp [nodes, s, m, Leads, Mem.load], by simp [nodes, s, m, Ends, Mem.load]⟩

end SiteCode.Hlist
