import SiteCode.Hlist.Refine
/-!
# Runs of hlist operations

A sequence of allowed calls never faults and keeps every chain equal to its
edited sequence, with every `pprev` the address of the link that leads to its
node. What is known of a node on no list is its `pprev`: NULL when it was
initialised or `hlist_del_init`ed, poison when it was `hlist_del`eted.
-/

namespace SiteCode.Hlist

open Lib

variable {H N : Type}

def OnList (L : Lists H N) (n : N) : Prop := ∃ h, n ∈ L h

variable {m m' : Mem H N} {L L' : Lists H N} {n k : N} {h : H}

theorem off_iff : Off L n ↔ ¬ OnList L n := by
  simp [Off, OnList]

theorem onList_update [DecidableEq H] {xs : List N} (hL : ∀ k ∈ L h, k ∈ xs) (k : N) (hk : OnList L k) :
    OnList (Function.update L h xs) k := by
  obtain ⟨h', hm⟩ := hk
  by_cases e : h' = h
  · subst e
    exact ⟨h', by rw [Function.update_self]; exact hL k hm⟩
  · exact ⟨h', by rwa [Function.update_of_ne e]⟩

theorem onList_erase [DecidableEq N] (hk : k ≠ n) (h : OnList L k) : OnList (fun h => (L h).erase n) k := by
  obtain ⟨h', hm⟩ := h
  exact ⟨h', (List.mem_erase_of_ne hk).2 hm⟩

/-- An edit at a node concerns the list of that node. -/
theorem edit_eq_update [DecidableEq H] (hs : Separate L) (hn : n ∈ L h) (f : List N → List N)
    (hf : ∀ xs, n ∉ xs → f xs = xs) : (fun k => f (L k)) = Function.update L h (f (L h)) := by
  funext k
  by_cases hk : k = h
  · rw [hk, Function.update_self]
  · rw [Function.update_of_ne hk]
    exact hf _ fun hm => hk (hs.disjoint k h n hm hn)

/-- Before anything is added. -/
theorem agrees_init (hm : ∀ h, m.first h = .NULL) : Agrees m (fun _ => []) :=
  ⟨⟨fun _ => List.nodup_nil, fun _ _ _ hn => nomatch hn⟩, fun h => chain_nil.2 (congrArg some (hm h))⟩

/-! ## Walking a list -/

/-- The loop runs through a stretch of a chain on which the body only looks. -/
theorem for_each_from_skip {body : Mem H N → N → Option (Mem H N × Bool)} {xs v : List N} {c : Slot H N}
    (hc : Chain .next (Ends m) (Leads m) c (xs ++ v)) (hlook : ∀ x ∈ xs, body m x = some (m, false)) (fuel : Nat) :
    hlist_for_each_from body (xs.length + fuel) m (ptrTo (xs ++ v)) =
      (hlist_for_each_from body fuel m (ptrTo v)).map fun r => (r.1, xs ++ r.2.1, r.2.2) := by
  induction xs generalizing c with
  | nil => simp
  | cons x xs ih =>
    obtain ⟨-, h2⟩ := chain_cons.1 hc
    have hx : m.next x = ptrTo (xs ++ v) := Option.some.inj (load_of_chain h2)
    have hrest := ih h2 fun y hy => hlook y (List.mem_cons_of_mem _ hy)
    have hfuel : (x :: xs).length + fuel = xs.length + fuel + 1 := by simp only [List.length_cons]; omega
    rw [hfuel, List.cons_append, ptrTo, hlist_for_each_from, hlook x List.mem_cons_self]
    simp only [Option.bind_eq_bind, Option.bind_some, hx, hrest]
    cases hlist_for_each_from body fuel m (ptrTo v) <;> simp

/-- The loop over a chain that only looks visits the chain and stops at NULL. -/
theorem for_each_from_look {xs : List N} {c : Slot H N} (hc : Chain .next (Ends m) (Leads m) c xs) {fuel : Nat}
    (hf : xs.length < fuel) : hlist_for_each_from look fuel m (ptrTo xs) = some (m, xs, .NULL) := by
  obtain ⟨k, rfl⟩ := Nat.exists_eq_add_of_lt hf
  have hskip : hlist_for_each_from look (xs.length + (k + 1)) m (ptrTo (xs ++ [])) = _ :=
    for_each_from_skip (by simpa using hc) (fun _ _ => rfl) (k + 1)
  rw [List.append_nil] at hskip
  rw [Nat.add_assoc, hskip]
  simp [hlist_for_each_from, ptrTo]

theorem Agrees.for_each (hA : Agrees m L) (h : H) {fuel : Nat} (hf : (L h).length < fuel) :
    hlist_for_each look fuel m h = some (m, L h, .NULL) := by
  have hfirst : m.first h = ptrTo (L h) := Option.some.inj (load_of_chain (hA.chain h))
  rw [hlist_for_each, hfirst]
  exact for_each_from_look (hA.chain h) hf

theorem hlist_empty_iff [DecidableEq N] (hA : Agrees m L) (h : H) : hlist_empty m h = true ↔ L h = [] := by
  have hc := hA.chain h
  rw [hlist_empty, decide_eq_true_eq]
  cases e : L h with
  | nil => exact ⟨fun _ => rfl, fun _ => by rw [e] at hc; exact Option.some.inj hc.last⟩
  | cons x xs =>
    rw [e] at hc
    have hf : m.first h = .node x := Option.some.inj (chain_cons.1 hc).1.1
    simp [hf]

/-- The address of the link in front of a node, by the node's predecessor. -/
def linkOf (h : H) (u : List N) : Slot H N :=
  match u.getLast? with
  | none => .first h
  | some p => .next p

theorem cellAt_eq_linkOf (h : H) (u : List N) : cellAt h u = linkOf h u := by
  rcases List.eq_nil_or_concat u with rfl | ⟨u, x, rfl⟩
  · rfl
  · simp [cellAt, linkOf]

/-! ## Calls -/

/-- A call of a program. -/
inductive Op (H N : Type) where
  | hlist_add_head (n : N) (h : H)
  | hlist_add_before (n next : N)
  | hlist_add_behind (n prev : N)
  | hlist_del (n : N)
  | hlist_del_init (n : N)
  | hlist_move_list (old new : H)
  deriving DecidableEq, Repr

section
variable [DecidableEq H] [DecidableEq N]

namespace Op

/-- When an operation may be called, if `null` are the nodes with a `pprev` of NULL. -/
def okWhen (null : N → Prop) (L : Lists H N) : Op H N → Prop
  | hlist_add_head n _ => Off L n
  | hlist_add_before n next => Off L n ∧ OnList L next
  | hlist_add_behind n prev => Off L n ∧ OnList L prev
  | hlist_del n => OnList L n
  | hlist_del_init n => OnList L n ∨ null n
  | hlist_move_list old new => old ≠ new ∧ L new = []

def ok (m : Mem H N) (L : Lists H N) (op : Op H N) : Prop := op.okWhen (fun n => m.pprev n = .NULL) L

/-- The edit of sequences an operation stands for. -/
def edit (L : Lists H N) : Op H N → Lists H N
  | hlist_add_head n h => Function.update L h (n :: L h)
  | hlist_add_before n next => fun h => graft next [n, next] (L h)
  | hlist_add_behind n prev => fun h => graft prev [prev, n] (L h)
  | hlist_del n | hlist_del_init n => fun h => (L h).erase n
  | hlist_move_list old new => Function.update (Function.update L old []) new (L old)

def exec (m : Mem H N) : Op H N → Option (Mem H N)
  | hlist_add_head n h => Hlist.hlist_add_head m n h
  | hlist_add_before n next => Hlist.hlist_add_before m n next
  | hlist_add_behind n prev => Hlist.hlist_add_behind m n prev
  | hlist_del n => Hlist.hlist_del m n
  | hlist_del_init n => Hlist.hlist_del_init m n
  | hlist_move_list old new => Hlist.hlist_move_list m old new

/-- The node an operation puts on a list. -/
def adds : Op H N → Option N
  | hlist_add_head n _ | hlist_add_before n _ | hlist_add_behind n _ => some n
  | _ => none

end Op

def run (m : Mem H N) : List (Op H N) → Option (Mem H N)
  | [] => some m
  | op :: ops => (op.exec m).bind fun m => run m ops

def edits (L : Lists H N) (ops : List (Op H N)) : Lists H N := ops.foldl Op.edit L

/-- Every call of a sequence is allowed when it is made. -/
def Allowed (m : Mem H N) (L : Lists H N) : List (Op H N) → Prop
  | [] => True
  | op :: ops => op.ok m L ∧ ∀ m', op.exec m = some m' → Allowed m' (op.edit L) ops

end

/-! ## One call -/

/-- A node is on a list, or its `pprev` has one of the values `Q`. -/
def Marked (Q : Slot H N → Prop) (m : Mem H N) (L : Lists H N) (k : N) : Prop := OnList L k ∨ Q (m.pprev k)

/-- What an operation leaves of the marks: added nodes are marked, marks stay,
as long as `Q` allows for NULL and for the poison of a deletion. -/
def KeepsMarks (op : Op H N) (m : Mem H N) (L : Lists H N) (m' : Mem H N) (L' : Lists H N) : Prop :=
  ∀ (Q : Slot H N → Prop) k, Q .NULL → (op = .hlist_del k → Q .LIST_POISON2) →
    Marked Q m L k ∨ op.adds = some k → Marked Q m' L' k

/-- An operation that adds `n` and leaves `pprev` of other unlisted nodes alone. -/
theorem keepsMarks_add {op : Op H N} (ho : op.adds = some n) (hn : OnList L' n)
    (hsub : ∀ k, OnList L k → OnList L' k) (hp : ∀ k, k ≠ n → Off L k → m'.pprev k = m.pprev k) :
    KeepsMarks op m L m' L' := by
  intro Q k _ _ hk
  by_cases hkn : k = n
  · subst hkn; exact .inl hn
  by_cases hl : OnList L k
  · exact .inl (hsub k hl)
  rcases hk with hk | hk
  · exact .inr (hp k hkn (off_iff.2 hl) ▸ hk.resolve_left hl)
  · rw [ho] at hk; exact absurd (Option.some.inj hk).symm hkn

/-- An operation that takes `n` off its list. -/
theorem keepsMarks_del {op : Op H N} (ho : op.adds = none) (hq : m'.pprev n = .NULL ∨
    (op = .hlist_del n ∧ m'.pprev n = .LIST_POISON2)) (hsub : ∀ k, k ≠ n → OnList L k → OnList L' k)
    (hp : ∀ k, k ≠ n → Off L k → m'.pprev k = m.pprev k) : KeepsMarks op m L m' L' := by
  intro Q k h0 hpo hk
  rw [ho] at hk
  have hk := hk.resolve_right nofun
  by_cases hkn : k = n
  · subst hkn
    rcases hq with e | ⟨e, e'⟩
    · exact .inr (e ▸ h0)
    · exact .inr (e' ▸ hpo e)
  by_cases hl : OnList L k
  · exact .inl (hsub k hkn hl)
  · exact .inr (hp k hkn (off_iff.2 hl) ▸ hk.resolve_left hl)

variable [DecidableEq H] [DecidableEq N]

/-- One allowed call: it does not fault, and it computes its edit. -/
theorem agrees_exec (hA : Agrees m L) (op : Op H N) (hok : op.ok m L) :
    ∃ m', op.exec m = some m' ∧ Agrees m' (op.edit L) ∧ KeepsMarks op m L m' (op.edit L) := by
  have hs := hA.separate
  cases op with
  | hlist_add_head n h =>
    obtain ⟨m', h1, h2, h3⟩ := spec_hlist_add_head (h := h) hA hok
    exact ⟨m', h1, h2, keepsMarks_add rfl ⟨h, by simp [Op.edit]⟩
      (onList_update fun k hk => List.mem_cons_of_mem _ hk) h3⟩
  | hlist_add_before n next =>
    obtain ⟨hn, h, hm⟩ := hok
    obtain ⟨u, v, hL⟩ := List.append_of_mem hm
    obtain ⟨m', h1, h2, h3⟩ := spec_hlist_add_before hA hn hL
    have e : (Op.hlist_add_before n next).edit L = Function.update L h (u ++ [n] ++ next :: v) := by
      rw [Op.edit, edit_eq_update hs hm _ fun xs hx => graft_of_not_mem hx _, hL,
        graft_append (hL ▸ hs.nodup h)]
      simp
    rw [e]
    exact ⟨m', h1, h2, keepsMarks_add rfl ⟨h, by simp⟩ (onList_update fun k hk => by
      rw [hL] at hk; simp only [List.mem_append] at hk ⊢; tauto) h3⟩
  | hlist_add_behind n prev =>
    obtain ⟨hn, h, hm⟩ := hok
    obtain ⟨u, v, hL⟩ := List.append_of_mem hm
    obtain ⟨m', h1, h2, h3⟩ := spec_hlist_add_behind hA hn hL
    have e : (Op.hlist_add_behind n prev).edit L = Function.update L h (u ++ [prev] ++ [n] ++ v) := by
      rw [Op.edit, edit_eq_update hs hm _ fun xs hx => graft_of_not_mem hx _, hL,
        graft_append (hL ▸ hs.nodup h)]
      simp
    rw [e]
    exact ⟨m', h1, h2, keepsMarks_add rfl ⟨h, by simp⟩ (onList_update fun k hk => by
      rw [hL] at hk; simp only [List.mem_append, List.mem_cons] at hk ⊢; tauto) h3⟩
  | hlist_del n =>
    obtain ⟨h, hm⟩ := hok
    obtain ⟨u, v, hL⟩ := List.append_of_mem hm
    obtain ⟨m', h1, h2, h3, h4⟩ := spec_hlist_del hA hL
    refine ⟨m', h1, ?_, keepsMarks_del rfl (.inr ⟨rfl, h3⟩) (fun k hk => onList_erase hk) h4⟩
    rwa [Op.edit, edit_eq_update hs hm (·.erase n) fun xs hx => List.erase_of_not_mem hx, hL,
      erase_append (hL ▸ hs.nodup h)]
  | hlist_del_init n =>
    by_cases hn : OnList L n
    · obtain ⟨h, hm⟩ := hn
      obtain ⟨u, v, hL⟩ := List.append_of_mem hm
      obtain ⟨m', h1, h2, h3, h4⟩ := spec_hlist_del_init hA hL
      refine ⟨m', h1, ?_, keepsMarks_del rfl (.inl h3) (fun k hk => onList_erase hk) h4⟩
      rwa [Op.edit, edit_eq_update hs hm (·.erase n) fun xs hx => List.erase_of_not_mem hx, hL,
        erase_append (hL ▸ hs.nodup h)]
    · -- on no list, so its `pprev` is NULL and nothing happens
      have hp : m.pprev n = .NULL := hok.resolve_left hn
      have e : (Op.hlist_del_init n).edit L = L := funext fun h =>
        List.erase_of_not_mem fun hm => hn ⟨h, hm⟩
      rw [e]
      exact ⟨m, hlist_del_init_unhashed hp, hA,
        keepsMarks_del rfl (.inl hp) (fun _ _ hl => hl) fun _ _ _ => rfl⟩
  | hlist_move_list old new =>
    obtain ⟨hne, hnew⟩ := hok
    obtain ⟨m', h1, h2, h3⟩ := spec_hlist_move_list hA hne hnew
    refine ⟨m', h1, h2, fun Q k h0 _ hk => ?_⟩
    have hk := hk.resolve_right nofun
    by_cases hl : OnList L k
    · left
      obtain ⟨h, hm⟩ := hl
      by_cases ho : h = old
      · subst ho; exact ⟨new, by simpa [Op.edit] using hm⟩
      · have hn : h ≠ new := by rintro rfl; rw [hnew] at hm; cases hm
        exact ⟨h, by simpa [Op.edit, ho, hn] using hm⟩
    · exact .inr (h3 k (off_iff.2 hl) ▸ hk.resolve_left hl)

/-! ## A run -/

/-- A run of allowed calls does not fault, computes its edits, and keeps the
marks of the nodes it does not poison. -/
theorem agrees_run (hA : Agrees m L) (ops : List (Op H N)) (hok : Allowed m L ops) :
    ∃ m', run m ops = some m' ∧ Agrees m' (edits L ops) ∧
      ∀ (Q : Slot H N → Prop) k, Q .NULL → (.hlist_del k ∈ ops → Q .LIST_POISON2) →
        (Marked Q m L k ∨ ∃ op ∈ ops, op.adds = some k) → Marked Q m' (edits L ops) k := by
  induction ops generalizing m L with
  | nil => exact ⟨m, rfl, hA, fun Q k _ _ hk => hk.resolve_right (by simp)⟩
  | cons op ops ih =>
    obtain ⟨m₁, h1, h2, h3⟩ := agrees_exec hA op hok.1
    obtain ⟨m', h4, h5, h6⟩ := ih h2 (hok.2 m₁ h1)
    refine ⟨m', by simp [run, h1, h4], h5, fun Q k h0 hp hk => h6 Q k h0 (fun hm => hp (List.mem_cons_of_mem _ hm)) ?_⟩
    have hop : op = .hlist_del k → Q .LIST_POISON2 := fun e => hp (e ▸ List.mem_cons_self)
    rcases hk with hk | ⟨op', hm, hk⟩
    · exact .inl (h3 Q k h0 hop (.inl hk))
    · rcases List.mem_cons.1 hm with rfl | hm
      · exact .inl (h3 Q k h0 hop (.inr hk))
      · exact .inr ⟨op', hm, hk⟩

/-! ## What a program sees -/

theorem hlist_unhashed_iff (hA : Agrees m L) (hk : Marked (· = .NULL) m L k) :
    hlist_unhashed m k = true ↔ Off L k := by
  rw [hlist_unhashed, decide_eq_true_eq]
  constructor
  · intro hp h hm
    obtain ⟨u, v, hL⟩ := List.append_of_mem hm
    rw [hA.pprev_mid hL] at hp
    rcases cellAt_cases h u with e | ⟨y, _, e⟩ <;> rw [e] at hp <;> cases hp
  · exact fun ho => hk.resolve_left (off_iff.1 ho)

theorem hlist_is_singular_node_iff (hA : Agrees m L)
    (hk : Marked (fun s => s = .NULL ∨ s = .LIST_POISON2) m L k) :
    hlist_is_singular_node m k h = true ↔ L h = [k] := by
  rw [hlist_is_singular_node, decide_eq_true_eq]
  constructor
  · rintro ⟨hn, hp⟩
    -- a node on no list holds NULL or a poison, never the address of a head
    have hl : OnList L k := by
      by_contra hl
      rcases hk.resolve_left hl with e | e <;> rw [e] at hp <;> cases hp
    obtain ⟨h', hm⟩ := hl
    obtain ⟨u, v, hL⟩ := List.append_of_mem hm
    rw [hA.pprev_mid hL, cellAt_eq_linkOf] at hp
    rw [hA.next_mid hL] at hn
    rcases List.eq_nil_or_concat u with rfl | ⟨u, x, rfl⟩
    · obtain rfl := Slot.first.inj hp
      cases v with
      | nil => simpa using hL
      | cons z v => cases hn
    · simp [linkOf] at hp
  · intro hL
    exact ⟨hA.next_mid (u := []) (v := []) hL, hA.pprev_mid (u := []) (v := []) hL⟩

/-- Start with empty heads and any nodes, and make any allowed calls. No call faults.
Afterwards each chain is the edited sequence, ending in NULL; no node is on two chains
or twice on one; each chained node's `pprev` is the address of the link that leads to
it; and the tests answer for the sequences, on every node that was initialised or
added. -/
theorem hlist_runs_refine (m : Mem H N) (hm : ∀ h, m.first h = .NULL) (ops : List (Op H N))
    (hok : Allowed m (fun _ => []) ops) :
    ∃ m', run m ops = some m' ∧
      let L := edits (fun _ => []) ops
      let known := fun n => m.pprev n = .NULL ∨ ∃ op ∈ ops, op.adds = some n
      (∀ h fuel, (L h).length < fuel → hlist_for_each look fuel m' h = some (m', L h, .NULL)) ∧
      (∀ h, (L h).Nodup) ∧ (∀ h k, h ≠ k → List.Disjoint (L h) (L k)) ∧
      (∀ h u n v, L h = u ++ n :: v → m'.pprev n = linkOf h u ∧ m'.load (m'.pprev n) = some (.node n)) ∧
      (∀ n h, known n → (hlist_is_singular_node m' n h = true ↔ L h = [n])) ∧
      ∀ n, known n → .hlist_del n ∉ ops → (hlist_unhashed m' n = true ↔ ∀ h, n ∉ L h) := by
  obtain ⟨m', h1, h2, h3⟩ := agrees_run (agrees_init hm) ops hok
  refine ⟨m', h1, fun h fuel hf => h2.for_each h hf, h2.separate.nodup, fun h k hne n hn hn' =>
    hne (h2.separate.disjoint h k n hn hn'), fun h u n v hL => ?_, fun n h hk => ?_, fun n hk hd => ?_⟩
  · have hc := (hL ▸ h2.chain h).to_mid
    rw [hc.2]
    exact ⟨cellAt_eq_linkOf h u, hc.1⟩
  · exact hlist_is_singular_node_iff h2 (h3 _ n (.inl rfl) (fun _ => .inr rfl) (hk.imp (.inr <| .inl ·) id))
  · exact hlist_unhashed_iff h2 (h3 _ n rfl (fun hm => absurd hm hd) (hk.imp (.inr ·) id))

/-- Two heads and nodes `0, 1, 2`, all fields NULL. -/
def blank : Mem Bool (Fin 3) := ⟨fun _ => .NULL, fun _ => .NULL, fun _ => .NULL⟩

/-- Nodes are added, one goes, and the rest moves to another head. -/
theorem hlist_runs_refine_move :
    ∃ m', run blank [.hlist_add_head 1 true, .hlist_add_behind 2 1, .hlist_add_before 0 2, .hlist_del 2,
        .hlist_del_init 0, .hlist_move_list true false] = some m' ∧
      hlist_is_singular_node m' 1 false = true ∧ hlist_unhashed m' 0 = true ∧ hlist_unhashed m' 1 = false := by
  obtain ⟨m', h1, -, -, -, -, h2, h3⟩ := hlist_runs_refine blank (fun _ => rfl)
    [.hlist_add_head 1 true, .hlist_add_behind 2 1, .hlist_add_before 0 2, .hlist_del 2,
        .hlist_del_init 0, .hlist_move_list true false] (by
      simp [Allowed, Op.ok, Op.okWhen, Op.edit, Off, OnList, Lib.graft])
  refine ⟨m', h1, (h2 1 false (.inl rfl)).2 ?_, (h3 0 (.inl rfl) (by simp)).2 ?_, ?_⟩
  · decide
  · decide
  · rw [Bool.eq_false_iff, ne_eq, h3 1 (.inl rfl) (by simp)]
    decide

end SiteCode.Hlist
