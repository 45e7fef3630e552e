import SiteCode.Hlist.Runs
/-!
# Runs with nodes on no list

`Runs.lean` says what the chains hold. Here the fields of every other node are
followed too: a node on no list was initialised, poisoned or made to seem listed by
`hlist_add_fake`, or nothing is known of it. So a run may begin with any nodes, as
long as its heads are empty.
-/

namespace SiteCode.Hlist

open Lib

variable {H N : Type}

/-- The fields of a node on no list. -/
inductive Mark where
  | any
  /-- `INIT_HLIST_NODE`, `hlist_del_init` -/
  | null
  /-- `hlist_del` -/
  | poison
  /-- `hlist_add_fake` -/
  | fake
  deriving DecidableEq, Repr

def Mark.holds (m : Mem H N) (n : N) : Mark → Prop
  | any => True
  | null => m.next n = .NULL ∧ m.pprev n = .NULL
  | poison => m.next n = .LIST_POISON1 ∧ m.pprev n = .LIST_POISON2
  | fake => m.next n = .NULL ∧ m.pprev n = .next n

/-- The lists, and the marks of the nodes on none. -/
structure State (H N : Type) where
  lists : Lists H N
  marks : N → Mark

/-- Memory `m` holds the state `S`. -/
structure Holds (m : Mem H N) (S : State H N) : Prop where
  agrees : Agrees m S.lists
  marks : ∀ n, Off S.lists n → (S.marks n).holds m n

/-- Before anything is added: nothing is known of the nodes. -/
def State.init : State H N := ⟨fun _ => [], fun _ => .any⟩

variable {m m' : Mem H N} {S : State H N} {L : Lists H N} {n k : N} {h : H}

theorem holds_init (hm : ∀ h, m.first h = .NULL) : Holds m State.init := ⟨agrees_init hm, fun _ _ => trivial⟩

theorem marks_of_same (hm : m'.next k = m.next k ∧ m'.pprev k = m.pprev k) {a : Mark} (ha : a.holds m k) :
    a.holds m' k := by
  cases a with
  | any => trivial
  | null | poison | fake => exact ⟨hm.1.trans ha.1, hm.2.trans ha.2⟩

/-- A node with the mark of a NULL `pprev` has one, or is on a list. -/
theorem ok_of_okWhen (hS : Holds m S) {op : Op H N} (hok : op.okWhen (S.marks · = .null) S.lists) :
    op.ok m S.lists := by
  cases op with
  | hlist_del_init n =>
    by_cases hn : OnList S.lists n
    · exact .inl hn
    · have hmark := hS.marks n (off_iff.2 hn)
      rw [hok.resolve_left hn] at hmark
      exact .inr hmark.2
  | _ => exact hok

/-! ## Links and nodes on no list -/

/-- No link leads to a node on no list. -/
theorem Agrees.first_ne (hA : Agrees m L) (hk : Off L k) (h : H) : m.first h ≠ .node k := by
  have hfirst : m.first h = ptrTo (L h) := Option.some.inj (load_of_chain (hA.chain h))
  rw [hfirst]
  intro e
  cases hL : L h with
  | nil => simp [hL] at e
  | cons x v =>
    rw [hL, ptrTo_cons, Ptr.node.injEq] at e
    exact hk h (by simp [hL, e])

theorem Agrees.next_ne (hA : Agrees m L) (hk : Off L k) (hn : OnList L n) : m.next n ≠ .node k := by
  obtain ⟨h, hm⟩ := hn
  obtain ⟨u, v, hL⟩ := List.append_of_mem hm
  rw [hA.next_mid hL]
  intro e
  cases v with
  | nil => cases e
  | cons z v =>
    rw [ptrTo_cons, Ptr.node.injEq] at e
    exact hk h (by simp [hL, e])

theorem Agrees.pprev_ne (hA : Agrees m L) (hk : Off L k) (hn : OnList L n) : m.pprev n ≠ .next k := by
  obtain ⟨h, hm⟩ := hn
  obtain ⟨u, v, hL⟩ := List.append_of_mem hm
  rw [hA.pprev_mid hL]
  rcases cellAt_cases h u with e | ⟨y, hy, e⟩
  · rw [e]
    nofun
  · rw [e]
    intro e'
    exact hk h (by simp [hL, ← Slot.next.inj e', hy])

/-- A listed node's `pprev` is the address of a head or of another node's link. -/
theorem Agrees.pprev_listed (hA : Agrees m L) (hn : OnList L n) :
    m.pprev n ≠ .NULL ∧ m.pprev n ≠ .next n := by
  obtain ⟨h, hm⟩ := hn
  obtain ⟨u, v, hL⟩ := List.append_of_mem hm
  have hnd := hL ▸ hA.separate.nodup h
  rw [hA.pprev_mid hL]
  rcases cellAt_cases h u with e | ⟨y, hy, e⟩
  · rw [e]
    exact ⟨nofun, nofun⟩
  · rw [e]
    refine ⟨nofun, fun e' => ?_⟩
    exact (List.nodup_append.1 hnd).2.2 y hy n List.mem_cons_self (Slot.next.inj e')

/-- Writing the fields of a node on no list. -/
theorem agrees_off_node (hA : Agrees m L) (hn : Off L n) (hfirst : m'.first = m.first)
    (hframe : ∀ k, k ≠ n → m'.next k = m.next k ∧ m'.pprev k = m.pprev k) : Agrees m' L := by
  refine ⟨hA.separate, fun h => (hA.chain h).congr ?_ ?_⟩
  all_goals
    have hcell : ∀ c : Slot H N, (c = .first h ∨ ∃ y ∈ L h, c = .next y) → m'.load c = m.load c := by
      rintro c (rfl | ⟨y, hy, rfl⟩)
      · simp [Mem.load, hfirst]
      · have hyn : y ≠ n := by
          rintro rfl
          exact hn h hy
        simp [Mem.load, (hframe y hyn).1]
  · rintro p hp ⟨h1, h2⟩
    obtain ⟨h3, h4⟩ := mem_links hp
    have hpn : p.2 ≠ n := fun e => hn h (e ▸ h4)
    exact ⟨(hcell _ h3).trans h1, ((hframe _ hpn).2).trans h2⟩
  · exact fun hl => (hcell _ (cellAt_cases h (L h))).trans hl

theorem fixPprev_frame [DecidableEq N] {p : Ptr N} {s : Slot H N} (hx : m.fixPprev p s = some m') (hp : p ≠ .node k) :
    m'.next k = m.next k ∧ m'.pprev k = m.pprev k := by
  cases p with
  | NULL =>
    cases hx
    exact ⟨rfl, rfl⟩
  | node y =>
    cases hx
    have hky : k ≠ y := fun e => hp (e ▸ rfl)
    exact ⟨rfl, if_neg hky⟩
  | LIST_POISON1 => cases hx

/-- Lists without `n` are not edited by its deletion. -/
theorem erase_off [DecidableEq N] (hn : Off L n) : (fun h => (L h).erase n) = L :=
  funext fun h => List.erase_of_not_mem (hn h)

/-! ## Calls -/

/-- A call of any hlist function that writes. -/
inductive Call (H N : Type) where
  | op (op : Op H N)
  | INIT_HLIST_HEAD (h : H)
  | INIT_HLIST_NODE (h : N)
  | hlist_add_fake (n : N)
  deriving DecidableEq, Repr

variable [DecidableEq H] [DecidableEq N]

namespace Call

/-- When a call may be made. A head may be in use; deletions also take fake nodes. -/
def ok (S : State H N) : Call H N → Prop
  | op o => o.okWhen (S.marks · = .null) S.lists ∨ ∃ n, S.marks n = .fake ∧ (o = .hlist_del n ∨ o = .hlist_del_init n)
  | INIT_HLIST_HEAD _ => True
  | INIT_HLIST_NODE h => Off S.lists h
  | hlist_add_fake n => Off S.lists n ∧ (S.marks n = .null ∨ S.marks n = .fake)

/-- What a call does to the mark of a node. -/
def mark : Call H N → Option (N × Mark)
  | op (.hlist_del n) => some (n, .poison)
  | op (.hlist_del_init n) => some (n, .null)
  | INIT_HLIST_NODE h => some (h, .null)
  | hlist_add_fake n => some (n, .fake)
  | _ => none

/-- A node that leaves its list gets the mark of the call. The nodes that
`INIT_HLIST_HEAD` drops keep links of which nothing is promised. -/
def edit (S : State H N) (c : Call H N) : State H N where
  lists :=
    match c with
    | op o => o.edit S.lists
    | INIT_HLIST_HEAD h => Function.update S.lists h []
    | _ => S.lists
  marks :=
    match c with
    | INIT_HLIST_HEAD h => fun n => if n ∈ S.lists h then .any else S.marks n
    | _ => c.mark.elim S.marks fun p => Function.update S.marks p.1 p.2

def exec (m : Mem H N) : Call H N → Option (Mem H N)
  | op o => o.exec m
  | INIT_HLIST_HEAD h => some (Hlist.INIT_HLIST_HEAD m h)
  | INIT_HLIST_NODE h => some (Hlist.INIT_HLIST_NODE m h)
  | hlist_add_fake n => some (Hlist.hlist_add_fake m n)

end Call

def calls (m : Mem H N) : List (Call H N) → Option (Mem H N)
  | [] => some m
  | c :: cs => (c.exec m).bind fun m => calls m cs

def State.edits (S : State H N) (cs : List (Call H N)) : State H N := cs.foldl Call.edit S

/-- Every call of a sequence may be made. -/
def Callable (S : State H N) : List (Call H N) → Prop
  | [] => True
  | c :: cs => c.ok S ∧ Callable (c.edit S) cs

/-! ## What a call leaves alone -/

theorem store_frame {s : Slot H N} {p : Ptr N} (hx : m.store s p = some m') (hs : s ≠ .next k) :
    m'.next k = m.next k ∧ m'.pprev k = m.pprev k := by
  cases s with
  | first h =>
    cases hx
    exact ⟨rfl, rfl⟩
  | next y =>
    cases hx
    have hky : k ≠ y := fun e => hs (e ▸ rfl)
    exact ⟨if_neg hky, rfl⟩
  | NULL | LIST_POISON2 => cases hx

/-- Deleting a listed node. -/
theorem del_frame (hA : Agrees m L) (hn : OnList L n) (hk : Off L k) (hx : __hlist_del m n = some m') :
    m'.next k = m.next k ∧ m'.pprev k = m.pprev k := by
  obtain ⟨m₁, h1, h2⟩ := Option.bind_eq_some_iff.1 hx
  have hstore := store_frame h1 (hA.pprev_ne hk hn)
  have hfix := fixPprev_frame h2 (hA.next_ne hk hn)
  exact ⟨hfix.1.trans hstore.1, hfix.2.trans hstore.2⟩

/-- The node that a call is about. -/
def Op.node : Op H N → Option N
  | hlist_add_head n _ | hlist_add_before n _ | hlist_add_behind n _ | hlist_del n | hlist_del_init n => some n
  | hlist_move_list _ _ => none

/-- A call writes to no other node that is on no list. -/
theorem exec_frame (hA : Agrees m L) (op : Op H N) (hok : op.ok m L) (hx : op.exec m = some m') (hk : Off L k)
    (hne : op.node ≠ some k) : m'.next k = m.next k ∧ m'.pprev k = m.pprev k := by
  cases op with
  | hlist_add_head n h =>
    have hkn : k ≠ n := fun e => hne (e ▸ rfl)
    obtain ⟨m₁, h1, h2⟩ := Option.bind_eq_some_iff.1 hx
    cases h2
    have hfix := fixPprev_frame h1 (hA.first_ne hk h)
    simpa [hkn] using hfix
  | hlist_add_before n next =>
    have hkn : k ≠ n := fun e => hne (e ▸ rfl)
    obtain ⟨hoff, hnext⟩ := hok
    have hkx : k ≠ next := fun e => off_iff.1 hk (e ▸ hnext)
    have hnx : n ≠ next := fun e => off_iff.1 hoff (e ▸ hnext)
    have hcell :
        (((m.setPprev n (m.pprev next)).setNext n (.node next)).setPprev next (.next n)).pprev n ≠ .next k := by
      simpa [hnx] using hA.pprev_ne hk hnext
    have hstore := store_frame (p := .node n) hx hcell
    simpa [hkn, hkx] using hstore
  | hlist_add_behind n prev =>
    have hkn : k ≠ n := fun e => hne (e ▸ rfl)
    obtain ⟨hoff, hprev⟩ := hok
    have hkp : k ≠ prev := fun e => off_iff.1 hk (e ▸ hprev)
    have hnp : n ≠ prev := fun e => off_iff.1 hoff (e ▸ hprev)
    have hptr : (((m.setNext n (m.next prev)).setNext prev (.node n)).setPprev n (.next prev)).next n ≠ .node k := by
      simpa [hnp] using hA.next_ne hk hprev
    have hfix := fixPprev_frame hx hptr
    simpa [hkn, hkp] using hfix
  | hlist_del n =>
    have hkn : k ≠ n := fun e => hne (e ▸ rfl)
    obtain ⟨m₁, h1, h2⟩ := Option.bind_eq_some_iff.1 hx
    cases h2
    simpa [hkn] using del_frame hA hok hk h1
  | hlist_del_init n =>
    have hkn : k ≠ n := fun e => hne (e ▸ rfl)
    by_cases hp : m.pprev n = .NULL
    · have hsame : some m = some m' := (hlist_del_init_unhashed hp).symm.trans hx
      cases hsame
      exact ⟨rfl, rfl⟩
    · obtain ⟨m₁, h1, rfl⟩ : ∃ m₁, __hlist_del m n = some m₁ ∧ Hlist.INIT_HLIST_NODE m₁ n = m' := by
        simpa [Op.exec, Hlist.hlist_del_init, hlist_unhashed, hp, Option.bind_eq_some_iff] using hx
      simpa [Hlist.INIT_HLIST_NODE, hkn] using del_frame hA (hok.resolve_right hp) hk h1
  | hlist_move_list old new =>
    obtain ⟨m₁, h1, h2⟩ := Option.bind_eq_some_iff.1 hx
    cases h2
    have hptr : (m.setFirst new (m.first old)).first new ≠ .node k := by
      simpa using hA.first_ne hk old
    have hfix := fixPprev_frame h1 hptr
    simpa using hfix

/-! ## One call -/

theorem mem_graft_of_mem {p : N} {g xs : List N} (hg : p ∈ g) (hk : k ∈ xs) : k ∈ graft p g xs := by
  rw [mem_graft]
  by_cases hkp : k = p
  · exact .inr ⟨hkp ▸ hk, hkp ▸ hg⟩
  · exact .inl ⟨hk, hkp⟩

/-- A call takes no other node off its list. -/
theorem onList_edit (op : Op H N) (hok : op.ok m L) (hne : op.node ≠ some k) (hk : OnList L k) :
    OnList (op.edit L) k := by
  cases op with
  | hlist_add_head n h => exact onList_update (fun x hx => List.mem_cons_of_mem _ hx) k hk
  | hlist_add_before n next =>
    obtain ⟨h, hm⟩ := hk
    exact ⟨h, mem_graft_of_mem (by simp) hm⟩
  | hlist_add_behind n prev =>
    obtain ⟨h, hm⟩ := hk
    exact ⟨h, mem_graft_of_mem (by simp) hm⟩
  | hlist_del n => exact onList_erase (fun e => hne (e ▸ rfl)) hk
  | hlist_del_init n => exact onList_erase (fun e => hne (e ▸ rfl)) hk
  | hlist_move_list old new =>
    obtain ⟨hon, hnew⟩ := hok
    obtain ⟨h, hm⟩ := hk
    by_cases ho : h = old
    · subst ho
      exact ⟨new, by simpa [Op.edit] using hm⟩
    · have hn : h ≠ new := by
        rintro rfl
        rw [hnew] at hm
        cases hm
      exact ⟨h, by simpa [Op.edit, ho, hn] using hm⟩

/-- The node of a call is on a list afterwards, or has the mark of the call. -/
theorem op_marks (hS : Holds m S) (op : Op H N) (hok : op.okWhen (S.marks · = .null) S.lists)
    (hx : op.exec m = some m') (hnode : op.node = some k) (hk : Off (op.edit S.lists) k) :
    ((Call.edit S (.op op)).marks k).holds m' k := by
  cases op with
  | hlist_add_head n h =>
    cases hnode
    exact absurd (by simp [Op.edit]) (hk h)
  | hlist_add_before n next =>
    cases hnode
    obtain ⟨-, h, hm⟩ := hok
    exact absurd (List.mem_flatMap.2 ⟨next, hm, by simp⟩) (hk h)
  | hlist_add_behind n prev =>
    cases hnode
    obtain ⟨-, h, hm⟩ := hok
    exact absurd (List.mem_flatMap.2 ⟨prev, hm, by simp⟩) (hk h)
  | hlist_del n =>
    cases hnode
    obtain ⟨m₁, h1, h2⟩ := Option.bind_eq_some_iff.1 hx
    cases h2
    simp [Call.edit, Call.mark, Mark.holds]
  | hlist_del_init n =>
    cases hnode
    simp only [Call.edit, Call.mark, Option.elim_some, Function.update_self]
    by_cases hp : m.pprev k = .NULL
    · have hsame : some m = some m' := (hlist_del_init_unhashed hp).symm.trans hx
      cases hsame
      -- `pprev` is not NULL on a list
      have hoff : Off S.lists k := by
        rw [off_iff]
        rintro ⟨h, hm⟩
        obtain ⟨u, v, hL⟩ := List.append_of_mem hm
        rw [hS.agrees.pprev_mid hL] at hp
        rcases cellAt_cases h u with e | ⟨y, _, e⟩ <;> rw [e] at hp <;> cases hp
      have hmark := hS.marks k hoff
      rwa [hok.resolve_left (off_iff.1 hoff)] at hmark
    · obtain ⟨m₁, -, rfl⟩ : ∃ m₁, __hlist_del m k = some m₁ ∧ Hlist.INIT_HLIST_NODE m₁ k = m' := by
        simpa [Op.exec, Hlist.hlist_del_init, hlist_unhashed, hp, Option.bind_eq_some_iff] using hx
      simp [Hlist.INIT_HLIST_NODE, Mark.holds]
  | hlist_move_list old new => cases hnode

/-- An operation on the lists. -/
theorem holds_op (hS : Holds m S) (op : Op H N) (hok : op.okWhen (S.marks · = .null) S.lists) :
    ∃ m', op.exec m = some m' ∧ Holds m' (Call.edit S (.op op)) := by
  have hok' := ok_of_okWhen hS hok
  obtain ⟨m', h1, h2, -⟩ := agrees_exec hS.agrees op hok'
  refine ⟨m', h1, h2, fun k hk => ?_⟩
  by_cases hnode : op.node = some k
  · exact op_marks hS op hok h1 hnode hk
  · have hoff : Off S.lists k := off_iff.2 fun hon => off_iff.1 hk (onList_edit op hok' hnode hon)
    have hsame : (Call.edit S (.op op)).marks k = S.marks k := by
      cases op <;> simp only [Call.edit, Call.mark, Option.elim_none, Option.elim_some]
      all_goals
        apply Function.update_of_ne
        rintro rfl
        exact hnode rfl
    rw [hsame]
    exact marks_of_same (exec_frame hS.agrees op hok' h1 hoff hnode) (hS.marks k hoff)

/-- A call that writes to one node on no list only. -/
theorem holds_off_node {c : Call H N} {a : Mark} (hS : Holds m S) (hn : Off S.lists n)
    (hlists : (c.edit S).lists = S.lists) (hmarks : (c.edit S).marks = Function.update S.marks n a)
    (hfirst : m'.first = m.first) (hframe : ∀ k, k ≠ n → m'.next k = m.next k ∧ m'.pprev k = m.pprev k)
    (ha : a.holds m' n) : Holds m' (c.edit S) := by
  refine ⟨hlists ▸ agrees_off_node hS.agrees hn hfirst hframe, fun k hk => ?_⟩
  rw [hlists] at hk
  rw [hmarks]
  by_cases hkn : k = n
  · subst hkn
    rwa [Function.update_self]
  · rw [Function.update_of_ne hkn]
    exact marks_of_same (hframe k hkn) (hS.marks k hk)

/-- On a fake node a deletion only reads and writes the node itself. -/
theorem raw_hlist_del_fake (hn : Mark.fake.holds m n) : __hlist_del m n = some (m.setNext n .NULL) := by
  obtain ⟨h1, h2⟩ := hn
  simp [__hlist_del, h1, h2, Mem.store, Mem.fixPprev]

/-- Initialising a head: its nodes are forgotten, and all others keep their links. -/
theorem holds_INIT_HLIST_HEAD (hS : Holds m S) (h : H) :
    Holds (Hlist.INIT_HLIST_HEAD m h) (Call.edit S (.INIT_HLIST_HEAD h)) := by
  refine ⟨hS.agrees.empty_head h, fun k hk => ?_⟩
  by_cases hkh : k ∈ S.lists h
  · simp [Call.edit, hkh, Mark.holds]
  · have hoff : Off S.lists k := by
      intro h' hm
      have hne : h' ≠ h := fun e => hkh (e ▸ hm)
      have := hk h'
      simp only [Call.edit, Function.update_of_ne hne] at this
      exact this hm
    have hmarks : (Call.edit S (.INIT_HLIST_HEAD h)).marks k = S.marks k := if_neg hkh
    rw [hmarks]
    exact marks_of_same ⟨rfl, rfl⟩ (hS.marks k hoff)

/-- Deleting a fake node. -/
theorem holds_del_fake (hS : Holds m S) (hn : Off S.lists n) (hmark : S.marks n = .fake) {o : Op H N}
    (ho : o = .hlist_del n ∨ o = .hlist_del_init n) :
    ∃ m', o.exec m = some m' ∧ Holds m' (Call.edit S (.op o)) := by
  have hfake : Mark.fake.holds m n := hmark ▸ hS.marks n hn
  have hdel := raw_hlist_del_fake hfake
  rcases ho with rfl | rfl
  · refine ⟨((m.setNext n .NULL).setNext n .LIST_POISON1).setPprev n .LIST_POISON2, ?_,
      holds_off_node (n := n) (a := .poison) hS hn (erase_off hn) rfl rfl (fun k hk => ?_) ?_⟩
    · simp [Op.exec, Hlist.hlist_del, hdel]
    · simp [hk]
    · simp [Mark.holds]
  · have hu : hlist_unhashed m n = false := by simp [hlist_unhashed, hfake.2]
    refine ⟨Hlist.INIT_HLIST_NODE (m.setNext n .NULL) n, ?_,
      holds_off_node (n := n) (a := .null) hS hn (erase_off hn) rfl rfl (fun k hk => ?_) ?_⟩
    · simp [Op.exec, Hlist.hlist_del_init, hu, hdel]
    · simp [Hlist.INIT_HLIST_NODE, hk]
    · simp [Hlist.INIT_HLIST_NODE, Mark.holds]

theorem holds_call (hS : Holds m S) (c : Call H N) (hok : c.ok S) : ∃ m', c.exec m = some m' ∧ Holds m' (c.edit S) := by
  cases c with
  | INIT_HLIST_HEAD h => exact ⟨_, rfl, holds_INIT_HLIST_HEAD hS h⟩
  | INIT_HLIST_NODE n =>
    refine ⟨_, rfl, holds_off_node (n := n) (a := .null) hS hok rfl rfl rfl (fun k hk => ?_) ?_⟩
    · simp [Hlist.INIT_HLIST_NODE, hk]
    · simp [Hlist.INIT_HLIST_NODE, Mark.holds]
  | hlist_add_fake n =>
    refine ⟨_, rfl, holds_off_node (n := n) (a := .fake) hS hok.1 rfl rfl rfl (fun k hk => ?_) ?_⟩
    · simp [Hlist.hlist_add_fake, hk]
    · have hmark := hS.marks n hok.1
      have hnext : m.next n = .NULL := by
        rcases hok.2 with e | e <;> rw [e] at hmark <;> exact hmark.1
      simp [Hlist.hlist_add_fake, Mark.holds, hnext]
  | op o =>
    rcases hok with hok | ⟨n, hmark, ho⟩
    · exact holds_op hS o hok
    · by_cases hn : OnList S.lists n
      · -- a mark of earlier, before the node was added
        apply holds_op hS o
        rcases ho with rfl | rfl
        · exact hn
        · exact .inl hn
      · exact holds_del_fake hS (off_iff.2 hn) hmark ho

/-- A run of calls does not fault. -/
theorem holds_calls (hS : Holds m S) (cs : List (Call H N)) (hok : Callable S cs) :
    ∃ m', calls m cs = some m' ∧ Holds m' (S.edits cs) := by
  induction cs generalizing m S with
  | nil => exact ⟨m, rfl, hS⟩
  | cons c cs ih =>
    obtain ⟨m₁, h1, h2⟩ := holds_call hS c hok.1
    obtain ⟨m', h3, h4⟩ := ih h2 hok.2
    exact ⟨m', by simp [calls, h1, h3], h4⟩

/-! ## What a program sees -/

/-- On a list or with a mark: something is known of the node. -/
def Known (S : State H N) (n : N) : Prop := OnList S.lists n ∨ S.marks n ≠ .any

theorem Holds.unhashed_iff (hS : Holds m S) (hk : Known S n) :
    hlist_unhashed m n = true ↔ Off S.lists n ∧ S.marks n = .null := by
  rw [hlist_unhashed, decide_eq_true_eq]
  by_cases hn : OnList S.lists n
  · simp [(hS.agrees.pprev_listed hn).1, off_iff, hn]
  · have hmark := hS.marks n (off_iff.2 hn)
    have hany := hk.resolve_left hn
    rw [and_iff_right (off_iff.2 hn)]
    cases e : S.marks n with
    | any => exact absurd e hany
    | null | poison | fake =>
      rw [e] at hmark
      simp [hmark.2]

theorem Holds.fake_iff (hS : Holds m S) (hk : Known S n) :
    hlist_fake m n = true ↔ Off S.lists n ∧ S.marks n = .fake := by
  rw [hlist_fake, decide_eq_true_eq]
  by_cases hn : OnList S.lists n
  · simp [(hS.agrees.pprev_listed hn).2, off_iff, hn]
  · have hmark := hS.marks n (off_iff.2 hn)
    have hany := hk.resolve_left hn
    rw [and_iff_right (off_iff.2 hn)]
    cases e : S.marks n with
    | any => exact absurd e hany
    | null | poison | fake =>
      rw [e] at hmark
      simp [hmark.2]

/-- Start with empty heads and nodes of which nothing is known, and make any calls
that may be made. No call faults, a deletion of a fake node among them, and the
chains are the edited sequences. The tests tell listed, initialised and fake nodes
apart. -/
theorem hlist_calls_refine (m : Mem H N) (hm : ∀ h, m.first h = .NULL) (cs : List (Call H N))
    (hok : Callable State.init cs) :
    ∃ m', calls m cs = some m' ∧
      let S := State.init.edits cs
      (∀ h fuel, (S.lists h).length < fuel →
        hlist_for_each look fuel m' h = some (m', S.lists h, .NULL)) ∧
      (∀ h, hlist_empty m' h = true ↔ S.lists h = []) ∧
      ∀ n, Known S n →
        (hlist_unhashed m' n = true ↔ Off S.lists n ∧ S.marks n = .null) ∧
        (hlist_fake m' n = true ↔ Off S.lists n ∧ S.marks n = .fake) ∧
        ∀ h u v, S.lists h = u ++ n :: v → m'.load (m'.pprev n) = some (.node n) := by
  obtain ⟨m', h1, h2⟩ := holds_calls (holds_init hm) cs hok
  refine ⟨m', h1, fun h fuel hf => h2.agrees.for_each h hf, fun h => hlist_empty_iff h2.agrees h, fun n hn => ?_⟩
  refine ⟨h2.unhashed_iff hn, h2.fake_iff hn, fun h u v hL => ?_⟩
  have hmid := (hL ▸ h2.agrees.chain h).to_mid
  rw [hmid.2]
  exact hmid.1

/-- A fake node is deleted twice, initialised in between, and then added; its list
is initialised, and it is added once more. -/
theorem hlist_calls_refine_fake :
    ∃ m', calls (⟨fun _ => .NULL, fun _ => .node 1, fun _ => .next 0⟩ : Mem Unit (Fin 2))
        [.INIT_HLIST_NODE 0, .hlist_add_fake 0, .op (.hlist_del_init 0), .hlist_add_fake 0, .op (.hlist_del 0),
          .op (.hlist_add_head 0 ()), .INIT_HLIST_HEAD (), .op (.hlist_add_head 0 ()), .INIT_HLIST_NODE 1,
          .hlist_add_fake 1] = some m' ∧
      hlist_fake m' 0 = false ∧ hlist_fake m' 1 = true := by
  obtain ⟨m', h1, -, -, h2⟩ := hlist_calls_refine
    (⟨fun _ => .NULL, fun _ => .node 1, fun _ => .next 0⟩ : Mem Unit (Fin 2)) (fun _ => rfl)
    [.INIT_HLIST_NODE 0, .hlist_add_fake 0, .op (.hlist_del_init 0), .hlist_add_fake 0, .op (.hlist_del 0),
      .op (.hlist_add_head 0 ()), .INIT_HLIST_HEAD (), .op (.hlist_add_head 0 ()), .INIT_HLIST_NODE 1,
      .hlist_add_fake 1]
    (by simp [Callable, Call.ok, Call.edit, Call.mark, State.init, Off, Op.okWhen, Op.edit])
  refine ⟨m', h1, ?_, (h2 1 (.inr (by decide))).2.1.2 ⟨fun h => by cases h; decide, by decide⟩⟩
  rw [Bool.eq_false_iff, ne_eq, (h2 0 (.inl ⟨(), by decide⟩)).2.1]
  exact fun h => absurd (h.1 ()) (by decide)

end SiteCode.Hlist
