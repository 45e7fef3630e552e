import SiteCode.ListHead.Writes
/-!
# What runs leave alone

A processor works on the lists and spares a node: it neither adds nor deletes nor
moves it. While the node is an entry, its neighbours may come and go, but every single
write leaves its links on other nodes. While it is on no list, no write goes to it.
-/

namespace SiteCode.ListHead

open Lib ListHead.Lists

/-! ## Sparing a node -/

/-- The nodes that an operation adds, deletes, moves, replaces or initialises. -/
def Op.handles (L : Lists) : Op → List Addr
  | .LIST_HEAD name => [name]
  | .INIT_LIST_HEAD list => [list]
  | .list_add new _ | .list_add_tail new _ => [new]
  | .list_del entry | .list_del_init entry => [entry]
  | .list_move list _ | .list_move_tail list _ => [list]
  | .list_replace old new | .list_replace_init old new => [old, new]
  | .list_rotate_left head => (entriesOf L head).take 1
  | .list_splice_init list _ | .list_splice_tail_init list _ => [list]

/-- A head that is initialised in use, or filled by a cut, loses its entries. -/
def Call.handles (L : Lists) : Call → List Addr
  | .op o => o.handles L
  | .INIT_LIST_HEAD list => list :: entriesOf L list
  | .list_splice list _ | .list_splice_tail list _ => [list]
  | .list_cut_position list _ _ | .list_cut_before list _ _ => list :: entriesOf L list

/-- Calls that may be made and that leave the node `e` to itself. Its neighbours may change. -/
def Lists.spares (e : Addr) (L : Lists) : List Call → Bool
  | [] => true
  | c :: cs => c.ok L && (e ∉ c.handles L) && Lists.spares e (c.edit L) cs

variable {m : Mem} {L : Lists} {e : Addr}

/-! ## Nodes under an edit -/

theorem mem_addAfter {p x : Addr} {ys : List Addr} {r : Addr × List Addr} :
    x ∈ (addAfter p ys r).2 ↔ x ∈ r.2 ∨ p ∈ r.1 :: r.2 ∧ x ∈ ys := by
  unfold addAfter
  by_cases hp : r.1 = p
  · simp [hp, or_comm]
  · simp only [if_neg hp, mem_graft, List.mem_cons, Ne.symm hp, false_or]
    by_cases hx : x = p
    · subst hx
      tauto
    · simp [hx]

theorem mem_addBefore {p x : Addr} {ys : List Addr} {r : Addr × List Addr} :
    x ∈ (addBefore p ys r).2 ↔ x ∈ r.2 ∨ p ∈ r.1 :: r.2 ∧ x ∈ ys := by
  unfold addBefore
  by_cases hp : r.1 = p
  · simp [hp]
  · simp only [if_neg hp, mem_graft, List.mem_cons, Ne.symm hp, false_or, List.mem_append]
    by_cases hx : x = p
    · subst hx
      tauto
    · simp [hx]

theorem mem_entries_map {f : Addr × List Addr → Addr × List Addr} {r : Addr × List Addr} (hr : r ∈ L)
    (he : e ∈ (f r).2) : e ∈ entries (L.map f) :=
  mem_entries.2 ⟨f r, List.mem_map_of_mem hr, he⟩

/-- A splice takes the entries along. -/
theorem mem_entries_splice (hA : Agrees m L) {list p : Addr} (hp : p ∈ members L) (hpk : p ∉ list :: entriesOf L list)
    {f : Addr × List Addr → Addr × List Addr}
    (hf : ∀ x r, x ∈ (f r).2 ↔ x ∈ r.2 ∨ p ∈ r.1 :: r.2 ∧ x ∈ entriesOf L list) (he : e ∈ entries L) :
    e ∈ entries ((L.map (clear list)).map f) := by
  obtain ⟨r, hr, hx⟩ := mem_entries.1 he
  by_cases hrl : r.1 = list
  · -- the list that is emptied
    obtain ⟨r', hr', hp'⟩ := mem_members.1 hp
    have hys : entriesOf L list = r.2 := hrl ▸ hA.entriesOf hr
    have hne : r'.1 ≠ list := by
      intro h
      have hys' : entriesOf L list = r'.2 := h ▸ hA.entriesOf hr'
      rw [hys', ← h] at hpk
      exact hpk hp'
    have hclear : clear list r' = r' := if_neg hne
    refine mem_entries_map (List.mem_map_of_mem hr') ?_
    rw [hclear, hf]
    exact .inr ⟨hp', hys ▸ hx⟩
  · have hclear : clear list r = r := if_neg hrl
    refine mem_entries_map (List.mem_map_of_mem hr) ?_
    rw [hclear, hf]
    exact .inl hx

theorem mem_entries_remove {x : Addr} (he : e ∈ entries L) (hne : e ≠ x) : e ∈ entries (L.map (remove x)) := by
  obtain ⟨r, hr, hx⟩ := mem_entries.1 he
  exact mem_entries_map hr ((List.mem_erase_of_ne hne).2 hx)

/-- Entries stay where others are put next to them. -/
theorem mem_entries_add {p : Addr} {ys : List Addr} {f : Addr × List Addr → Addr × List Addr}
    (hf : ∀ x r, x ∈ (f r).2 ↔ x ∈ r.2 ∨ p ∈ r.1 :: r.2 ∧ x ∈ ys) (he : e ∈ entries L) : e ∈ entries (L.map f) := by
  obtain ⟨r, hr, hx⟩ := mem_entries.1 he
  exact mem_entries_map hr ((hf _ _).2 (.inl hx))

/-- A spared entry stays one. -/
theorem mem_entries_edit (hA : Agrees m L) (op : Op) (hok : op.ok L = true) (he : e ∈ entries L)
    (hh : e ∉ op.handles L) : e ∈ entries (op.edit L) := by
  obtain ⟨r, hr, hx⟩ := mem_entries.1 he
  cases op <;> simp only [Op.ok, decide_eq_true_eq] at hok <;>
    simp only [Op.handles, List.mem_cons, List.not_mem_nil, or_false, not_or] at hh
  case LIST_HEAD name => exact mem_entries.2 ⟨r, List.mem_cons_of_mem _ hr, hx⟩
  case INIT_LIST_HEAD list => exact mem_entries.2 ⟨r, List.mem_cons_of_mem _ hr, hx⟩
  case list_add new head => exact mem_entries_add (fun _ _ => mem_addAfter) he
  case list_add_tail new head => exact mem_entries_add (fun _ _ => mem_addBefore) he
  case list_del entry => exact mem_entries_remove he hh
  case list_del_init entry => exact mem_entries_remove he hh
  case list_move list head => exact mem_entries_add (fun _ _ => mem_addAfter) (mem_entries_remove he hh)
  case list_move_tail list head => exact mem_entries_add (fun _ _ => mem_addBefore) (mem_entries_remove he hh)
  case list_replace old new =>
    refine mem_entries_map hr (List.mem_map.2 ⟨e, hx, if_neg hh.1⟩)
  case list_replace_init old new =>
    have hmap : e ∈ entries (L.map (subst old new)) := mem_entries_map hr (List.mem_map.2 ⟨e, hx, if_neg hh.1⟩)
    simp only [Op.edit]
    split
    · obtain ⟨r', hr', hx'⟩ := mem_entries.1 hmap
      exact mem_entries.2 ⟨r', List.mem_cons_of_mem _ hr', hx'⟩
    · exact hmap
  case list_rotate_left head =>
    refine mem_entries_map hr ?_
    unfold rotate
    split
    · exact List.mem_rotate.2 hx
    · exact hx
  case list_splice_init list head => exact mem_entries_splice hA hok.2.1 hok.2.2 (fun _ _ => mem_addAfter) he
  case list_splice_tail_init list head => exact mem_entries_splice hA hok.2.1 hok.2.2 (fun _ _ => mem_addBefore) he

theorem mem_entries_forget (hA : Agrees m L) {k : Addr} (hk : e ∉ entriesOf L k) (he : e ∈ entries L) :
    e ∈ entries (forget k L) := by
  obtain ⟨r, hr, hx⟩ := mem_entries.1 he
  have hne : r.1 ≠ k := by
    rintro rfl
    exact hk ((hA.entriesOf hr).symm ▸ hx)
  exact mem_entries.2 ⟨r, List.mem_filter.2 ⟨hr, by simpa using hne⟩, hx⟩

/-- A splice that gives up its head takes the entries along as well. -/
theorem mem_entries_splice_stale {m' : Mem} (hA : Agrees m L) {list p : Addr} (hl : list ∈ heads L)
    (hp : p ∈ members L) (hpk : p ∉ list :: entriesOf L list) {f : Addr × List Addr → Addr × List Addr}
    (hhead : ∀ r, (f r).1 = r.1) (hf : ∀ x r, x ∈ (f r).2 ↔ x ∈ r.2 ∨ p ∈ r.1 :: r.2 ∧ x ∈ entriesOf L list)
    (hA' : Agrees m' ((L.map (clear list)).map f)) (he : e ∈ entries L) :
    e ∈ entries (forget list ((L.map (clear list)).map f)) := by
  refine mem_entries_forget hA' (fun hm => ?_) (mem_entries_splice hA hp hpk hf he)
  -- the list of the given up head has no entries left
  have hrow : f (list, []) ∈ (L.map (clear list)).map f := by
    have hclear : clear list (list, Lists.entriesOf L list) = (list, []) := if_pos rfl
    exact hclear ▸ List.mem_map_of_mem (List.mem_map_of_mem (hA.mem_of_head hl))
  have hpair : (list, (f (list, [])).2) = f (list, []) := Prod.ext (hhead (list, [])).symm rfl
  have hent := hA'.entriesOf (by rw [hpair]; exact hrow)
  rw [hent, hf] at hm
  rcases hm with hm | hm
  · cases hm
  · exact hpk (List.mem_cons.2 (.inl (List.mem_singleton.1 hm.1)))

/-- A cut keeps the entries of the list that is cut, on the one side or the other. -/
theorem mem_entries_cut (hA : Agrees m L) {list head : Addr} {front : List Addr → List Addr}
    (hfront : front (entriesOf L head) <+: entriesOf L head) (hl : e ∉ entriesOf L list) (he : e ∈ entries L) :
    e ∈ entries (cut list head front L) := by
  obtain ⟨r, hr, hx⟩ := mem_entries.1 (mem_entries_forget hA hl he)
  by_cases hh : r.1 = head
  · have hxs : entriesOf L head = r.2 := hh ▸ hA.entriesOf (List.mem_filter.1 hr).1
    obtain ⟨rest, hrest⟩ := hfront
    rw [← hxs, ← hrest] at hx
    rcases List.mem_append.1 hx with hx | hx
    · exact mem_entries.2 ⟨_, List.mem_cons_self, hx⟩
    · refine mem_entries.2 ⟨_, List.mem_cons_of_mem _ (List.mem_map.2 ⟨r, hr, if_pos hh⟩), ?_⟩
      have hdrop : (entriesOf L head).drop (front (entriesOf L head)).length = rest :=
        (congrArg (List.drop _) hrest).symm.trans List.drop_left
      exact hdrop ▸ hx
  · exact mem_entries.2 ⟨r, List.mem_cons_of_mem _ (List.mem_map.2 ⟨r, hr, if_neg hh⟩), hx⟩

theorem mem_entries_call (hA : Agrees m L) (c : Call) (hok : c.ok L = true) (he : e ∈ entries L)
    (hh : e ∉ c.handles L) : e ∈ entries (c.edit L) := by
  cases c <;> simp only [Call.ok, decide_eq_true_eq] at hok <;>
    simp only [Call.handles, List.mem_cons, List.not_mem_nil, or_false, not_or] at hh
  case op o => exact mem_entries_edit hA o hok he hh
  case INIT_LIST_HEAD list =>
    obtain ⟨r, hr, hx⟩ := mem_entries.1 (mem_entries_forget hA hh.2 he)
    exact mem_entries.2 ⟨r, List.mem_cons_of_mem _ hr, hx⟩
  case list_splice list head =>
    obtain ⟨hl, hp, hpl⟩ := hok
    simp only [Call.edit]
    split
    · exact he
    · exact mem_entries_splice_stale hA hl hp hpl (fun _ => rfl) (fun _ _ => mem_addAfter)
        (agrees_list_splice_init hA hl hp hpl) he
  case list_splice_tail list head =>
    obtain ⟨hl, hp, hpl⟩ := hok
    simp only [Call.edit]
    split
    · exact he
    · exact mem_entries_splice_stale hA hl hp hpl (fun _ => rfl) (fun _ _ => mem_addBefore)
        (agrees_list_splice_tail_init hA hl hp hpl) he
  case list_cut_position list head entry =>
    simp only [Call.edit]
    split
    · exact he
    · refine mem_entries_cut hA ?_ hh.2 he
      split
      · exact List.nil_prefix
      · exact through_isPrefix _ _
  case list_cut_before list head entry => exact mem_entries_cut hA (List.takeWhile_prefix _) hh.2 he

/-! ## What an operation writes to an entry -/

theorem Agrees.link_mem (hA : Agrees m L) (he : e ∈ members L) (f : Field) : m.cell (f, e) ∈ members L := by
  obtain ⟨r, hr, hm⟩ := mem_members.1 he
  have hring := hA.rings r hr
  cases f
  · exact mem_members.2 ⟨r, hr, (hring.prev_next e hm).1⟩
  · exact mem_members.2 ⟨r, hr, (hring.next_prev e hm).1⟩

/-- An entry does not point to itself. -/
theorem Agrees.link_ne (hA : Agrees m L) (he : e ∈ entries L) (f : Field) : m.cell (f, e) ≠ e := by
  obtain ⟨⟨h, xs⟩, hr, hm⟩ := mem_entries.1 he
  have hring := hA.rings _ hr
  have hd := hA.nodup_list hr
  obtain ⟨u, v, rfl⟩ := List.append_of_mem hm
  have hp : (h :: (u ++ e :: v)).Perm (e :: (h :: (u ++ v))) := (List.perm_middle.cons h).trans (.swap e h _)
  have hn := (List.nodup_cons.1 (hp.nodup_iff.1 hd)).1
  simp only [List.mem_cons, List.mem_append, not_or] at hn
  cases f
  · change m.next e ≠ e
    intro hs
    have hz := headOf_mem v h
    rw [← hring.next_mem, hs, List.mem_cons] at hz
    exact hz.elim hn.1 hn.2.2
  · change m.prev e ≠ e
    intro hs
    have hx := lastOf_mem h u
    rw [← hring.prev_mem, hs, List.mem_cons] at hx
    exact hx.elim hn.1 hn.2.1

/-- The links of `e` lead to other nodes while `ws` is written. -/
def Steady (e : Addr) (m : Mem) (ws : List Write) : Prop := ∀ f, Throughout (· ≠ e) (f, e) m.cell ws

/-- Every field of `e` is written once at most. -/
def Once (e : Addr) (ws : List Write) : Prop := ∀ f, ws.countP (fun w => w.1 = (f, e)) ≤ 1

theorem Steady.append {ws ws' : List Write} (h : Steady e m ws) (h' : Steady e (m.writes ws) ws') :
    Steady e m (ws ++ ws') := by
  intro f
  refine (h f).append ?_
  rw [← Mem.cell_writes]
  exact h' f

/-- An entry before and after. -/
theorem Once.steady {ws : List Write} {L' : Lists} (h : Once e ws) (hA : Agrees m L) (he : e ∈ entries L)
    (hA' : Agrees (m.writes ws) L') (he' : e ∈ entries L') : Steady e m ws := by
  intro f
  refine .of_once (hA.link_ne he f) ?_ (h f)
  rw [← Mem.cell_writes]
  exact hA'.link_ne he' f

theorem once_nil (e : Addr) : Once e [] := fun _ => Nat.zero_le _

theorem Once.append {ws ws' : List Write} (h : Once e ws) (h' : ∀ w ∈ ws', w.1.2 ≠ e) : Once e (ws ++ ws') := by
  intro f
  have hzero : ws'.countP (fun w => w.1 = (f, e)) = 0 := by
    rw [List.countP_eq_zero]
    intro w hw hc
    exact h' w hw (by rw [of_decide_eq_true hc])
  rw [List.countP_append, hzero]
  exact h f

theorem once_raw_list_add {new prev next : Addr} (hne : new ≠ e) : Once e (__list_add.writes new prev next) := by
  intro f
  cases f <;> simp [__list_add.writes, setNext, setPrev, List.countP_cons, hne] <;> split <;> omega

theorem once_raw_list_del (prev next : Addr) : Once e (__list_del.writes prev next) := by
  intro f
  cases f <;> simp [__list_del.writes, setNext, setPrev, List.countP_cons] <;> split <;> omega

theorem once_list_replace {old new : Addr} (hne : new ≠ e) : Once e (list_replace.writes m old new) := by
  intro f
  simp only [list_replace.writes]
  generalize (if old = m.next old then new else m.prev old) = prev
  cases f <;> simp [setNext, setPrev, List.countP_cons, hne] <;> split <;> omega

theorem once_raw_list_splice {list prev next : Addr} (hn : m.next list ≠ next) (hp : m.prev list ≠ prev) :
    Once e (__list_splice.writes m list prev next) := by
  intro f
  cases f
  · by_cases h : prev = e
    · simp [__list_splice.writes, setNext, setPrev, h, h ▸ hp]
    · simp [__list_splice.writes, setNext, setPrev, List.countP_cons, h]
      split <;> omega
  · by_cases h : next = e
    · simp [__list_splice.writes, setNext, setPrev, h, h ▸ hn]
    · simp [__list_splice.writes, setNext, setPrev, List.countP_cons, h]
      split <;> omega

theorem init_writes_ne {list : Addr} (hne : list ≠ e) : ∀ w ∈ INIT_LIST_HEAD.writes list, w.1.2 ≠ e := by
  simp [INIT_LIST_HEAD.writes, setNext, setPrev, hne]

/-- The ends of a list that is spliced are not those of the gap it goes to. -/
theorem Agrees.splice_apart (hA : Agrees m L) {list p : Addr} (hl : list ∈ heads L) (hp : p ∈ members L)
    (hpl : p ∉ list :: Lists.entriesOf L list) (f : Field) :
    m.cell (f, list) ≠ p ∧ m.cell (f, list) ≠ m.next p ∧ m.cell (f, list) ≠ m.prev p := by
  have hrow := hA.mem_of_head hl
  have hring := hA.rings _ hrow
  have hin : m.cell (f, list) ∈ list :: Lists.entriesOf L list := by
    cases f
    · exact (hring.prev_next _ List.mem_cons_self).1
    · exact (hring.next_prev _ List.mem_cons_self).1
  obtain ⟨r, hr, hpr⟩ := mem_members.1 hp
  have hnext := ((hA.rings r hr).prev_next p hpr).1
  have hprev := ((hA.rings r hr).next_prev p hpr).1
  have hout : ∀ a ∈ r.1 :: r.2, m.cell (f, list) ≠ a := by
    rintro a ha rfl
    obtain rfl := hA.eq_of_mem hrow hr hin ha
    exact hpl hpr
  exact ⟨hout p hpr, hout _ hnext, hout _ hprev⟩

/-- The first entry of a list that has one. -/
theorem Agrees.first (hA : Agrees m L) {head : Addr} (hh : head ∈ heads L) (hempty : (!list_empty m head) = true) :
    (Lists.entriesOf L head).take 1 = [m.next head] ∧ m.next head ∈ entries L := by
  have hrow := hA.mem_of_head hh
  have hring := hA.rings _ hrow
  rw [hring.next_head]
  have hne : Lists.entriesOf L head ≠ [] := by
    rw [Ne, ← list_empty_iff hA hh]
    simpa using hempty
  obtain ⟨x, t, hx⟩ := List.exists_cons_of_ne_nil hne
  rw [hx] at hrow ⊢
  exact ⟨rfl, mem_entries.2 ⟨_, hrow, List.mem_cons_self⟩⟩

theorem steady_nil (hA : Agrees m L) (he : e ∈ entries L) : Steady e m [] :=
  (once_nil e).steady hA he hA he

/-- A move takes its node off first. -/
theorem steady_move {n next prev : Addr} {L' : Lists} (hA : Agrees m L) (hn : n ∈ entries L) (he : e ∈ entries L)
    (hne : e ≠ n) (hA' : Agrees (__list_add (__list_del_entry m n) n prev next) L') (he' : e ∈ entries L') :
    Steady e m (__list_del_entry.writes m n ++ __list_add.writes n prev next) := by
  have hdel := (agrees_raw_list_del_entry hA hn).1
  have hmid := mem_entries_remove he hne
  refine ((once_raw_list_del _ _).steady hA he hdel hmid).append ?_
  exact (once_raw_list_add hne.symm).steady hdel hmid hA' he'

/-- An operation that spares an entry keeps its links off it all the time. -/
theorem steady_op (hA : Agrees m L) (op : Op) (hok : op.ok L = true) (he : e ∈ entries L) (hh : e ∉ op.handles L) :
    Steady e m (op.writes m) := by
  have hA' := agrees_exec hA op hok
  have he' := mem_entries_edit hA op hok he hh
  rw [← writes_exec] at hA'
  have hin := entries_subset he
  cases op <;> simp only [Op.ok, decide_eq_true_eq] at hok <;>
    simp only [Op.handles, List.mem_cons, List.not_mem_nil, or_false, not_or] at hh
  case LIST_HEAD name =>
    have hne : name ≠ e := fun h => hok (h ▸ hin)
    exact ((once_nil e).append (init_writes_ne hne)).steady hA he hA' he'
  case INIT_LIST_HEAD list =>
    have hne : list ≠ e := fun h => hok (h ▸ hin)
    exact ((once_nil e).append (init_writes_ne hne)).steady hA he hA' he'
  case list_add new head => exact (once_raw_list_add (Ne.symm hh)).steady hA he hA' he'
  case list_add_tail new head => exact (once_raw_list_add (Ne.symm hh)).steady hA he hA' he'
  case list_del entry =>
    refine Once.steady (.append (once_raw_list_del _ _) ?_) hA he hA' he'
    simp [setNext, setPrev, Ne.symm hh]
  case list_del_init entry =>
    exact Once.steady (.append (once_raw_list_del _ _) (init_writes_ne (Ne.symm hh))) hA he hA' he'
  case list_move list head =>
    rw [writes_exec] at hA'
    exact steady_move hA hok.1 he hh hA' he'
  case list_move_tail list head =>
    rw [writes_exec] at hA'
    exact steady_move hA hok.1 he hh hA' he'
  case list_replace old new => exact (once_list_replace (Ne.symm hh.2)).steady hA he hA' he'
  case list_replace_init old new =>
    exact Once.steady (.append (once_list_replace (Ne.symm hh.2)) (init_writes_ne (Ne.symm hh.1))) hA he hA' he'
  case list_rotate_left head =>
    rw [writes_exec] at hA'
    change Agrees (list_rotate_left m head) _ at hA'
    change Steady e m (list_rotate_left.writes m head)
    unfold list_rotate_left at hA'
    unfold list_rotate_left.writes
    by_cases hempty : (!list_empty m head) = true
    · rw [if_pos hempty] at hA' ⊢
      obtain ⟨hfirst, hent⟩ := hA.first hok hempty
      rw [hfirst, List.mem_singleton] at hh
      exact steady_move hA hent he hh hA' he'
    · rw [if_neg hempty]
      exact steady_nil hA he
  case list_splice_init list head =>
    obtain ⟨hl, hp, hpl⟩ := hok
    change Agrees (m.writes (list_splice_init.writes m list head)) _ at hA'
    change Steady e m (list_splice_init.writes m list head)
    unfold list_splice_init.writes at hA' ⊢
    by_cases hempty : (!list_empty m list) = true
    · rw [if_pos hempty] at hA' ⊢
      have hn := (hA.splice_apart hl hp hpl .next).2.1
      have hp := (hA.splice_apart hl hp hpl .prev).1
      exact Once.steady (.append (once_raw_list_splice hn hp) (init_writes_ne (Ne.symm hh))) hA he hA' he'
    · rw [if_neg hempty]
      exact steady_nil hA he
  case list_splice_tail_init list head =>
    obtain ⟨hl, hp, hpl⟩ := hok
    change Agrees (m.writes (list_splice_tail_init.writes m list head)) _ at hA'
    change Steady e m (list_splice_tail_init.writes m list head)
    unfold list_splice_tail_init.writes at hA' ⊢
    by_cases hempty : (!list_empty m list) = true
    · rw [if_pos hempty] at hA' ⊢
      have hn := (hA.splice_apart hl hp hpl .next).1
      have hp := (hA.splice_apart hl hp hpl .prev).2.2
      exact Once.steady (.append (once_raw_list_splice hn hp) (init_writes_ne (Ne.symm hh))) hA he hA' he'
    · rw [if_neg hempty]
      exact steady_nil hA he

theorem once_list_splice (hA : Agrees m L) {list head : Addr} (hl : list ∈ heads L) (hp : head ∈ members L)
    (hpl : head ∉ list :: entriesOf L list) :
    Once e (list_splice.writes m list head) ∧ Once e (list_splice_tail.writes m list head) := by
  obtain ⟨hfirst, hfirst', -⟩ := hA.splice_apart hl hp hpl .next
  obtain ⟨hlast, -, hlast'⟩ := hA.splice_apart hl hp hpl .prev
  unfold list_splice.writes list_splice_tail.writes
  split
  · exact ⟨once_raw_list_splice hfirst' hlast, once_raw_list_splice hfirst hlast'⟩
  · exact ⟨once_nil e, once_nil e⟩

section
variable {list head entry : Addr} (hA : Agrees m L) (hh : head ∈ heads L) (hentry : entry ∈ head :: entriesOf L head)
  (hle : list ≠ e)
include hA hh hentry hle

theorem once_list_cut_position : Once e (list_cut_position.writes m list head entry) := by
  unfold list_cut_position.writes
  split
  · exact once_nil e
  split
  · exact once_nil e
  split
  · exact (once_nil e).append (init_writes_ne hle)
  · have hring := hA.rings _ (hA.mem_of_head hh)
    have hne : entry ≠ head := by simpa using ‹¬ (entry == head) = true›
    have hnext : m.next head ≠ m.next entry := by
      intro h
      exact hne ((hring.prev_next _ hentry).2.symm.trans (h ▸ (hring.prev_next _ List.mem_cons_self).2))
    intro f
    cases f
    · by_cases hx : entry = e
      · subst hx
        simp [__list_cut_position.writes, setNext, setPrev, hle, Ne.symm hne]
      · simp [__list_cut_position.writes, setNext, setPrev, List.countP_cons, hle, hx]
        split <;> omega
    · by_cases hx : m.next head = e
      · subst hx
        simp [__list_cut_position.writes, setNext, setPrev, hle, Ne.symm hnext]
      · simp [__list_cut_position.writes, setNext, setPrev, List.countP_cons, hle, hx]
        split <;> omega

theorem once_list_cut_before : Once e (list_cut_before.writes m list head entry) := by
  unfold list_cut_before.writes
  split
  · exact (once_nil e).append (init_writes_ne hle)
  · have hring := hA.rings _ (hA.mem_of_head hh)
    have hfirst : m.next head ≠ entry := by simpa using ‹¬ (m.next head == entry) = true›
    have hprev : m.prev entry ≠ head := fun h => hfirst (h ▸ (hring.next_prev _ hentry).2)
    intro f
    cases f
    · by_cases hx : m.prev entry = e
      · subst hx
        simp [setNext, setPrev, hle, Ne.symm hprev]
      · simp [setNext, setPrev, List.countP_cons, hle, hx]
        split <;> omega
    · by_cases hx : m.next head = e
      · subst hx
        simp [setNext, setPrev, hle, Ne.symm hfirst]
      · simp [setNext, setPrev, List.countP_cons, hle, hx]
        split <;> omega

end

/-- So does every other call. -/
theorem steady_call (hA : Agrees m L) (c : Call) (hok : c.ok L = true) (he : e ∈ entries L) (hh : e ∉ c.handles L) :
    Steady e m (c.writes m) := by
  have hA' := agrees_call hA c hok
  have he' := mem_entries_call hA c hok he hh
  rw [← writes_call] at hA'
  cases c <;> simp only [Call.ok, decide_eq_true_eq] at hok <;>
    simp only [Call.handles, List.mem_cons, List.not_mem_nil, or_false, not_or] at hh
  case op o => exact steady_op hA o hok he hh
  case INIT_LIST_HEAD list => exact ((once_nil e).append (init_writes_ne (Ne.symm hh.1))).steady hA he hA' he'
  case list_splice list head => exact (once_list_splice hA hok.1 hok.2.1 hok.2.2).1.steady hA he hA' he'
  case list_splice_tail list head => exact (once_list_splice hA hok.1 hok.2.1 hok.2.2).2.steady hA he hA' he'
  case list_cut_position list head entry =>
    exact (once_list_cut_position hA hok.2.2.1 hok.2.2.2 (Ne.symm hh.1)).steady hA he hA' he'
  case list_cut_before list head entry =>
    exact (once_list_cut_before hA hok.2.2.1 hok.2.2.2 (Ne.symm hh.1)).steady hA he hA' he'

/-- A run that spares an entry keeps its links off it all the time. -/
theorem steady_run (hA : Agrees m L) (he : e ∈ entries L) (cs : List Call) (h : Lists.spares e L cs = true) :
    Steady e m (runWrites m cs) ∧ Agrees (m.calls cs) (cs.foldl Call.edit L) ∧ e ∈ entries (cs.foldl Call.edit L) := by
  induction cs generalizing m L with
  | nil => exact ⟨steady_nil hA he, hA, he⟩
  | cons c cs ih =>
    simp only [Lists.spares, Bool.and_eq_true, decide_eq_true_eq] at h
    obtain ⟨⟨hok, hh⟩, hcs⟩ := h
    obtain ⟨hsteady, hrest⟩ := ih (agrees_call hA c hok) (mem_entries_call hA c hok he hh) hcs
    refine ⟨(steady_call hA c hok he hh).append ?_, hrest⟩
    rwa [writes_call]

/-! ## What an operation writes to a node that is on no list -/

theorem members_map_subset {f : Addr × List Addr → Addr × List Addr}
    (hf : ∀ r ∈ L, e ∈ (f r).1 :: (f r).2 → e ∈ r.1 :: r.2) (he : e ∉ members L) : e ∉ members (L.map f) := by
  intro hm
  obtain ⟨r', hr', hm'⟩ := mem_members.1 hm
  obtain ⟨r, hr, rfl⟩ := List.mem_map.1 hr'
  exact he (mem_members.2 ⟨r, hr, hf r hr hm'⟩)

theorem not_mem_remove (n : Addr) (he : e ∉ members L) : e ∉ members (L.map (remove n)) := by
  refine members_map_subset (fun r _ hm => ?_) he
  exact List.mem_cons.2 ((List.mem_cons.1 hm).imp_right List.mem_of_mem_erase)

theorem not_mem_add {p : Addr} {ys : List Addr} {f : Addr × List Addr → Addr × List Addr} (hhead : ∀ r, (f r).1 = r.1)
    (hf : ∀ x r, x ∈ (f r).2 ↔ x ∈ r.2 ∨ p ∈ r.1 :: r.2 ∧ x ∈ ys) (hy : e ∉ ys) (he : e ∉ members L) :
    e ∉ members (L.map f) := by
  refine members_map_subset (fun r _ hm => ?_) he
  rw [hhead] at hm
  exact List.mem_cons.2 ((List.mem_cons.1 hm).imp_right fun h => ((hf _ _).1 h).resolve_right fun hp => hy hp.2)

theorem not_mem_addAfter (p : Addr) {ys : List Addr} (hy : e ∉ ys) (he : e ∉ members L) :
    e ∉ members (L.map (addAfter p ys)) :=
  not_mem_add (fun _ => rfl) (fun _ _ => mem_addAfter) hy he

theorem not_mem_addBefore (p : Addr) {ys : List Addr} (hy : e ∉ ys) (he : e ∉ members L) :
    e ∉ members (L.map (addBefore p ys)) :=
  not_mem_add (fun _ => rfl) (fun _ _ => mem_addBefore) hy he

theorem not_mem_subst (old : Addr) {new : Addr} (hne : e ≠ new) (he : e ∉ members L) :
    e ∉ members (L.map (subst old new)) := by
  refine members_map_subset (fun r _ hm => ?_) he
  obtain ⟨x, hx, rfl⟩ : ∃ x ∈ r.1 :: r.2, (if x = old then new else x) = e := by
    rwa [← List.mem_map]
  split at hne
  · exact absurd rfl hne
  · rw [if_neg ‹_›]
    exact hx

theorem not_mem_clear (k : Addr) (he : e ∉ members L) : e ∉ members (L.map (clear k)) := by
  refine members_map_subset (fun r _ hm => ?_) he
  unfold clear at hm
  split at hm
  · exact List.mem_cons.2 (.inl (List.mem_singleton.1 hm))
  · exact hm

/-- The entries of a head are on its list. -/
theorem not_mem_entriesOf (hA : Agrees m L) {k : Addr} (hk : k ∈ heads L) (he : e ∉ members L) : e ∉ entriesOf L k :=
  fun hm => he (mem_members.2 ⟨_, hA.mem_of_head hk, List.mem_cons_of_mem _ hm⟩)

/-- A node stays off the lists until it is handled. -/
theorem not_mem_edit (hA : Agrees m L) (op : Op) (hok : op.ok L = true) (he : e ∉ members L) (hh : e ∉ op.handles L) :
    e ∉ members (op.edit L) := by
  cases op <;> simp only [Op.ok, decide_eq_true_eq] at hok <;>
    simp only [Op.handles, List.mem_cons, List.not_mem_nil, or_false, not_or] at hh
  case LIST_HEAD name => simpa [Op.edit, hh] using he
  case INIT_LIST_HEAD list => simpa [Op.edit, hh] using he
  case list_add new head => exact not_mem_addAfter _ (by simpa using hh) he
  case list_add_tail new head => exact not_mem_addBefore _ (by simpa using hh) he
  case list_del entry => exact not_mem_remove _ he
  case list_del_init entry => exact not_mem_remove _ he
  case list_move list head => exact not_mem_addAfter _ (by simpa using hh) (not_mem_remove _ he)
  case list_move_tail list head => exact not_mem_addBefore _ (by simpa using hh) (not_mem_remove _ he)
  case list_replace old new => exact not_mem_subst old hh.2 he
  case list_replace_init old new =>
    have hsub := not_mem_subst old hh.2 he
    simp only [Op.edit]
    split
    · simpa [hh.1] using hsub
    · exact hsub
  case list_rotate_left head =>
    refine members_map_subset (fun r _ hm => ?_) he
    unfold rotate at hm
    split at hm
    · exact List.mem_cons.2 ((List.mem_cons.1 hm).imp_right List.mem_rotate.1)
    · exact hm
  case list_splice_init list head => exact not_mem_addAfter _ (not_mem_entriesOf hA hok.1 he) (not_mem_clear _ he)
  case list_splice_tail_init list head =>
    exact not_mem_addBefore _ (not_mem_entriesOf hA hok.1 he) (not_mem_clear _ he)

theorem not_mem_given_up (k : Addr) (he : e ∉ members L) : e ∉ members (forget k L) := by
  intro hm
  obtain ⟨r, hr, hx⟩ := mem_members.1 hm
  exact he (mem_members.2 ⟨r, (List.mem_filter.1 hr).1, hx⟩)

theorem not_mem_cut (hA : Agrees m L) {list head : Addr} (hh : head ∈ heads L) {front : List Addr → List Addr}
    (hfront : front (entriesOf L head) <+: entriesOf L head) (hl : e ≠ list) (he : e ∉ members L) :
    e ∉ members (cut list head front L) := by
  have hent := not_mem_entriesOf hA hh he
  have hhead : e ≠ head := fun h => he (mem_members.2 ⟨_, hA.mem_of_head hh, h ▸ List.mem_cons_self⟩)
  unfold cut
  rw [members_cons, List.mem_append, List.mem_cons, not_or, not_or]
  refine ⟨⟨hl, fun hm => hent (hfront.subset hm)⟩, members_map_subset (fun r _ hm => ?_) (not_mem_given_up list he)⟩
  split at hm
  · rcases List.mem_cons.1 hm with hm | hm
    · exact absurd hm hhead
    · exact absurd (List.mem_of_mem_drop hm) hent
  · exact hm

theorem not_mem_call (hA : Agrees m L) (c : Call) (hok : c.ok L = true) (he : e ∉ members L) (hh : e ∉ c.handles L) :
    e ∉ members (c.edit L) := by
  cases c <;> simp only [Call.ok, decide_eq_true_eq] at hok <;>
    simp only [Call.handles, List.mem_cons, List.not_mem_nil, or_false, not_or] at hh
  case op o => exact not_mem_edit hA o hok he hh
  case INIT_LIST_HEAD list => simpa [Call.edit, hh.1] using not_mem_given_up list he
  case list_splice list head =>
    have hsplice := not_mem_addAfter head (not_mem_entriesOf hA hok.1 he) (not_mem_clear list he)
    simp only [Call.edit]
    split
    · exact he
    · exact not_mem_given_up list hsplice
  case list_splice_tail list head =>
    have hsplice := not_mem_addBefore head (not_mem_entriesOf hA hok.1 he) (not_mem_clear list he)
    simp only [Call.edit]
    split
    · exact he
    · exact not_mem_given_up list hsplice
  case list_cut_position list head entry =>
    simp only [Call.edit]
    split
    · exact he
    · refine not_mem_cut hA hok.2.2.1 ?_ hh.1 he
      split
      · exact List.nil_prefix
      · exact through_isPrefix _ _
  case list_cut_before list head entry => exact not_mem_cut hA hok.2.2.1 (List.takeWhile_prefix _) hh.1 he

/-- No write goes to the node `e`. -/
def Untouched (e : Addr) (ws : List Write) : Prop := ∀ w ∈ ws, w.1.2 ≠ e

theorem untouched_nil (e : Addr) : Untouched e [] := fun _ h => nomatch h

theorem Untouched.append {ws ws' : List Write} (h : Untouched e ws) (h' : Untouched e ws') : Untouched e (ws ++ ws') :=
  fun w hw => (List.mem_append.1 hw).elim (h w) (h' w)

theorem untouched_raw_list_add {new prev next : Addr} (h₁ : new ≠ e) (h₂ : prev ≠ e) (h₃ : next ≠ e) :
    Untouched e (__list_add.writes new prev next) := by
  simp [Untouched, __list_add.writes, setNext, setPrev, h₁, h₂, h₃]

theorem untouched_raw_list_del {prev next : Addr} (h₁ : prev ≠ e) (h₂ : next ≠ e) :
    Untouched e (__list_del.writes prev next) := by
  simp [Untouched, __list_del.writes, setNext, setPrev, h₁, h₂]

theorem untouched_list_replace {old new : Addr} (h₁ : new ≠ e) (h₂ : m.next old ≠ e) (h₃ : m.prev old ≠ e) :
    Untouched e (list_replace.writes m old new) := by
  have hprev : (if old = m.next old then new else m.prev old) ≠ e := by
    split
    · exact h₁
    · exact h₃
  simp [Untouched, list_replace.writes, setNext, setPrev, h₁, h₂, hprev]

theorem untouched_raw_list_splice {list prev next : Addr} (h₁ : m.next list ≠ e) (h₂ : m.prev list ≠ e) (h₃ : prev ≠ e)
    (h₄ : next ≠ e) : Untouched e (__list_splice.writes m list prev next) := by
  simp [Untouched, __list_splice.writes, setNext, setPrev, h₁, h₂, h₃, h₄]

theorem heads_subset (hA : Agrees m L) {k : Addr} (hk : k ∈ heads L) : k ∈ members L :=
  mem_members.2 ⟨_, hA.mem_of_head hk, List.mem_cons_self⟩

section
variable (hA : Agrees m L) (he : e ∉ members L)
include hA he

theorem Agrees.member_ne {n : Addr} (hn : n ∈ members L) : n ≠ e ∧ m.next n ≠ e ∧ m.prev n ≠ e :=
  ⟨fun h => he (h ▸ hn), fun h => he (h ▸ hA.link_mem hn .next), fun h => he (h ▸ hA.link_mem hn .prev)⟩

theorem untouched_raw_list_del_entry {n : Addr} (hn : n ∈ entries L) : Untouched e (__list_del_entry.writes m n) := by
  obtain ⟨-, hnext, hprev⟩ := hA.member_ne he (entries_subset hn)
  exact untouched_raw_list_del hprev hnext

theorem untouched_list_move {n p : Addr} (hn : n ∈ entries L) (hp : p ∈ members L) (hne : n ≠ p) :
    Untouched e (list_move.writes m n p) ∧ Untouched e (list_move_tail.writes m n p) := by
  have hoff := untouched_raw_list_del_entry hA he hn
  have hn' := (hA.member_ne he (entries_subset hn)).1
  obtain ⟨hp', hnext, hprev⟩ :=
    (agrees_raw_list_del_entry hA hn).1.member_ne (not_mem_remove n he) (members_remove hp hne)
  exact ⟨hoff.append (untouched_raw_list_add hn' hp' hnext), hoff.append (untouched_raw_list_add hn' hprev hp')⟩

theorem untouched_splice_stale {list p : Addr} (hl : list ∈ members L) (hp : p ∈ members L) :
    Untouched e (list_splice.writes m list p) ∧ Untouched e (list_splice_tail.writes m list p) := by
  obtain ⟨-, hfirst, hlast⟩ := hA.member_ne he hl
  obtain ⟨hp', hnext, hprev⟩ := hA.member_ne he hp
  unfold list_splice.writes list_splice_tail.writes
  split
  · exact ⟨untouched_raw_list_splice hfirst hlast hp' hnext, untouched_raw_list_splice hfirst hlast hprev hp'⟩
  · exact ⟨untouched_nil e, untouched_nil e⟩

theorem untouched_splice {list p : Addr} (hl : list ∈ members L) (hp : p ∈ members L) :
    Untouched e (list_splice_init.writes m list p) ∧ Untouched e (list_splice_tail_init.writes m list p) := by
  obtain ⟨hlist, hfirst, hlast⟩ := hA.member_ne he hl
  obtain ⟨hp', hnext, hprev⟩ := hA.member_ne he hp
  unfold list_splice_init.writes list_splice_tail_init.writes
  split
  · have hinit : Untouched e (INIT_LIST_HEAD.writes list) := init_writes_ne hlist
    exact ⟨(untouched_raw_list_splice hfirst hlast hp' hnext).append hinit,
      (untouched_raw_list_splice hfirst hlast hprev hp').append hinit⟩
  · exact ⟨untouched_nil e, untouched_nil e⟩

/-- A node that is on no list is left alone until it is handled. -/
theorem untouched_op (op : Op) (hok : op.ok L = true) (hh : e ∉ op.handles L) : Untouched e (op.writes m) := by
  cases op <;> simp only [Op.ok, decide_eq_true_eq] at hok <;>
    simp only [Op.handles, List.mem_cons, List.not_mem_nil, or_false, not_or] at hh
  case LIST_HEAD name => exact init_writes_ne (Ne.symm hh)
  case INIT_LIST_HEAD list => exact init_writes_ne (Ne.symm hh)
  case list_add new head =>
    obtain ⟨hhead, hnext, -⟩ := hA.member_ne he hok.2
    exact untouched_raw_list_add (Ne.symm hh) hhead hnext
  case list_add_tail new head =>
    obtain ⟨hhead, -, hprev⟩ := hA.member_ne he hok.2
    exact untouched_raw_list_add (Ne.symm hh) hprev hhead
  case list_del entry =>
    refine (untouched_raw_list_del_entry hA he hok).append ?_
    simp [Untouched, setNext, setPrev, Ne.symm hh]
  case list_del_init entry => exact (untouched_raw_list_del_entry hA he hok).append (init_writes_ne (Ne.symm hh))
  case list_move list head => exact (untouched_list_move hA he hok.1 hok.2.1 hok.2.2).1
  case list_move_tail list head => exact (untouched_list_move hA he hok.1 hok.2.1 hok.2.2).2
  case list_replace old new =>
    obtain ⟨-, hnext, hprev⟩ := hA.member_ne he hok.1
    exact untouched_list_replace (Ne.symm hh.2) hnext hprev
  case list_replace_init old new =>
    obtain ⟨-, hnext, hprev⟩ := hA.member_ne he hok.1
    exact (untouched_list_replace (Ne.symm hh.2) hnext hprev).append (init_writes_ne (Ne.symm hh.1))
  case list_rotate_left head =>
    change Untouched e (list_rotate_left.writes m head)
    unfold list_rotate_left.writes
    split
    · obtain ⟨-, hent⟩ := hA.first hok ‹_›
      have hhead := heads_subset hA hok
      have hne : m.next head ≠ head := by simpa [list_empty] using ‹(!list_empty m head) = true›
      exact (untouched_list_move hA he hent hhead hne).2
    · exact untouched_nil e
  case list_splice_init list head => exact (untouched_splice hA he (heads_subset hA hok.1) hok.2.1).1
  case list_splice_tail_init list head => exact (untouched_splice hA he (heads_subset hA hok.1) hok.2.1).2

theorem untouched_call (c : Call) (hok : c.ok L = true) (hh : e ∉ c.handles L) : Untouched e (c.writes m) := by
  cases c <;> simp only [Call.ok, decide_eq_true_eq] at hok <;>
    simp only [Call.handles, List.mem_cons, List.not_mem_nil, or_false, not_or] at hh
  case op o => exact untouched_op hA he o hok hh
  case INIT_LIST_HEAD list => exact init_writes_ne (Ne.symm hh.1)
  case list_splice list head => exact (untouched_splice_stale hA he (heads_subset hA hok.1) hok.2.1).1
  case list_splice_tail list head => exact (untouched_splice_stale hA he (heads_subset hA hok.1) hok.2.1).2
  case list_cut_position list head entry =>
    obtain ⟨-, -, hhead, hentry⟩ := hok
    obtain ⟨hhead', hfirst, -⟩ := hA.member_ne he (heads_subset hA hhead)
    obtain ⟨hentry', hnext, -⟩ := hA.member_ne he (mem_members.2 ⟨_, hA.mem_of_head hhead, hentry⟩)
    have hlist := Ne.symm hh.1
    change Untouched e (list_cut_position.writes m list head entry)
    unfold list_cut_position.writes
    split
    · exact untouched_nil e
    split
    · exact untouched_nil e
    split
    · exact init_writes_ne hlist
    · simp [Untouched, __list_cut_position.writes, setNext, setPrev, hlist, hhead', hfirst, hentry', hnext]
  case list_cut_before list head entry =>
    obtain ⟨-, -, hhead, hentry⟩ := hok
    obtain ⟨hhead', hfirst, -⟩ := hA.member_ne he (heads_subset hA hhead)
    obtain ⟨hentry', -, hprev⟩ := hA.member_ne he (mem_members.2 ⟨_, hA.mem_of_head hhead, hentry⟩)
    have hlist := Ne.symm hh.1
    change Untouched e (list_cut_before.writes m list head entry)
    unfold list_cut_before.writes
    split
    · exact init_writes_ne hlist
    · simp [Untouched, setNext, setPrev, hlist, hhead', hfirst, hentry', hprev]

/-- A run that spares a node which is on no list does not write to it. -/
theorem untouched_run (cs : List Call) (h : Lists.spares e L cs = true) : Untouched e (runWrites m cs) := by
  induction cs generalizing m L with
  | nil => exact untouched_nil e
  | cons c cs ih =>
    simp only [Lists.spares, Bool.and_eq_true, decide_eq_true_eq] at h
    obtain ⟨⟨hok, hh⟩, hcs⟩ := h
    have hrest := ih (agrees_call hA c hok) (not_mem_call hA c hok he hh) hcs
    exact (untouched_call hA he c hok hh).append hrest

end

end SiteCode.ListHead
