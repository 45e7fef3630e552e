import SiteCode.ListHead.Spared
/-!
# `list_empty_careful` without a lock

A processor asks whether an entry is off its list while another one, which holds the
lock of the lists, goes on working. As the comment in `list.h` has it, all that may
happen to the entry is `list_del_init`. Writes are seen in program order.
-/

namespace SiteCode.ListHead

open Lib ListHead.Lists

/-- `list_empty_careful(head)`, when `next` is read after `i` writes of the other processor and `prev` after `j`. -/
def list_empty_careful_at (m : Mem) (ws : List Write) (head : Addr) (i j : Nat) : Bool :=
  let next := (m.writes (ws.take i)).next head
  next == head && next == (m.writes (ws.take j)).prev head

variable {m : Mem} {L : Lists} {e : Addr}

/-! ## Reading next to a deletion -/

theorem Untouched.throughout {ws : List Write} (h : Untouched e ws) {P : Addr → Prop} {f : Field}
    {m : Field × Addr → Addr} (hs : P (m (f, e))) : Throughout P (f, e) m ws :=
  .of_not_written hs fun w hw hc => h w hw (by rw [hc])

/-- The writes of a run with a deletion in it. -/
theorem runWrites_del_init (m : Mem) (pre post : List Call) (e : Addr) :
    runWrites m (pre ++ .op (.list_del_init e) :: post) =
      runWrites m pre ++ __list_del_entry.writes (m.calls pre) e ++
        setNext e e :: setPrev e e :: runWrites (m.calls (pre ++ [.op (.list_del_init e)])) post := by
  rw [runWrites_append, runWrites, List.append_assoc]
  congr 1
  change list_del_init.writes (m.calls pre) e ++ _ = _
  unfold list_del_init.writes
  rw [List.append_assoc, Mem.calls, Mem.calls, List.foldl_append]
  rfl

section
variable {pre post : List Call} (hA : Agrees m L) (he : e ∈ entries L) (hpre : Lists.spares e L pre = true)
  (hpost : Lists.spares e ((pre.foldl Call.edit L).map (remove e)) post = true)
include hA he hpre

/-- Up to the writes to the entry itself, its links lead to other nodes. -/
theorem steady_before : Steady e m (runWrites m pre ++ __list_del_entry.writes (m.calls pre) e) := by
  obtain ⟨hsteady, hA₁, he₁⟩ := steady_run hA he pre hpre
  refine hsteady.append ?_
  rw [writes_run]
  refine fun f => Untouched.throughout ?_ (hA₁.link_ne he₁ f)
  exact untouched_raw_list_del (hA₁.link_ne he₁ .prev) (hA₁.link_ne he₁ .next)

include hpost

/-- After them, nothing is written to it. -/
theorem untouched_after : Untouched e (runWrites (m.calls (pre ++ [.op (.list_del_init e)])) post) := by
  obtain ⟨-, hA₁, he₁⟩ := steady_run hA he pre hpre
  obtain ⟨hoff, hnot⟩ := agrees_raw_list_del_entry hA₁ he₁
  have hA₂ := agrees_list_del_init hA₁ he₁
  rw [Mem.calls, List.foldl_append]
  exact untouched_run hA₂ hnot post hpost

/-- When `next` of the entry leads back to it, and when `prev` does. -/
theorem cells_at (i : Nat) :
    let n := (runWrites m pre ++ __list_del_entry.writes (m.calls pre) e).length
    let ws := runWrites m (pre ++ .op (.list_del_init e) :: post)
    ((m.writes (ws.take i)).next e = e ↔ n < i) ∧ ((m.writes (ws.take i)).prev e = e ↔ n + 1 < i) := by
  intro n ws
  have hbefore := steady_before hA he hpre
  have hafter := untouched_after hA he hpre hpost
  have hws : ws = _ := runWrites_del_init m pre post e
  generalize hws₁ : runWrites m pre ++ __list_del_entry.writes (m.calls pre) e = ws₁ at hbefore hws
  generalize runWrites (m.calls (pre ++ [.op (.list_del_init e)])) post = ws₂ at hafter hws
  have hn : n = ws₁.length := congrArg List.length hws₁
  rw [hws, hn]
  constructor
  · change (m.writes _).cell (.next, e) = e ↔ _
    rw [Mem.cell_writes]
    refine Throughout.take_iff (hbefore .next) (Throughout.of_not_written ?_ ?_) i
    · rw [after_append, after_cons]
      exact Function.update_self _ _ _
    · intro w hw hc
      rcases List.mem_cons.1 hw with rfl | hw
      · cases hc
      · exact hafter w hw (by rw [hc])
  · change (m.writes _).cell (.prev, e) = e ↔ _
    have hsplit : ws₁ ++ setNext e e :: setPrev e e :: ws₂ = (ws₁ ++ [setNext e e]) ++ setPrev e e :: ws₂ := by simp
    have hlen : (ws₁ ++ [setNext e e]).length = ws₁.length + 1 := List.length_append
    rw [Mem.cell_writes, hsplit, ← hlen]
    refine Throughout.take_iff ((hbefore .prev).append (.of_not_written (hbefore .prev).end ?_)) ?_ i
    · rintro w hw hc
      rw [List.mem_singleton.1 hw] at hc
      cases hc
    · refine hafter.throughout ?_
      rw [after_append, after_cons]
      exact Function.update_self _ _ _

end

/-- `list_empty_careful` waits for the deletion. Another processor runs allowed calls,
of which only `list_del_init` handles the entry `e`, and this one tests `e` in
between, its two reads at any two moments. The test says empty if and only if the
deletion has made its last write when `prev` is read, and at most that one is missing
when `next` is; what is written from then on leaves `e` alone. `list_empty` already
says so one write earlier. -/
theorem list_empty_careful_waits (m : Mem) (start pre post : List Call) (e : Addr) (L : Lists)
    (hstart : Lists.calls [] start = some L) (he : e ∈ entries L) (hpre : Lists.spares e L pre = true)
    (hpost : Lists.spares e ((pre.foldl Call.edit L).map (remove e)) post = true) :
    let m := m.calls start
    let ws := runWrites m (pre ++ .op (.list_del_init e) :: post)
    let done := (runWrites m (pre ++ [.op (.list_del_init e)])).length
    m.writes ws = m.calls (pre ++ .op (.list_del_init e) :: post) ∧
    (∀ i j, list_empty_careful_at m ws e i j = true ↔ done ≤ i + 1 ∧ done ≤ j) ∧
    (∀ i, list_empty (m.writes (ws.take i)) e = true ↔ done ≤ i + 1) ∧
    ∀ w ∈ ws.drop done, w.1.2 ≠ e := by
  intro m ws done
  have hA : Agrees m L := agrees_calls (agrees_nil _) start hstart
  have hdone : done = (runWrites m pre ++ __list_del_entry.writes (m.calls pre) e).length + 2 := by
    change (runWrites m (pre ++ .op (.list_del_init e) :: [])).length = _
    rw [runWrites_del_init, List.length_append]
    rfl
  have hcells := cells_at hA he hpre hpost
  have hnext : ∀ i, (m.writes (ws.take i)).next e = e ↔ done ≤ i + 1 := by
    intro i
    rw [(hcells i).1]
    omega
  have hprev : ∀ j, (m.writes (ws.take j)).prev e = e ↔ done ≤ j := by
    intro j
    rw [(hcells j).2]
    omega
  refine ⟨writes_run _ _, fun i j => ?_, fun i => ?_, ?_⟩
  · simp only [list_empty_careful_at, Bool.and_eq_true, beq_iff_eq]
    rw [← hnext i, ← hprev j]
    constructor
    · rintro ⟨h₁, h₂⟩
      exact ⟨h₁, by rw [← h₂, h₁]⟩
    · rintro ⟨h₁, h₂⟩
      exact ⟨h₁, by rw [h₁, h₂]⟩
  · rw [list_empty, beq_iff_eq, hnext i]
  · have hdrop : ws.drop done = runWrites (m.calls (pre ++ [.op (.list_del_init e)])) post := by
      change (runWrites m (pre ++ .op (.list_del_init e) :: post)).drop done = _
      have happ : pre ++ .op (.list_del_init e) :: post = (pre ++ [.op (.list_del_init e)]) ++ post := by simp
      rw [happ, runWrites_append, List.drop_left]
    rw [hdrop]
    exact untouched_after hA he hpre hpost

/-- The neighbours of 10 come and go; its list is spliced into another one, and cut off there. -/
theorem list_empty_careful_waits_10 :
    let m := Mem.calls ⟨fun _ => 0, fun _ => 0⟩
      [.op (.LIST_HEAD 1), .op (.LIST_HEAD 2), .op (.list_add_tail 10 1), .op (.list_add 11 1)]
    let pre := [.op (.list_del_init 11), .list_splice 1 2, .op (.list_add 12 10), .list_cut_position 1 2 12]
    let post := [.op (.list_move_tail 12 2), .list_cut_before 1 2 12, .INIT_LIST_HEAD 2]
    let ws := runWrites m (pre ++ .op (.list_del_init 10) :: post)
    let done := (runWrites m (pre ++ [.op (.list_del_init 10)])).length
    m.writes ws = m.calls (pre ++ .op (.list_del_init 10) :: post) ∧
    (∀ i j, list_empty_careful_at m ws 10 i j = true ↔ done ≤ i + 1 ∧ done ≤ j) ∧
    (∀ i, list_empty (m.writes (ws.take i)) 10 = true ↔ done ≤ i + 1) ∧
    ∀ w ∈ ws.drop done, w.1.2 ≠ 10 :=
  list_empty_careful_waits _ _ _ _ 10 [(2, []), (1, [11, 10])] (by decide) (by decide) (by decide) (by decide)

/-- Next to an addition the test is of no use: the list has let in the entry with the first
write, and the entry still looks empty. -/
theorem list_empty_careful_list_add {new head : Addr} (hinit : m.next new = new ∧ m.prev new = new) :
    (m.writes ((list_add.writes m new head).take 1)).prev (m.next head) = new ∧
      list_empty_careful_at m (list_add.writes m new head) new 1 2 = true := by
  simp [list_add.writes, __list_add.writes, list_empty_careful_at, Mem.writes, Mem.write, setNext, setPrev, hinit]

end SiteCode.ListHead
