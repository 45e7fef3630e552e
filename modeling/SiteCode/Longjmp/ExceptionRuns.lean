import SiteCode.Longjmp.Exception
/-!
# The exception stack is last in, first out

The machine does what the exceptions of a callee mean (`outcome`), by induction
on the callee. While a callee runs, `exception_env` is the innermost live frame,
so a `longjmp` gets to the frame that comes next.
-/

namespace SiteCode.Longjmp.Exception

open Lib

variable {c : Callee} {st : St} {S K : List Frame} {e n : Nat} {L : List Nat}

/-! ## Jumps -/

/-- The innermost live frame can be resumed. -/
theorem resume_live (h : live S = e :: L) (v : Int) : ∃ S', resume e v S = some S' := by
  induction S with
  | nil => cases h
  | cons f s ih =>
    cases f with
    | main pc c =>
      obtain rfl : 0 = e := (List.cons.inj h).1
      exact ⟨_, if_pos rfl⟩
    | first i pc my_env c =>
      obtain rfl : i = e := (List.cons.inj h).1
      exact ⟨_, if_pos rfl⟩
    | second todo => exact ih h

theorem longjmp_live (henv : st.exception_env = some e) {v : Int} {S' : List Frame}
    (h : resume e (jumpValue v) st.stack = some S') : longjmp st v = some { st with stack := S' } := by
  simp [longjmp, henv, h]

theorem jumpValue_eq_three {t : Int} : jumpValue t = 3 ↔ t = 3 := by
  unfold jumpValue
  split <;> omega

theorem outcome_next_le (c : Callee) (n : Nat) (L : List Nat) : n ≤ (outcome c n L).next := by
  induction c generalizing n L with
  | returns => exact Nat.le_refl n
  | throws t => exact Nat.le_refl n
  | seq a b iha ihb =>
    have ha := iha n L
    have hb := ihb (outcome a n L).next L
    simp only [outcome]
    split
    · exact ha
    · exact Nat.le_trans ha hb
  | first c ih =>
    have hc := ih (n + 1) (n :: L)
    simp only [outcome]
    split
    · exact Nat.le_of_succ_le hc
    · exact Nat.le_of_succ_le hc

/-! ## The machine computes the outcome -/

/-- From `st`, the machine gets to the end of a callee with the outcome `o`: it
leaves the stack `K`, or the frame below it is resumed with what was thrown. -/
def Runs (st : St) (e : Nat) (o : Outcome) (K : List Frame) : Prop :=
  match o.thrown with
  | none => Reaches step st { st with stack := K, next := o.next, log := st.log ++ o.events }
  | some t => ∃ K', resume e (jumpValue t) K = some K' ∧
      Reaches step st { st with stack := K', exception_type := t, next := o.next, log := st.log ++ o.events }

/-- The machine runs the code `c` of a callee among live frames. -/
def Simulates (c : Callee) : Prop :=
  ∀ st todo S e L, st.stack = .second (c :: todo) :: S → st.exception_env = some e → live S = e :: L →
    (∀ i ∈ live S, i < st.next) → Runs st e (outcome c st.next (live S)) (.second todo :: S)

theorem step_switch {v : Int} (hv : v ≠ 0) (my_env env : JmpBuf) (type : Int) (next : Nat) (log : List Event) :
    step ⟨.first n (.switch v) my_env c :: K, env, type, next, log⟩ =
      some ⟨.first n (if v = 3 then .case_3 else .default_) my_env c :: K, env, type, next,
        log ++ [.handle n type]⟩ := by
  simp only [step, step_first, if_neg hv]
  split <;> rfl

theorem step_rethrow {type : Int} (hne : e ≠ n) {K' : List Frame} (hK : resume e (jumpValue type) K = some K')
    (my_env : JmpBuf) (next : Nat) (log : List Event) :
    step ⟨.first n .rethrow my_env c :: K, some e, type, next, log⟩ =
      some ⟨K', some e, type, next, log ++ [.leave n (some e)]⟩ :=
  longjmp_live rfl (by rw [resume, if_neg hne, hK])

/-- The handler of a frame: it restores the saved buffer, is left, and passes
the exception on to the next frame. -/
theorem handler_runs (hl : live K = e :: L) (hne : e ≠ n) (env : JmpBuf) (t : Int) (next : Nat) (log : List Event) :
    ∃ K', resume e (jumpValue (remap t)) K = some K' ∧
      Reaches step ⟨.first n (.switch (jumpValue t)) (some e) c :: K, env, t, next, log⟩
        ⟨K', some e, remap t, next, log ++ [.handle n t, .leave n (some e)]⟩ := by
  obtain ⟨K', hK⟩ := resume_live hl (jumpValue (remap t))
  refine ⟨K', hK, .head (step_switch (jumpValue_ne_zero t) ..) ?_⟩
  have hlast : Reaches step ⟨.first n .default_ (some e) c :: K, env, remap t, next, log ++ [.handle n t]⟩
      ⟨K', some e, remap t, next, log ++ [.handle n t, .leave n (some e)]⟩ := by
    refine .head rfl (.head (step_rethrow hne hK ..) ?_)
    simpa using Reaches.refl _
  by_cases h3 : t = 3
  · -- `case 3` falls through
    subst h3
    exact .head rfl hlast
  · rw [if_neg fun h => h3 (jumpValue_eq_three.1 h)]
    rwa [remap, if_neg h3] at hlast ⊢

/-- A function with the protocol of `first`, from its call. -/
theorem first_runs (ih : Simulates c) (hstep : step st = some (enter st c K)) (henv : st.exception_env = some e)
    (hl : live K = e :: L) (hlt : ∀ i ∈ live K, i < st.next) :
    Runs st e (outcome (.first c) st.next (live K)) K := by
  obtain ⟨stack, env, type, n, log⟩ := st
  obtain rfl : env = some e := henv
  have hne : e ≠ n := Nat.ne_of_lt (hlt e (hl ▸ List.mem_cons_self))
  -- up to the call of the callee, which runs by induction
  have hcall : Reaches step ⟨stack, some e, type, n, log⟩
      ⟨.second [c] :: .first n .called (some e) c :: K, some n, type, n + 1, log ++ [.enter n (some e)]⟩ :=
    .head hstep (.head rfl (.head rfl (.head rfl (.head rfl (.refl _)))))
  have hc := ih ⟨.second [c] :: .first n .called (some e) c :: K, some n, type, n + 1, log ++ [.enter n (some e)]⟩
    [] (.first n .called (some e) c :: K) n (live K) rfl rfl rfl (by
      rintro i (_ | ⟨_, hi⟩)
      · exact Nat.lt_succ_self n
      · exact Nat.lt_succ_of_lt (hlt i hi))
  have hlive : live (.first n .called (some e) c :: K) = n :: live K := rfl
  rw [hlive] at hc
  simp only [outcome, Runs] at hc ⊢
  cases ho : (outcome c (n + 1) (n :: live K)).thrown with
  | none =>
    simp only [ho] at hc ⊢
    refine hcall.trans (hc.trans (.head rfl (.head rfl (.head rfl (.head rfl ?_)))))
    simpa [hl] using Reaches.refl _
  | some t =>
    -- the callee's throw resumes this frame, whose handler goes on to the next
    simp only [ho] at hc ⊢
    obtain ⟨K₁, h1, h2⟩ := hc
    obtain rfl : _ = K₁ := Option.some.inj ((if_pos rfl).symm.trans h1)
    obtain ⟨K', h3, h4⟩ := handler_runs (c := c) (n := n) hl hne (some n) t (outcome c (n + 1) (n :: live K)).next
      (log ++ [.enter n (some e)] ++ (outcome c (n + 1) (n :: live K)).events)
    refine ⟨K', h3, hcall.trans (h2.trans ?_)⟩
    simpa [hl] using h4

/-- Every callee runs to its outcome. -/
theorem callee_runs (c : Callee) : Simulates c := by
  induction c with
  | returns =>
    rintro ⟨stack, env, type, n, log⟩ todo S e L rfl rfl hl hlt
    refine .head rfl ?_
    simpa [outcome] using Reaches.refl _
  | throws t =>
    rintro ⟨stack, env, type, n, log⟩ todo S e L rfl rfl hl hlt
    obtain ⟨S', hS⟩ := resume_live hl (jumpValue t)
    exact ⟨S', hS, .head (longjmp_live rfl hS) (.refl _)⟩
  | first c ih =>
    intro st todo S e L hs henv hl hlt
    exact first_runs (K := .second todo :: S) ih (by rw [step, hs]; rfl) henv hl hlt
  | seq a b iha ihb =>
    rintro ⟨stack, env, type, n, log⟩ todo S e L rfl rfl hl hlt
    have ha := iha ⟨.second (a :: b :: todo) :: S, some e, type, n, log⟩ (b :: todo) S e L rfl rfl hl hlt
    have hle := outcome_next_le a n (live S)
    have hb := ihb ⟨.second (b :: todo) :: S, some e, type, (outcome a n (live S)).next,
      log ++ (outcome a n (live S)).events⟩ todo S e L rfl rfl hl fun i hi => Nat.lt_of_lt_of_le (hlt i hi) hle
    simp only [outcome, Runs] at ha hb ⊢
    cases hoa : (outcome a n (live S)).thrown with
    | some t =>
      simp only [hoa] at ha ⊢
      obtain ⟨K', h1, h2⟩ := ha
      exact ⟨K', h1, .head rfl h2⟩
    | none =>
      simp only [hoa] at ha ⊢
      cases hob : (outcome b (outcome a n (live S)).next (live S)).thrown with
      | none =>
        simp only [hob, List.append_assoc] at hb ⊢
        exact .head rfl (ha.trans hb)
      | some t =>
        simp only [hob, List.append_assoc] at hb ⊢
        obtain ⟨K', h1, h2⟩ := hb
        exact ⟨K', h1, .head rfl (ha.trans h2)⟩

/-! ## What the outcome says -/

namespace Event

def Calm : Event → Prop
  | enter .. | leave .. => True
  | throw .. | handle .. => False

def Throws : Event → Prop
  | throw .. => True
  | _ => False

/-- The frame whose handler runs. -/
def handler : Event → Option Nat
  | handle id _ => some id
  | _ => none

def entered : Event → Option (Nat × JmpBuf)
  | enter id env => some (id, env)
  | _ => none

def left : Event → Option (Nat × JmpBuf)
  | leave id env => some (id, env)
  | _ => none

/-- The frame an event is about, `main` and throws apart. -/
def frame : Event → Option Nat
  | enter id _ | leave id _ | handle id _ => some id
  | throw .. => none

end Event

/-- The frames of an outcome are those between `n` and its `next`. -/
theorem outcome_frames (c : Callee) (n : Nat) (L : List Nat) :
    ∀ ev ∈ (outcome c n L).events, ∀ id, ev.frame = some id → n ≤ id ∧ id < (outcome c n L).next := by
  induction c generalizing n L with
  | returns => nofun
  | throws t =>
    rintro ev (_ | ⟨_, ⟨⟩⟩) id h
    cases h
  | seq a b iha ihb =>
    have ha := iha n L
    have hb := ihb (outcome a n L).next L
    have hna := outcome_next_le a n L
    have hnb := outcome_next_le b (outcome a n L).next L
    simp only [outcome]
    split
    · exact ha
    · intro ev hm id h
      rcases List.mem_append.1 hm with hm | hm
      · exact ⟨(ha ev hm id h).1, Nat.lt_of_lt_of_le (ha ev hm id h).2 hnb⟩
      · exact ⟨Nat.le_trans hna (hb ev hm id h).1, (hb ev hm id h).2⟩
  | first c ih =>
    have hc := ih (n + 1) (n :: L)
    have hn := outcome_next_le c (n + 1) (n :: L)
    simp only [outcome]
    split
    · simp only [List.mem_cons, List.mem_append, List.not_mem_nil, or_false]
      rintro ev (rfl | hm | rfl | rfl) id h
      · cases h; omega
      · have := hc ev hm id h; omega
      · cases h; omega
      · cases h; omega
    · simp only [List.mem_cons, List.mem_append, List.not_mem_nil, or_false]
      rintro ev (rfl | hm | rfl) id h
      · cases h; omega
      · have := hc ev hm id h; omega
      · cases h; omega

/-- No handler of `b` runs after its frame was left in `a`. -/
def NotLeft (a b : Event) : Prop := ∀ id env, a = .leave id env → b.handler ≠ some id

theorem notLeft_of_frame {a b : Event} (h : ∀ id, a.frame = some id → b.frame ≠ some id) : NotLeft a b := by
  rintro id env rfl hb
  apply h id rfl
  cases b <;> cases hb
  rfl

/-- A handler only runs before its frame is left. -/
theorem outcome_notLeft (c : Callee) (n : Nat) (L : List Nat) : (outcome c n L).events.Pairwise NotLeft := by
  induction c generalizing n L with
  | returns => exact .nil
  | throws t => exact List.pairwise_singleton ..
  | seq a b iha ihb =>
    simp only [outcome]
    split
    · exact iha n L
    · refine List.pairwise_append.2 ⟨iha n L, ihb _ L, fun x hx y hy => notLeft_of_frame fun id h1 h2 => ?_⟩
      have ha := outcome_frames a n L x hx id h1
      have hb := outcome_frames b _ L y hy id h2
      omega
  | first c ih =>
    have hin : ∀ x ∈ (outcome c (n + 1) (n :: L)).events, ∀ y : Event, y.frame = some n → NotLeft x y := by
      refine fun x hx y hy => notLeft_of_frame fun id h1 h2 => ?_
      have := outcome_frames c (n + 1) (n :: L) x hx id h1
      rw [hy] at h2
      cases h2
      omega
    simp only [outcome]
    split
    · refine List.pairwise_cons.2 ⟨fun y _ => nofun, List.pairwise_append.2 ⟨ih _ _, ?_, ?_⟩⟩
      · exact List.pairwise_pair.2 nofun
      · simp only [List.mem_cons, List.not_mem_nil, or_false]
        rintro x hx y (rfl | rfl)
        · exact hin x hx _ rfl
        · exact hin x hx _ rfl
    · refine List.pairwise_cons.2 ⟨fun y _ => nofun, List.pairwise_append.2 ⟨ih _ _, List.pairwise_singleton .., ?_⟩⟩
      simp only [List.mem_cons, List.not_mem_nil, or_false]
      rintro x hx y rfl
      exact hin x hx _ rfl

/-- The frames that are entered are left, with the buffer they found. -/
theorem outcome_left (c : Callee) (n : Nat) (L : List Nat) :
    ((outcome c n L).events.filterMap Event.left).Perm ((outcome c n L).events.filterMap Event.entered) := by
  induction c generalizing n L with
  | returns => exact .nil
  | throws t => exact .nil
  | seq a b iha ihb =>
    simp only [outcome]
    split
    · exact iha n L
    · simp only [List.filterMap_append]
      exact (iha n L).append (ihb _ L)
  | first c ih =>
    simp only [outcome]
    split <;>
    · simp only [List.filterMap_cons, List.filterMap_append, Event.left, Event.entered, List.filterMap_nil,
        List.append_nil]
      exact (List.perm_append_singleton _ _).trans ((ih _ _).cons _)

theorem entered_frame {events : List Event} {id : Nat}
    (h : id ∈ (events.filterMap Event.entered).map Prod.fst) : ∃ ev ∈ events, ev.frame = some id := by
  simp only [List.mem_map, List.mem_filterMap] at h
  obtain ⟨p, ⟨ev, hm, he⟩, rfl⟩ := h
  cases ev <;> cases he
  exact ⟨_, hm, rfl⟩

/-- Each frame is entered once. -/
theorem outcome_entered (c : Callee) (n : Nat) (L : List Nat) :
    (((outcome c n L).events.filterMap Event.entered).map Prod.fst).Nodup := by
  induction c generalizing n L with
  | returns => exact .nil
  | throws t => exact .nil
  | seq a b iha ihb =>
    simp only [outcome]
    split
    · exact iha n L
    · simp only [List.filterMap_append, List.map_append]
      refine List.nodup_append.2 ⟨iha n L, ihb _ L, ?_⟩
      rintro i hi _ hj rfl
      obtain ⟨x, hx, h1⟩ := entered_frame hi
      obtain ⟨y, hy, h2⟩ := entered_frame hj
      have ha := outcome_frames a n L x hx i h1
      have hb := outcome_frames b _ L y hy i h2
      omega
  | first c ih =>
    have hin : n ∉ ((outcome c (n + 1) (n :: L)).events.filterMap Event.entered).map Prod.fst := by
      intro hi
      obtain ⟨x, hx, h1⟩ := entered_frame hi
      have := outcome_frames c (n + 1) (n :: L) x hx n h1
      omega
    simp only [outcome]
    split <;>
    · simp only [List.filterMap_cons, List.filterMap_append, Event.entered, List.filterMap_nil, List.append_nil,
        List.map_cons]
      exact List.nodup_cons.2 ⟨hin, ih _ _⟩

/-! ## Handling -/

/-- A throw of `t` among the live frames `frames ++ L` is handled by `frames`,
in this order and once each, and by no other. -/
def Handled (events : List Event) (t : Int) (frames L : List Nat) : Prop :=
  ∃ pre post, events = pre ++ .throw t (frames ++ L) :: post ∧ (∀ ev ∈ pre, ev.Calm) ∧
    (∀ ev ∈ post, ¬ ev.Throws) ∧ post.filterMap Event.handler = frames

/-- A callee that raises nothing comes to its end. -/
theorem outcome_thrown_none {c : Callee} {n : Nat} {L : List Nat} (h : raised c = none) :
    (outcome c n L).thrown = none := by
  induction c generalizing n L with
  | returns => rfl
  | throws t => cases h
  | seq a b iha ihb =>
    obtain ⟨ha, hb⟩ := Option.or_eq_none_iff.1 h
    simp only [outcome, iha ha, ihb hb]
  | first c ih => simp only [outcome, ih h]

theorem outcome_calm {c : Callee} {n : Nat} {L : List Nat} (h : raised c = none) :
    ∀ ev ∈ (outcome c n L).events, ev.Calm := by
  induction c generalizing n L with
  | returns => nofun
  | throws t => cases h
  | seq a b iha ihb =>
    obtain ⟨ha, hb⟩ := Option.or_eq_none_iff.1 h
    simp only [outcome, outcome_thrown_none ha]
    exact List.forall_mem_append.2 ⟨iha ha, ihb hb⟩
  | first c ih =>
    simp only [outcome, outcome_thrown_none (c := c) h]
    exact List.forall_mem_cons.2 ⟨trivial, List.forall_mem_append.2 ⟨ih h, by simp [Event.Calm]⟩⟩

/-- The frames that are live at a throw are in the order of their entry, the
innermost first. -/
theorem outcome_live {c : Callee} {n : Nat} {L : List Nat} (hL : L.Pairwise (· > ·)) (hlt : ∀ i ∈ L, i < n) {t : Int}
    {frames : List Nat} (h : .throw t frames ∈ (outcome c n L).events) : frames.Pairwise (· > ·) := by
  induction c generalizing n L with
  | returns => cases h
  | throws t' =>
    obtain ⟨-, rfl⟩ := Event.throw.inj (List.mem_singleton.1 h)
    exact hL
  | seq a b iha ihb =>
    have hle := outcome_next_le a n L
    simp only [outcome] at h
    split at h
    · exact iha hL hlt h
    · rcases List.mem_append.1 h with h | h
      · exact iha hL hlt h
      · exact ihb hL (fun i hi => Nat.lt_of_lt_of_le (hlt i hi) hle) h
  | first c ih =>
    have hin : .throw t frames ∈ (outcome c (n + 1) (n :: L)).events := by
      simp only [outcome] at h
      split at h <;> simpa using h
    refine ih (List.pairwise_cons.2 ⟨hlt, hL⟩) (fun i hi => ?_) hin
    rcases List.mem_cons.1 hi with rfl | hi
    · exact Nat.lt_succ_self i
    · exact Nat.lt_succ_of_lt (hlt i hi)

theorem remap_remap (t : Int) : remap (remap t) = remap t := by
  unfold remap
  split
  · rfl
  · rfl

/-- A type is remapped by the innermost frame, and passed on by the others. -/
def passedOn (t : Int) (frames : List Nat) : Int := if frames = [] then t else remap t

/-- A frame handles what its callee passes on, after the frames of the callee. -/
theorem first_handled {t : Int} {frames : List Nat}
    (hc : Handled (outcome c (n + 1) (n :: L)).events t frames (n :: L))
    (ho : (outcome c (n + 1) (n :: L)).thrown = some (passedOn t frames)) :
    Handled (outcome (.first c) n L).events t (frames ++ [n]) L ∧ (outcome (.first c) n L).thrown = some (remap t) := by
  obtain ⟨pre, post, he, h1, h2, h3⟩ := hc
  simp only [outcome, ho]
  refine ⟨⟨.enter n L.head? :: pre, post ++ [.handle n (passedOn t frames), .leave n L.head?], ?_, ?_, ?_, ?_⟩, ?_⟩
  · simp [he]
  · exact List.forall_mem_cons.2 ⟨trivial, h1⟩
  · exact List.forall_mem_append.2 ⟨h2, by simp [Event.Throws]⟩
  · simp [h3, Event.handler]
  · rw [passedOn]
    split
    · rfl
    · rw [remap_remap]

/-- What a callee raises goes through all its frames. -/
theorem outcome_handled {c : Callee} {n : Nat} {L : List Nat} {t : Int} (h : raised c = some t) :
    ∃ frames, Handled (outcome c n L).events t frames L ∧ (outcome c n L).thrown = some (passedOn t frames) := by
  induction c generalizing n L with
  | returns => cases h
  | throws t' =>
    cases h
    exact ⟨[], ⟨[], [], rfl, nofun, nofun, rfl⟩, rfl⟩
  | seq a b iha ihb =>
    cases ha : raised a with
    | some t' =>
      obtain rfl : t' = t := by simpa [raised, ha] using h
      obtain ⟨frames, hH, ho⟩ := iha (n := n) (L := L) ha
      simp only [outcome, ho]
      exact ⟨frames, hH, rfl⟩
    | none =>
      have hb : raised b = some t := by simpa [raised, ha] using h
      have hoa := outcome_thrown_none (n := n) (L := L) ha
      obtain ⟨frames, ⟨pre, post, he, h1, h2, h3⟩, ho⟩ := ihb (n := (outcome a n L).next) (L := L) hb
      simp only [outcome, hoa]
      exact ⟨frames, ⟨(outcome a n L).events ++ pre, post, by rw [he, List.append_assoc],
        List.forall_mem_append.2 ⟨outcome_calm ha, h1⟩, h2, h3⟩, ho⟩
  | first c ih =>
    obtain ⟨frames, hH, ho⟩ := ih (n := n + 1) (L := n :: L) h
    obtain ⟨hH', ho'⟩ := first_handled hH ho
    exact ⟨frames ++ [n], hH', ho'.trans (by simp [passedOn])⟩

/-- What `first` passes on to `main`. -/
theorem first_throws {t : Int} (h : raised c = some t) :
    ∃ frames, Handled (outcome (.first c) n L).events t frames L ∧
      (outcome (.first c) n L).thrown = some (remap t) := by
  obtain ⟨frames, hH, ho⟩ := outcome_handled (n := n + 1) (L := n :: L) h
  exact ⟨frames ++ [n], first_handled hH ho⟩

/-! ## From `main` -/

/-- `main` up to the end of `first`. -/
theorem main_runs (c : Callee) :
    ∃ st, Reaches step (init c) st ∧ st.exception_env = some 0 ∧ st.log = (outcome (.first c) 1 [0]).events ∧
      match (outcome (.first c) 1 [0]).thrown with
      | none => st.stack = [.main .succeeded c]
      | some t => st.stack = [.main (.test (jumpValue t)) c] ∧ st.exception_type = t := by
  have hinit : Reaches step (init c) ⟨[.main .call_first c], some 0, 0, 1, []⟩ := .head rfl (.head rfl (.refl _))
  have hrun : Runs ⟨[.main .call_first c], some 0, 0, 1, []⟩ 0 (outcome (.first c) 1 [0]) [.main .succeeded c] := by
    apply first_runs (K := [.main .succeeded c]) (callee_runs c) rfl rfl rfl
    rintro i (_ | ⟨_, ⟨⟩⟩)
    exact Nat.zero_lt_one
  unfold Runs at hrun
  split at hrun
  · exact ⟨_, hinit.trans hrun, rfl, rfl, rfl⟩
  · obtain ⟨K', h1, h2⟩ := hrun
    obtain rfl : _ = K' := Option.some.inj ((if_pos rfl).symm.trans h1)
    exact ⟨_, hinit.trans h2, rfl, rfl, rfl, rfl⟩

/-- `main` comes to its end, and shows the outcome of `first`. -/
theorem main_observed (c : Callee) :
    ∃ st, Reaches step (init c) st ∧ st.stack = [.main .done c] ∧ st.log = observed c := by
  obtain ⟨⟨stack, env, type, next, log⟩, hreach, rfl, rfl, hend⟩ := main_runs c
  unfold observed
  split at hend
  · rename_i hnone
    obtain rfl : stack = _ := hend
    exact ⟨_, hreach.trans (.head rfl (.refl _)), rfl, by simp [hnone]⟩
  · rename_i t' hsome
    obtain ⟨rfl, rfl⟩ : stack = _ ∧ type = t' := hend
    have htest : step ⟨[.main (.test (jumpValue type)) c], some 0, type, next, (outcome (.first c) 1 [0]).events⟩ =
        some ⟨[.main .done c], some 0, type, next, (outcome (.first c) 1 [0]).events ++ [.handle 0 type]⟩ :=
      if_pos (jumpValue_ne_zero type)
    exact ⟨_, hreach.trans (.head htest (.refl _)), rfl, by simp [hsome]⟩

theorem observed_calm (h : raised c = none) : ∀ ev ∈ observed c, ev.Calm := by
  have hnone : (outcome (.first c) 1 [0]).thrown = none := outcome_thrown_none h
  simpa [observed, hnone] using outcome_calm (c := .first c) (n := 1) (L := [0]) h

theorem observed_handled {t : Int} (h : raised c = some t) :
    ∃ frames, Handled (observed c) t (frames ++ [0]) [] ∧ (frames ++ [0]).Pairwise (· > ·) ∧
      (observed c).getLast? = some (.handle 0 (remap t)) := by
  obtain ⟨frames, ⟨pre, post, he, h1, h2, h3⟩, ho⟩ := first_throws (n := 1) (L := [0]) h
  have hlive : (frames ++ [0]).Pairwise (· > ·) :=
    outcome_live (c := .first c) (n := 1) (L := [0]) (t := t) (List.pairwise_singleton ..) (by simp) (by simp [he])
  simp only [observed, ho, Option.map_some, Option.toList_some]
  refine ⟨frames, ⟨pre, post ++ [.handle 0 (remap t)], ?_, h1, ?_, ?_⟩, hlive, List.getLast?_concat ..⟩
  · simp [he]
  · exact List.forall_mem_append.2 ⟨h2, by simp [Event.Throws]⟩
  · simp [h3, Event.handler]

/-- The handler of `main` is of no frame of the callee. -/
theorem observed_notLeft (c : Callee) : (observed c).Pairwise NotLeft := by
  unfold observed
  refine List.pairwise_append.2 ⟨outcome_notLeft (.first c) 1 [0], ?_, fun x hx y hy => ?_⟩
  · cases (outcome (.first c) 1 [0]).thrown <;> simp
  · obtain ⟨t, -, rfl⟩ := Option.map_eq_some_iff.1 (Option.mem_toList.1 hy)
    apply notLeft_of_frame
    intro id h1 h2
    have hid := outcome_frames (.first c) 1 [0] x hx id h1
    cases h2
    omega

/-- The handler of `main` enters and leaves no frame. -/
theorem observed_filterMap {f : Event → Option (Nat × JmpBuf)} (hf : ∀ t, f (.handle 0 t) = none) (c : Callee) :
    (observed c).filterMap f = (outcome (.first c) 1 [0]).events.filterMap f := by
  unfold observed
  cases (outcome (.first c) 1 [0]).thrown <;> simp [hf]

/-- `main` reaches its end over any callee, and shows what the exceptions of the
callee mean. If `t` is raised, it is handled once by each frame that is live then, the
innermost first and `main` last, where the type is `remap t`; if nothing is raised, no
handler runs. The frames are left with the `exception_env` they found, and no handler
of a frame runs after it was left. -/
theorem exceptions_are_lifo (c : Callee) :
    ∃ st, Reaches step (init c) st ∧ st.stack = [.main .done c] ∧ st.log = observed c ∧
      (raised c = none → ∀ ev ∈ st.log, ev.Calm) ∧
      (∀ t, raised c = some t → ∃ frames, Handled st.log t (frames ++ [0]) [] ∧ (frames ++ [0]).Pairwise (· > ·) ∧
          st.log.getLast? = some (.handle 0 (remap t))) ∧
      (st.log.filterMap Event.left).Perm (st.log.filterMap Event.entered) ∧
      ((st.log.filterMap Event.entered).map Prod.fst).Nodup ∧ st.log.Pairwise NotLeft := by
  obtain ⟨st, hreach, hdone, hlog⟩ := main_observed c
  refine ⟨st, hreach, hdone, hlog, ?_⟩
  rw [hlog, observed_filterMap (fun _ => rfl), observed_filterMap (fun _ => rfl)]
  exact ⟨observed_calm, fun t => observed_handled, outcome_left (.first c) 1 [0], outcome_entered (.first c) 1 [0],
    observed_notLeft c⟩

end SiteCode.Longjmp.Exception
