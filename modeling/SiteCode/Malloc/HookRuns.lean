import SiteCode.Malloc.Hook
/-!
# Runs under the tracer

While the tracer forwards a call or prints, no hook variable holds a function of
its own, and code of others cannot bring one back. So every call that happens
meanwhile goes past the tracer, and its hooks are in place again at the end.
-/

namespace SiteCode.MallocHook

open Lib
open Malloc (Word NULL Arg)

variable {ι σ α : Type}

/-- No variable holds a function of the tracer. -/
structure NoTracer (g : Globals ι) : Prop where
  malloc_hook : g.__malloc_hook ≠ .mine
  free_hook : g.__free_hook ≠ .mine
  old_malloc_hook : g.old_malloc_hook ≠ .mine
  old_free_hook : g.old_free_hook ≠ .mine

/-- The tracer is in place over hooks of others. -/
structure Installed (g : Globals ι) : Prop where
  malloc_hook : g.__malloc_hook = .mine
  free_hook : g.__free_hook = .mine
  old_malloc_hook : g.old_malloc_hook ≠ .mine
  old_free_hook : g.old_free_hook ≠ .mine

/-- An event that is not the program's or the tracer's call: a call of others
that does not meet the tracer, or an assignment that leaves the old hooks to others. -/
def Event.Benign : Event ι → Prop
  | call caller _ hook => caller = .others ∧ hook ≠ .mine
  | returned caller _ => caller = .others
  | assigned g => g.old_malloc_hook ≠ .mine ∧ g.old_free_hook ≠ .mine

/-- Code of others ran: the tracer is nowhere, and only benign events happened. -/
def Quiet (st st' : St ι σ) : Prop :=
  NoTracer st'.globals ∧ ∃ seg, st'.log = st.log ++ seg ∧ ∀ e ∈ seg, e.Benign

/-- A call past the tracer came back with the result `r`. -/
def Answers (st : St ι σ) (caller : Caller) (c : Call) (r : Word) (st' : St ι σ) : Prop :=
  NoTracer st'.globals ∧ ∃ hook seg, hook ≠ .mine ∧ (∀ e ∈ seg, e.Benign) ∧
    st'.log = st.log ++ .call caller c hook :: (seg ++ [.returned caller r])

variable {st st' st'' : St ι σ} {w : World ι σ}

theorem NoTracer.hook {g : Globals ι} (h : NoTracer g) (c : Call) : g.hook c ≠ .mine := by
  cases c with
  | malloc size => exact h.malloc_hook
  | free ptr => exact h.free_hook

theorem Installed.hook {g : Globals ι} (h : Installed g) (c : Call) : g.hook c = .mine := by
  cases c with
  | malloc size => exact h.malloc_hook
  | free ptr => exact h.free_hook

theorem Hook.of_ne_mine (h : Option ι) : Hook.of h ≠ .mine := by cases h <;> nofun

theorem Quiet.refl (h : NoTracer st.globals) : Quiet st st := ⟨h, [], by simp, nofun⟩

theorem Quiet.trans (h1 : Quiet st st') (h2 : Quiet st' st'') : Quiet st st'' := by
  obtain ⟨-, u, hu, hub⟩ := h1
  obtain ⟨hn, v, hv, hvb⟩ := h2
  exact ⟨hn, u ++ v, by rw [hv, hu, List.append_assoc], List.forall_mem_append.2 ⟨hub, hvb⟩⟩

theorem assign_log (st : St ι σ) (f : Globals ι → Globals ι) :
    (st.assign f).log = st.log ++ [.assigned (f st.globals)] := rfl

theorem quiet_assign (st : St ι σ) (f : Globals ι → Globals ι) (h : NoTracer (f st.globals)) : Quiet st (st.assign f) :=
  ⟨h, _, rfl, by simpa [Event.Benign] using ⟨h.old_malloc_hook, h.old_free_hook⟩⟩

/-- A call of others is quiet. -/
theorem Answers.quiet {c : Call} {r : Word} (h : Answers st .others c r st') : Quiet st st' := by
  obtain ⟨hn, hook, seg, hh, hb, hl⟩ := h
  refine ⟨hn, _, hl, ?_⟩
  simp only [List.mem_cons, List.mem_append, List.not_mem_nil, or_false]
  rintro e (rfl | he | rfl)
  · exact ⟨rfl, hh⟩
  · exact hb e he
  · rfl

/-! ## Code of others stays quiet -/

theorem code_quiet {exec : Caller → Call → M ι σ Word}
    (hexec : ∀ c st, NoTracer st.globals → Ensures (exec .others c) st fun _ => Quiet st)
    (code : Code ι σ α) (st : St ι σ) (hst : NoTracer st.globals) : Ensures (code.run exec) st fun _ => Quiet st := by
  induction code generalizing st with
  | ret a => exact .pure (.refl hst)
  | heap f k ih => exact ih st.heap { st with heap := f st.heap } hst
  | hooks k ih => exact ih _ _ st hst
  | set_malloc_hook h k ih =>
    have hq := quiet_assign st (fun g => { g with __malloc_hook := .of h })
      { hst with malloc_hook := Hook.of_ne_mine h }
    exact (ih _ hq.1).mono fun _ _ => hq.trans
  | set_free_hook h k ih =>
    have hq := quiet_assign st (fun g => { g with __free_hook := .of h })
      { hst with free_hook := Hook.of_ne_mine h }
    exact (ih _ hq.1).mono fun _ _ => hq.trans
  | malloc size k ih => exact (hexec _ st hst).bind fun r s hq => (ih r s hq.1).mono fun _ _ => hq.trans
  | free ptr k ih => exact (hexec _ st hst).bind fun r s hq => (ih s hq.1).mono fun _ _ => hq.trans

theorem dispatch_quiet {exec : Caller → Call → M ι σ Word}
    (hexec : ∀ c st, NoTracer st.globals → Ensures (exec .others c) st fun _ => Quiet st)
    (caller : Caller) (c : Call) {hook : Hook ι} (hh : hook ≠ .mine) (hst : NoTracer st.globals) :
    Ensures (dispatch w exec caller c hook) st fun _ => Quiet st := by
  cases hook with
  | mine => exact absurd rfl hh
  | null => exact .of_run rfl ⟨hst, [], by simp, nofun⟩
  | other i =>
    cases c with
    | malloc size => exact code_quiet hexec _ st hst
    | free ptr => exact (code_quiet hexec _ st hst).bind fun _ _ hq => .pure hq

theorem exec_quiet (n : Nat) (caller : Caller) (c : Call) (hst : NoTracer st.globals) :
    Ensures (exec w n caller c) st (Answers st caller c) := by
  induction n generalizing caller c st with
  | zero => exact .of_none rfl
  | succ n ih =>
    have hd : Ensures (dispatch w (exec w n) caller c (st.globals.hook c))
        (st.event (.call caller c (st.globals.hook c))) fun _ => Quiet (st.event (.call caller c (st.globals.hook c))) :=
      dispatch_quiet (fun c st hst => (ih .others c hst).mono fun _ _ h => h.quiet) caller c (hst.hook c) hst
    intro r s h
    have hr := hd.bind (f := fun r => do event (.returned caller r); return r) (R := Answers st caller c)
      (fun r s hq => .of_run rfl ?_)
    · exact hr r s h
    · obtain ⟨hn, seg, hl, hb⟩ := hq
      refine ⟨hn, st.globals.hook c, seg, hst.hook c, hb, ?_⟩
      simp [St.event, hl]

/-! ## Everything returns -/

/-- The code writes to the heap within `I`. -/
def Code.Keeps (I : σ → Prop) : Code ι σ α → Prop
  | ret _ => True
  | heap f k => ∀ h, I h → I (f h) ∧ (k h).Keeps I
  | hooks k => ∀ h h', (k h h').Keeps I
  | set_malloc_hook _ k | set_free_hook _ k => k.Keeps I
  | malloc _ k => ∀ ptr, (k ptr).Keeps I
  | free _ k => k.Keeps I

/-- Each hook of others returns when the tracer is out of the way and the heap is in
`I`, which it then is again. The allocator and `printf` stay in `I` as well. (With an
`I` that is always true nothing is asked of these two.) -/
structure HooksReturn (w : World ι σ) (I : σ → Prop) : Prop where
  malloc_hook : ∀ i size caller (st : St ι σ), NoTracer st.globals → I st.heap →
    Halts (fun n => (w.malloc_hook i size caller).run (exec w n)) st fun _ st' => I st'.heap
  free_hook : ∀ i ptr caller (st : St ι σ), NoTracer st.globals → I st.heap →
    Halts (fun n => (w.free_hook i ptr caller).run (exec w n)) st fun _ st' => I st'.heap
  allocator : ∀ c h, I h → I (w.allocator c h).2
  printf : ∀ fmt args, (w.printf fmt args).Keeps I

variable {I : σ → Prop}

theorem dispatch_returns (hw : HooksReturn w I) (caller : Caller) (c : Call) {hook : Hook ι} (hh : hook ≠ .mine)
    (hst : NoTracer st.globals) (hI : I st.heap) :
    Halts (fun n => dispatch w (exec w n) caller c hook) st fun _ st' => I st'.heap := by
  cases hook with
  | mine => exact absurd rfl hh
  | null => exact .of_run (fun _ => rfl) (hw.allocator c st.heap hI)
  | other i =>
    cases c with
    | malloc size => exact hw.malloc_hook i size caller st hst hI
    | free ptr => exact (hw.free_hook i ptr caller st hst hI).bind fun _ _ h => .pure h

/-- A call past the tracer returns. -/
theorem exec_returns (hw : HooksReturn w I) (caller : Caller) (c : Call) (hst : NoTracer st.globals) (hI : I st.heap) :
    Halts (fun n => exec w n caller c) st fun r st' => Answers st caller c r st' ∧ I st'.heap := by
  have hd : Halts (fun n => dispatch w (exec w n) caller c (st.globals.hook c))
      (st.event (.call caller c (st.globals.hook c))) fun _ st' => I st'.heap :=
    dispatch_returns hw caller c (hst.hook c) hst hI
  have h : Halts (fun n => exec w n caller c) st fun _ st' => I st'.heap :=
    .succ (.step rfl (.step rfl (hd.bind fun r s hs => .of_run (fun _ => rfl) hs)))
  exact h.and fun n => exec_quiet n caller c hst

theorem code_returns (hw : HooksReturn w I) (code : Code ι σ α) (hk : code.Keeps I) (hst : NoTracer st.globals)
    (hI : I st.heap) : Halts (fun n => code.run (exec w n)) st fun _ st' => Quiet st st' ∧ I st'.heap := by
  have h : Halts (fun n => code.run (exec w n)) st fun _ st' => I st'.heap := by
    induction code generalizing st with
    | ret a => exact .pure hI
    | heap f k ih =>
      obtain ⟨hf, hk⟩ := hk st.heap hI
      exact @ih st.heap { st with heap := f st.heap } hk hst hf
    | hooks k ih => exact ih _ _ (hk _ _) hst hI
    | set_malloc_hook h k ih => exact @ih (st.assign _) hk { hst with malloc_hook := Hook.of_ne_mine h } hI
    | set_free_hook h k ih => exact @ih (st.assign _) hk { hst with free_hook := Hook.of_ne_mine h } hI
    | malloc size k ih => exact (exec_returns hw _ _ hst hI).bind fun r s hs => ih r (hk r) hs.1.1 hs.2
    | free ptr k ih => exact (exec_returns hw _ _ hst hI).bind fun r s hs => ih hk hs.1.1 hs.2
  exact h.and fun n => code_quiet (fun c s hs => (exec_quiet n .others c hs).mono fun _ _ h => h.quiet) code st hst

/-! ## A call of the program -/

/-- The tracer forwarded the call `c`, and the forwarded call returned `r`. -/
def Forwards (c : Call) (r : Word) (events : List (Event ι)) : Prop :=
  ∃ hook u v x, hook ≠ .mine ∧ (∀ e ∈ u ++ v ++ x, e.Benign) ∧
    events = u ++ .call .tracer c hook :: (v ++ .returned .tracer r :: x)

theorem trace_returns (hw : HooksReturn w I) (c : Call) (say : Word → Code ι σ Unit) (hsay : ∀ r, (say r).Keeps I)
    (hst : Installed st.globals) (hI : I st.heap) :
    Halts (fun n => trace (exec w n) c say) st fun r st' =>
      (Installed st'.globals ∧ I st'.heap) ∧ ∃ events, st'.log = st.log ++ events ∧ Forwards c r events := by
  obtain ⟨-, -, ho, ho'⟩ := hst
  -- both hooks are those of others before the request, and what it leaves in them is saved before `printf`
  refine .step rfl (.step rfl ?_)
  refine Halts.bind (exec_returns hw .tracer c ?_ hI) ?_
  · exact ⟨ho, ho', ho, ho'⟩
  rintro r s ⟨⟨hn, hook, v, hh, hv, hl⟩, hIs⟩
  refine .step rfl (.step rfl ?_)
  refine Halts.bind (code_returns hw (say r) (hsay r) ?_ hIs) ?_
  · exact ⟨hn.malloc_hook, hn.free_hook, hn.malloc_hook, hn.free_hook⟩
  rintro _ t ⟨⟨hm, x, hx, hxb⟩, hIt⟩
  -- the last two assignments put the tracer back
  refine .of_run (fun _ => rfl) ⟨⟨⟨rfl, rfl, hm.old_malloc_hook, hm.old_free_hook⟩, hIt⟩, ?_⟩
  simp only [assign_log, hx, hl, List.append_assoc, List.cons_append, List.nil_append]
  refine ⟨_, rfl, hook, [_, _], v, _ :: _ :: (x ++ [_, _]), hh, ?_, rfl⟩
  simp only [List.mem_append, List.mem_cons, List.not_mem_nil, or_false]
  rintro e (((rfl | rfl) | he) | rfl | rfl | he | rfl | rfl)
  · exact ⟨ho, ho'⟩
  · exact ⟨ho, ho'⟩
  · exact hv e he
  · exact ⟨hn.malloc_hook, hn.old_free_hook⟩
  · exact ⟨hn.malloc_hook, hn.free_hook⟩
  · exact hxb e he
  · exact ⟨hm.old_malloc_hook, hm.old_free_hook⟩
  · exact ⟨hm.old_malloc_hook, hm.old_free_hook⟩

/-- One call of the program: it meets the tracer, once; the tracer makes one request
past its own hooks, with the same argument, and hands back its result; no other call
meets the tracer; the old hooks are never the tracer's; and the tracer is in place
again afterwards. -/
def Traced (c : Call) (r : Word) (events : List (Event ι)) (after : Globals ι) : Prop :=
  after.__malloc_hook = .mine ∧ after.__free_hook = .mine ∧
    ∃ inner, Forwards c r inner ∧ events = .call .program c .mine :: (inner ++ [.returned .program r])

theorem exec_traced (hw : HooksReturn w I) (c : Call) (hst : Installed st.globals) (hI : I st.heap) :
    Halts (fun n => exec w n .program c) st fun r st' =>
      (Installed st'.globals ∧ I st'.heap) ∧ ∃ events, st'.log = st.log ++ events ∧ Traced c r events st'.globals := by
  have hd : Halts (fun n => dispatch w (exec w n) .program c (st.globals.hook c))
      (st.event (.call .program c (st.globals.hook c))) fun r st' => (Installed st'.globals ∧ I st'.heap) ∧
        ∃ events, st'.log = (st.event (.call .program c (st.globals.hook c))).log ++ events ∧ Forwards c r events := by
    rw [hst.hook c]
    cases c with
    | malloc size => exact trace_returns hw (.malloc size) _ (fun _ => hw.printf _ _) hst hI
    | free ptr => exact trace_returns hw (.free ptr) _ (fun _ => hw.printf _ _) hst hI
  refine .succ (.step rfl (.step rfl (Halts.bind hd ?_)))
  rintro r s ⟨⟨hs, hIs⟩, inner, hl, hf⟩
  refine .of_run (fun _ => rfl) ⟨⟨hs, hIs⟩, _, ?_, hs.malloc_hook, hs.free_hook, inner, hf, rfl⟩
  simp [St.event, hl, hst.hook c]

/-! ## Programs -/

/-- No assignment so far left an old hook to the tracer. -/
def OldHooksOfOthers (log : List (Event ι)) : Prop :=
  ∀ g, .assigned g ∈ log → g.old_malloc_hook ≠ .mine ∧ g.old_free_hook ≠ .mine

theorem OldHooksOfOthers.append {log : List (Event ι)} {c : Call} {r : Word} {events : List (Event ι)} {g : Globals ι}
    (h : OldHooksOfOthers log) (ht : Traced c r events g) : OldHooksOfOthers (log ++ events) := by
  obtain ⟨-, -, inner, ⟨hook, u, v, x, -, hb, rfl⟩, rfl⟩ := ht
  intro g hg
  simp only [List.mem_append, List.mem_cons, List.not_mem_nil, or_false, reduceCtorEq, false_or] at hg
  simp only [List.mem_append] at hb
  rcases hg with hg | hg | hg | hg
  · exact h g hg
  · exact hb _ (.inl (.inl hg))
  · exact hb _ (.inl (.inr hg))
  · exact hb _ (.inr hg)

theorem program_traced (hw : HooksReturn w I) (cs : List Call) (hst : Installed st.globals) (hI : I st.heap)
    (hlog : OldHooksOfOthers st.log) :
    Halts (fun n => program (exec w n) cs) st fun records st' =>
      records.map (·.call) = cs ∧ (∀ r ∈ records, Traced r.call r.result r.events r.after) ∧
        OldHooksOfOthers st'.log := by
  induction cs generalizing st with
  | nil => exact .pure ⟨rfl, nofun, hlog⟩
  | cons c cs ih =>
    refine .step rfl (Halts.bind (exec_traced hw c hst hI) ?_)
    rintro r s ⟨⟨hs, hIs⟩, events, hl, ht⟩
    refine .step rfl (Halts.bind (ih hs hIs (hl ▸ hlog.append ht)) ?_)
    rintro records t ⟨hm, hr, ho⟩
    refine .pure ⟨by rw [List.map_cons, hm], List.forall_mem_cons.2 ⟨?_, hr⟩, ho⟩
    simpa [hl] using ht

/-- The tracer stays installed, forwards once and never enters itself. Let each hook
of others return, as long as their memory has some invariant that they keep. After
`my_init`, every call of any program returns and is traced, and no old hook is ever
the tracer's. -/
theorem tracer_runs (w : World ι σ) (I : σ → Prop) (hw : HooksReturn w I) (malloc_hook free_hook : Option ι)
    (heap : σ) (hI : I heap) (cs : List Call) :
    Halts (fun n => do my_init; program (exec w n) cs) ⟨⟨.of malloc_hook, .of free_hook, .null, .null⟩, heap, []⟩
      fun records st' =>
        records.map (·.call) = cs ∧ (∀ r ∈ records, Traced r.call r.result r.events r.after) ∧
          OldHooksOfOthers st'.log := by
  refine .step rfl (program_traced hw cs ?_ hI ?_)
  · exact ⟨rfl, rfl, Hook.of_ne_mine _, Hook.of_ne_mine _⟩
  · intro g hg
    simp only [assign_log, List.cons_append, List.nil_append, List.mem_cons, List.not_mem_nil, or_false,
      Event.assigned.injEq] at hg
    rcases hg with rfl | rfl | rfl | rfl
    · exact ⟨Hook.of_ne_mine _, nofun⟩
    · exact ⟨Hook.of_ne_mine _, Hook.of_ne_mine _⟩
    · exact ⟨Hook.of_ne_mine _, Hook.of_ne_mine _⟩
    · exact ⟨Hook.of_ne_mine _, Hook.of_ne_mine _⟩

/-- The name of a hook of others. -/
def Hook.name : Hook ι → Option ι
  | other i => some i
  | null | mine => none

/-- A `malloc` hook that counts its calls, forwards each to its predecessor, which it
keeps in its memory, and installs itself again; and a `printf` that needs a buffer
each time. The memory is the next free address, the count and the predecessor. -/
def counting : World Unit (Word × Nat × Option Unit) where
  allocator _ h := (h.1, h.1 + 16, h.2)
  malloc_hook _ size _ := .heap (fun h => (h.1, h.2.1 + 1, h.2.2)) fun h => .set_malloc_hook h.2.2 <|
    .malloc size fun ptr => .hooks fun hook _ => .heap (fun h => (h.1, h.2.1, hook.name)) fun _ =>
      .set_malloc_hook (some ()) (.ret ptr)
  free_hook _ _ _ := .ret ()
  printf _ _ := .malloc 1024 fun buf => .free buf (.ret ())

/-- The predecessor is the allocator itself; over an arbitrary one the hook may forward to itself. -/
theorem counting_returns : HooksReturn counting fun h => h.2.2 = none where
  malloc_hook := by
    rintro i size caller ⟨g, ⟨next, count, -⟩, log⟩ - rfl
    exact .succ (.of_run (fun _ => rfl) rfl)
  free_hook _ _ _ _ _ hI := .of_run (fun _ => rfl) hI
  allocator _ _ hI := hI
  printf _ _ _ := trivial

theorem tracer_runs_counting :
    Halts (fun n => do my_init; program (exec counting n) [.malloc 111, .malloc 222, .free 4096])
      ⟨⟨.other (), .other (), .null, .null⟩, (4096, 0, none), []⟩ fun records st' =>
        records.map (·.call) = [.malloc 111, .malloc 222, .free 4096] ∧
          (∀ r ∈ records, Traced r.call r.result r.events r.after) ∧ OldHooksOfOthers st'.log :=
  tracer_runs counting _ counting_returns (some ()) (some ()) (4096, 0, none) rfl _

end SiteCode.MallocHook
