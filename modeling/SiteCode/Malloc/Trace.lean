import SiteCode.Malloc.Transparent
/-!
# What the interposers print

The wrappers over a library that records what happens: the symbols that are asked for,
the functions of the allocator that run, and the lines that are printed. A program that
runs through the wrappers is read back from the record, call by call.
-/

namespace SiteCode.Malloc

/-! ## The library -/

inductive Event where
  | asked (name : String)
  | ran (f : Fn) (args : List Word) (ret : Word)
  | printed (fmt : String) (args : List Arg)
  deriving DecidableEq, Repr

/-- The heap, the record, and the error that `dlerror` is to report. -/
structure Recorder (S : Type) where
  heap : S
  events : List Event
  error : Option String

variable {S : Type}

/-- The symbol behind the wrappers, where there is one. -/
def found (there : String → Bool) (name : String) : Option Fn := if there name then Fn.named name else none

/-- The library over an allocator, without the symbols that are not `there`. -/
def Allocator.recorded (A : Allocator S) (there : String → Bool) : Libc (Recorder S) where
  call f args := fun st =>
    let (ret, heap) := A.call f args st.world.heap
    some (ret, { st with world := { st.world with heap, events := st.world.events ++ [.ran f args ret] } })
  printf fmt args := fun st =>
    some ((), { st with world := { st.world with events := st.world.events ++ [.printed fmt args] } })
  dlsym name := fun st =>
    let error := if found there name = none then some ("undefined symbol: " ++ name) else none
    some (found there name, { st with world := { st.world with events := st.world.events ++ [.asked name], error } })
  dlerror := fun st => some (st.world.error, { st with world := { st.world with error := none } })
  fputs _ := pure ()

/-! ## The trace of a program -/

namespace Source

/-- The function that a wrapper gets to. -/
def reaches (src : Source) (there : String → Bool) (p : Fn) : Option Fn :=
  match src with
  | mymalloc2 => found there (symbol p)
  | mymalloc1 | mymalloc3 => some p

/-- The events of a call that runs `f`. What it frees is printed before it is freed. -/
def entry (src : Source) (first : Bool) (f : Fn) (c : Call Word) (r : Word) : List Event :=
  let asked : List Event := if src = mymalloc2 ∧ first then [.asked (symbol c.fn)] else []
  let ran := Event.ran f c.args r
  let printed := Event.printed (src.line r c).1 (src.line r c).2
  asked ++ if c.fn = .free then [printed, ran] else [ran, printed]

/-- The events of a sequence of calls with their results. The wrappers in `known` have their pointers. -/
def trace (src : Source) (there : String → Bool) (known : List Fn) : List (Call Word × Word) → List Event
  | [] => []
  | (c, r) :: rest =>
    if c = .free NULL then trace src there known rest
    else
      match src.reaches there c.fn with
      | some f => src.entry (c.fn ∉ known) f c r ++ trace src there (c.fn :: known) rest
      | none => []

end Source

/-- The calls of a program with their results, when `results` are the earlier ones. -/
def answered (results : List Word) : List (Call Ptr) → List Word → List (Call Word × Word)
  | c :: cs, r :: rs => (c.map (Ptr.eval results), r) :: answered (results ++ [r]) cs rs
  | _, _ => []

/-- The allocator gives the recorded results, one after the other, and ends in `s'`. -/
def Replays (A : Allocator S) : S → List Event → S → Prop
  | s, [], s' => s' = s
  | s, .ran f args ret :: es, s' => (A.call f args s).1 = ret ∧ Replays A (A.call f args s).2 es s'
  | s, _ :: es, s' => Replays A s es s'

theorem Replays.append {A : Allocator S} {s s' s'' : S} {es fs : List Event} (h : Replays A s es s')
    (h' : Replays A s' fs s'') : Replays A s (es ++ fs) s'' := by
  induction es generalizing s with
  | nil =>
    obtain rfl : s' = s := h
    exact h'
  | cons e es ih =>
    cases e with
    | ran f args ret => exact ⟨h.1, ih h.2⟩
    | asked name => exact ih h
    | printed fmt args => exact ih h

theorem replays_entry {A : Allocator S} {s : S} {f : Fn} {c : Call Word} {r : Word} (src : Source) (first : Bool)
    (h : (A.call f c.args s).1 = r) : Replays A s (src.entry first f c r) (A.call f c.args s).2 := by
  unfold Source.entry
  split <;> split <;> exact ⟨h, rfl⟩

/-! ## One call -/

theorem found_symbol {there : String → Bool} {p f : Fn} (h : found there (Source.symbol p) = some f) :
    f = target p := by
  unfold found at h
  split at h
  · cases p <;> simpa [Source.symbol, Fn.named, target, eq_comm] using h
  · cases h

/-- What gets `free` is `free`. -/
theorem reaches_free {src : Source} {there : String → Bool} {f : Fn} (h : src.reaches there .free = some f) :
    f = .free := by
  cases src with
  | mymalloc1 | mymalloc3 => exact (Option.some.inj h).symm
  | mymalloc2 => exact found_symbol h

/-- The wrappers in `known` have the pointers they ask for, the others none yet. -/
structure Knows (src : Source) (there : String → Bool) (known : List Fn) (st : St (Recorder S)) : Prop where
  cache : src = .mymalloc2 → ∀ p, st.cache p = if p ∈ known then found there (Source.symbol p) else none
  error : st.world.error = none

section
variable {A : Allocator S} {src : Source} {there : String → Bool} {known : List Fn} {st : St (Recorder S)} {p f : Fn}

/-- The state after one more event. -/
def St.seen (st : St (Recorder S)) (e : Event) : St (Recorder S) :=
  { st with world := { st.world with events := st.world.events ++ [e] } }

/-- The state after a function of the allocator. -/
def St.ran (A : Allocator S) (st : St (Recorder S)) (f : Fn) (args : List Word) : St (Recorder S) :=
  { st with world := { st.world with
    heap := (A.call f args st.world.heap).2
    events := st.world.events ++ [.ran f args (A.call f args st.world.heap).1] } }

@[simp] theorem run_recorded_printf (fmt : String) (args : List Arg) :
    ((A.recorded there).printf fmt args).run st = some ((), st.seen (.printed fmt args)) := rfl

@[simp] theorem run_recorded_dlsym (name : String) : ((A.recorded there).dlsym name).run st =
    some (found there name, { st.seen (.asked name) with world := { (st.seen (.asked name)).world with
      error := if found there name = none then some ("undefined symbol: " ++ name) else none } }) := rfl

@[simp] theorem run_recorded_dlerror : (A.recorded there).dlerror.run st =
    some (st.world.error, { st with world := { st.world with error := none } }) := rfl

/-- Neither the pointers nor the error change. -/
theorem Knows.of_eq {st' : St (Recorder S)} (hk : Knows src there known st) (h1 : st'.cache = st.cache)
    (h2 : st'.world.error = st.world.error) : Knows src there known st' := by
  refine ⟨fun hs p => ?_, h2.trans hk.error⟩
  rw [h1]
  exact hk.cache hs p

/-- A wrapper that gets to a function asks for it once. -/
theorem run_pre_found (hk : Knows src there known st) (hr : src.reaches there p = some f) : ∃ st',
    (src.pre (A.recorded there) p).run st = some ((), st') ∧ Knows src there (p :: known) st' ∧
      (src = .mymalloc2 → st'.cache p = some f) ∧ st'.world.heap = st.world.heap ∧
      st'.world.events =
        st.world.events ++ if src = .mymalloc2 ∧ p ∉ known then [.asked (Source.symbol p)] else [] := by
  cases src with
  | mymalloc1 | mymalloc3 => exact ⟨st, rfl, ⟨nofun, hk.error⟩, nofun, rfl, by simp⟩
  | mymalloc2 =>
    have hcache := hk.cache rfl
    have hf : found there (Source.symbol p) = some f := hr
    by_cases hp : p ∈ known
    · have hset : st.cache p = some f := by rw [hcache, if_pos hp, hf]
      refine ⟨st, ?_, ⟨fun _ q => ?_, hk.error⟩, fun _ => hset, rfl, by simp [hp]⟩
      · simp [Source.pre, resolve, hset]
      · by_cases hq : q = p
        · simp [hq, hset, hf]
        · simp [hcache, hq]
    · have hnull : st.cache p = none := by rw [hcache, if_neg hp]
      refine ⟨⟨Function.update st.cache p (some f), { (st.seen (.asked (Source.symbol p))).world with error := none }⟩,
        ?_, ⟨fun _ q => ?_, rfl⟩, fun _ => by simp, rfl, by simp [hp, St.seen]⟩
      · simp [Source.pre, resolve, hnull, hf, St.seen]
      · by_cases hq : q = p
        · simp [hq, hf]
        · simp [hcache, hq]

/-- The library does not know the symbol, and the program is over. -/
theorem run_pre_missing (hk : Knows src there known st) (hr : src.reaches there p = none) :
    (src.pre (A.recorded there) p).run st = none := by
  cases src with
  | mymalloc1 | mymalloc3 => cases hr
  | mymalloc2 =>
    have hf : found there (Source.symbol p) = none := hr
    have hnull : st.cache p = none := by rw [hk.cache rfl, hf, ite_self]
    simp only [Source.pre, resolve, StateT.run_bind, StateT.run_get, hnull, Option.pure_def, Option.bind_eq_bind,
      Option.bind_some, if_pos, run_recorded_dlsym, run_setCache, run_recorded_dlerror, hf]
    rfl

theorem run_forward (hf : src.reaches there p = some f) (hc : src = .mymalloc2 → st.cache p = some f)
    (args : List Word) :
    (src.forward (A.recorded there) p args).run st = ((A.recorded there).call f args).run st := by
  cases src with
  | mymalloc1 | mymalloc3 =>
    obtain rfl := Option.some.inj hf
    rfl
  | mymalloc2 => exact run_callp (hc rfl) args

/-- A call, where its function is found: what it returns, and what is recorded. -/
theorem exec_found (hk : Knows src there known st) {c : Call Word} (hc : c ≠ .free NULL)
    (hr : src.reaches there c.fn = some f) : ∃ r st',
    ((src.wrappers (A.recorded there)).exec c).run st = some (r, st') ∧ Knows src there (c.fn :: known) st' ∧
      st'.world.events = st.world.events ++ src.entry (c.fn ∉ known) f c r ∧
      Replays A st.world.heap (src.entry (c.fn ∉ known) f c r) st'.world.heap := by
  obtain ⟨st₁, h1, hk₁, hset, hheap, hevents⟩ := run_pre_found (A := A) hk hr
  have hfwd : ∀ st' : St (Recorder S), st'.cache = st₁.cache →
      (src.forward (A.recorded there) c.fn c.args).run st' =
        some ((A.call f c.args st'.world.heap).1, st'.ran A f c.args) := by
    intro st' hs
    exact run_forward hr (fun h => hs ▸ hset h) c.args
  rw [src.exec_line c hc, StateT.run_bind, h1]
  by_cases hfree : c.fn = .free
  · have hf : f = .free := reaches_free (hfree ▸ hr)
    have hnull : (A.call f c.args st.world.heap).1 = NULL := by rw [hf]; rfl
    have hlast := hfwd (st₁.seen (.printed (src.line NULL c).1 (src.line NULL c).2)) rfl
    refine ⟨NULL, (st₁.seen (.printed (src.line NULL c).1 (src.line NULL c).2)).ran A f c.args, ?_,
      hk₁.of_eq rfl rfl, ?_, ?_⟩
    · simp only [if_pos hfree, Option.bind_eq_bind, Option.bind_some, StateT.run_bind, run_recorded_printf, hlast]
      rfl
    · simp [Source.entry, St.ran, St.seen, hevents, hheap, hfree, hnull]
    · have hreplay := replays_entry src (c.fn ∉ known) hnull
      rwa [← hheap] at hreplay ⊢
  · refine ⟨(A.call f c.args st.world.heap).1, (st₁.ran A f c.args).seen
      (.printed (src.line (A.call f c.args st.world.heap).1 c).1 (src.line (A.call f c.args st.world.heap).1 c).2), ?_,
      hk₁.of_eq rfl rfl, ?_, ?_⟩
    · simp only [if_neg hfree, Option.bind_eq_bind, Option.bind_some, StateT.run_bind, hfwd st₁ rfl, hheap]
      rfl
    · simp [Source.entry, St.ran, St.seen, hevents, hheap, hfree]
    · have hreplay := replays_entry (A := A) src (c.fn ∉ known) (c := c) (f := f) (s := st.world.heap) rfl
      rwa [← hheap] at hreplay ⊢

theorem exec_missing (hk : Knows src there known st) {c : Call Word} (hc : c ≠ .free NULL)
    (hr : src.reaches there c.fn = none) : ((src.wrappers (A.recorded there)).exec c).run st = none := by
  rw [src.exec_line c hc, StateT.run_bind, run_pre_missing hk hr]
  rfl

/-! ## Programs -/

/-- Whatever a program that returns did is its trace. -/
theorem runCalls_trace (cs : List (Call Ptr)) {results rs : List Word} {st' : St (Recorder S)}
    (hk : Knows src there known st)
    (h : (runCalls (src.wrappers (A.recorded there)).exec results cs).run st = some (rs, st')) :
    ∃ new, rs = results ++ new ∧ new.length = cs.length ∧
      st'.world.events = st.world.events ++ src.trace there known (answered results cs new) ∧
      Replays A st.world.heap (src.trace there known (answered results cs new)) st'.world.heap := by
  induction cs generalizing results st known with
  | nil =>
    cases h
    exact ⟨[], by simp, rfl, by simp [answered, Source.trace], rfl⟩
  | cons c cs ih =>
    by_cases hc : c.map (Ptr.eval results) = .free NULL
    · have h1 : ((src.wrappers (A.recorded there)).exec (c.map (Ptr.eval results))).run st = some (NULL, st) := by
        rw [hc, Source.exec_free_null]
        rfl
      rw [runCalls_cons h1] at h
      obtain ⟨new, rfl, hlen, hev, hre⟩ := ih hk h
      refine ⟨NULL :: new, by simp, by simp [hlen], ?_, ?_⟩
      · simpa [answered, Source.trace, hc] using hev
      · simpa [answered, Source.trace, hc] using hre
    · cases hr : src.reaches there (c.map (Ptr.eval results)).fn with
      | none =>
        have h1 := exec_missing (A := A) hk hc hr
        rw [runCalls, StateT.run_bind, h1] at h
        cases h
      | some f =>
        obtain ⟨r, st₁, h1, hk₁, hev₁, hre₁⟩ := exec_found (A := A) hk hc hr
        rw [runCalls_cons h1] at h
        obtain ⟨new, rfl, hlen, hev, hre⟩ := ih hk₁ h
        refine ⟨r :: new, by simp, by simp [hlen], ?_, ?_⟩
        · rw [hev, hev₁, List.append_assoc]
          simp only [answered, Source.trace, if_neg hc, hr]
        · simp only [answered, Source.trace, if_neg hc, hr]
          exact hre₁.append hre

/-- A program ends early exactly at a call whose wrapper misses its symbol. -/
theorem runCalls_none (cs : List (Call Ptr)) {results : List Word} (hk : Knows src there known st) :
    (runCalls (src.wrappers (A.recorded there)).exec results cs).run st = none ↔ ∃ pre c post rs st',
      cs = pre ++ c :: post ∧
      (runCalls (src.wrappers (A.recorded there)).exec results pre).run st = some (rs, st') ∧
      c.map (Ptr.eval rs) ≠ .free NULL ∧ src.reaches there c.fn = none := by
  induction cs generalizing results st known with
  | nil =>
    refine ⟨nofun, ?_⟩
    rintro ⟨pre, c, post, rs, st', h, -⟩
    exact absurd h (by simp)
  | cons c cs ih =>
    by_cases hmiss : c.map (Ptr.eval results) ≠ .free NULL ∧ src.reaches there c.fn = none
    · have h1 := exec_missing (A := A) hk hmiss.1 ((Call.fn_map _ c).symm ▸ hmiss.2)
      refine iff_of_true ?_ ⟨[], c, cs, results, st, rfl, rfl, hmiss.1, hmiss.2⟩
      rw [runCalls, StateT.run_bind, h1]
      rfl
    · have hstep : ∃ r st₁ known₁, ((src.wrappers (A.recorded there)).exec (c.map (Ptr.eval results))).run st =
          some (r, st₁) ∧ Knows src there known₁ st₁ := by
        by_cases hc : c.map (Ptr.eval results) = .free NULL
        · refine ⟨NULL, st, known, ?_, hk⟩
          rw [hc, Source.exec_free_null]
          rfl
        · obtain ⟨f, hf⟩ := Option.ne_none_iff_exists'.1 fun h => hmiss ⟨hc, h⟩
          obtain ⟨r, st₁, h1, hk₁, -⟩ := exec_found (A := A) hk hc ((Call.fn_map _ c).symm ▸ hf)
          exact ⟨r, st₁, _, h1, hk₁⟩
      obtain ⟨r, st₁, known₁, h1, hk₁⟩ := hstep
      rw [runCalls_cons h1, ih hk₁]
      constructor
      · rintro ⟨pre, d, post, rs, st', rfl, hpre, hd⟩
        exact ⟨c :: pre, d, post, rs, st', rfl, (runCalls_cons h1 pre).trans hpre, hd⟩
      · rintro ⟨pre, d, post, rs, st', he, hpre, hd⟩
        cases pre with
        | nil =>
          obtain ⟨rfl, rfl⟩ := List.cons.inj he
          cases hpre
          exact absurd hd hmiss
        | cons c' pre =>
          obtain ⟨rfl, rfl⟩ := List.cons.inj he
          rw [runCalls_cons h1] at hpre
          exact ⟨pre, d, post, rs, st', rfl, hpre, hd⟩

end

/-- The wrappers that ask for a symbol and are not in `known`. -/
def askers (known : List Fn) (name : String) : List Fn :=
  [Fn.malloc, .calloc, .realloc, .free].filter fun p => p ∉ known ∧ Source.symbol p = name

theorem askers_cons (p : Fn) (known : List Fn) (name : String) :
    askers (p :: known) name = (askers known name).erase p := by
  have hnd : (askers known name).Nodup := List.Nodup.filter _ (by decide)
  rw [hnd.erase_eq_filter p, askers, askers, List.filter_filter]
  apply List.filter_congr
  intro q _
  by_cases hq : q = p <;> simp [hq]

theorem mem_askers {p : Fn} {known : List Fn} {name : String} :
    p ∈ askers known name ↔ p ∉ known ∧ Source.symbol p = name := by
  cases p <;> simp [askers]

theorem count_entry (src : Source) (known : List Fn) (f : Fn) (c : Call Word) (r : Word) (name : String) :
    (src.entry (c.fn ∉ known) f c r).count (.asked name) =
      if src = .mymalloc2 ∧ c.fn ∈ askers known name then 1 else 0 := by
  have hrest : (if c.fn = .free then [Event.printed (src.line r c).1 (src.line r c).2, .ran f c.args r]
      else [.ran f c.args r, .printed (src.line r c).1 (src.line r c).2]).count (.asked name) = 0 := by
    split <;> simp
  simp only [Source.entry, List.count_append, hrest, Nat.add_zero, mem_askers, ← and_assoc, decide_eq_true_eq]
  by_cases hs : src = .mymalloc2 ∧ c.fn ∉ known
  · by_cases hn : Source.symbol c.fn = name <;> simp [hs, hn]
  · rw [if_neg hs, if_neg fun h => hs h.1]
    rfl

/-- A wrapper asks at most once. -/
theorem count_asked (src : Source) (there : String → Bool) (known : List Fn) (l : List (Call Word × Word))
    (name : String) : (src.trace there known l).count (.asked name) ≤ (askers known name).length := by
  induction l generalizing known with
  | nil => exact Nat.zero_le _
  | cons cr l ih =>
    obtain ⟨c, r⟩ := cr
    unfold Source.trace
    split
    · exact ih known
    · split
      · rename_i f hf
        have hrest := ih (c.fn :: known)
        rw [askers_cons] at hrest
        rw [List.count_append, count_entry]
        by_cases hm : c.fn ∈ askers known name
        · have hlen := List.length_erase_of_mem hm
          have hpos := List.length_pos_of_mem hm
          split <;> omega
        · rw [List.erase_of_not_mem hm] at hrest
          simpa [hm] using hrest
      · exact Nat.zero_le _

/-- A sequence of calls through the wrappers of any of the files, over a library
without some of its symbols, is over early exactly at the first call of a wrapper
whose symbol is missing. Else the calls gave one result each, and the record is the
trace that belongs to them: for each call but that of `free` on NULL, one function of
the allocator on the same arguments and one line with the arguments and the result,
for `free` before it is run. The recorded results are those of the allocator, and no
wrapper of `mymalloc2` asked for its symbol twice. -/
theorem interposer_traces (src : Source) (there : String → Bool) (A : Allocator S) (s : S) (cs : List (Call Ptr)) :
    let runs := fun cs => (runCalls (src.wrappers (A.recorded there)).exec [] cs).run (fresh ⟨s, [], none⟩)
    (runs cs = none ↔ ∃ pre c post rs st, cs = pre ++ c :: post ∧ runs pre = some (rs, st) ∧
      c.map (Ptr.eval rs) ≠ .free NULL ∧ src.reaches there c.fn = none) ∧
    ∀ rs st, runs cs = some (rs, st) → rs.length = cs.length ∧
      st.world.events = src.trace there [] (answered [] cs rs) ∧ Replays A s st.world.events st.world.heap ∧
      ∀ name, st.world.events.count (.asked name) ≤ (askers [] name).length := by
  intro runs
  have hk : Knows src there [] (fresh (⟨s, [], none⟩ : Recorder S)) := ⟨fun _ _ => rfl, rfl⟩
  refine ⟨runCalls_none cs hk, fun rs st hr => ?_⟩
  obtain ⟨new, hnew, hlen, hev, hre⟩ := runCalls_trace cs hk hr
  rw [List.nil_append] at hnew
  subst hnew
  have hevents : st.world.events = src.trace there [] (answered [] cs rs) := hev
  refine ⟨hlen, hevents, hevents ▸ hre, fun name => ?_⟩
  rw [hevents]
  exact count_asked src there [] _ name

end SiteCode.Malloc
