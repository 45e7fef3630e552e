import SiteCode.Malloc.Wrappers
/-!
# Forwarding to an underlying allocator

The wrappers over a library that only forwards: `printf` and `dlsym` do not
allocate, and every symbol is found. `mymalloc2` resolves `realloc` to the
symbol `malloc`, so its `realloc` runs `malloc` on the old pointer.
-/

namespace SiteCode.Malloc

/-- An allocator as a state machine. -/
structure Allocator (S : Type) where
  malloc : Word → S → Word × S
  calloc : Word → Word → S → Word × S
  realloc : Word → Word → S → Word × S
  free : Word → S → S
  free_null : ∀ s, free NULL s = s

namespace Allocator

variable {S : Type}

/-- A function of the allocator on its argument registers. -/
def call (A : Allocator S) (f : Fn) (args : List Word) (s : S) : Word × S :=
  match f with
  | .malloc => A.malloc (args.getD 0 0) s
  | .calloc => A.calloc (args.getD 0 0) (args.getD 1 0) s
  | .realloc => A.realloc (args.getD 0 0) (args.getD 1 0) s
  | .free => (NULL, A.free (args.getD 0 0) s)

/-- The library over an allocator that only forwards. -/
def libc (A : Allocator S) : Libc S where
  call f args := fun st => some ((A.call f args st.world).1, { st with world := (A.call f args st.world).2 })
  printf _ _ := pure ()
  dlsym name := pure (Fn.named name)
  dlerror := pure none
  fputs _ := pure ()

/-- A call without an interposer. -/
def direct (A : Allocator S) (c : Call Word) : StateM S Word := fun s => A.call c.fn c.args s

end Allocator

/-! ## Programs -/

/-- A pointer argument: a value, or the result of an earlier call. -/
inductive Ptr where
  | val (w : Word)
  | res (i : Nat)
  deriving DecidableEq, Repr

def Ptr.eval (results : List Word) : Ptr → Word
  | val w => w
  | res i => results.getD i NULL

/-- The results of a sequence of calls, after earlier `results`. -/
def runCalls {m : Type → Type} [Monad m] (exec : Call Word → m Word) (results : List Word) :
    List (Call Ptr) → m (List Word)
  | [] => pure results
  | c :: cs => do
    let r ← exec (c.map (Ptr.eval results))
    runCalls exec (results ++ [r]) cs

/-- No static pointer is resolved yet. -/
def fresh {W : Type} (world : W) : St W := ⟨fun _ => none, world⟩

/-- Calls through the wrappers return what direct calls return, and leave the
allocator in the same state. -/
def Transparent (src : Source) {S : Type} (A : Allocator S) (s : S) (cs : List (Call Ptr)) : Prop :=
  ∃ st, (runCalls (src.wrappers A.libc).exec [] cs).run (fresh s) = some (((runCalls A.direct [] cs).run s).1, st) ∧
    st.world = ((runCalls A.direct [] cs).run s).2

/-! ## One call -/

section

variable {S : Type} {A : Allocator S} {st : St S}

@[simp] theorem run_call (f : Fn) (args : List Word) : (A.libc.call f args).run st =
    some ((A.call f args st.world).1, { st with world := (A.call f args st.world).2 }) := rfl

@[simp] theorem run_setCache {W : Type} {st : St W} (p : Fn) (f : Option Fn) :
    (setCache p f).run st = some ((), { st with cache := Function.update st.cache p f }) := rfl

@[simp] theorem printf_libc (fmt : String) (args : List Arg) : A.libc.printf fmt args = pure () := rfl
@[simp] theorem dlsym_libc (name : String) : A.libc.dlsym name = pure (Fn.named name) := rfl
@[simp] theorem dlerror_libc : A.libc.dlerror = pure none := rfl

theorem call_free_null (s : S) : A.call .free [NULL] s = (NULL, s) := by
  simp [Allocator.call, A.free_null]

/-- The wrappers that call the allocator by its own symbols. -/
theorem exec_direct {src : Source} (hs : src ≠ .mymalloc2) (c : Call Word) :
    ((src.wrappers A.libc).exec c).run st =
      some ((A.call c.fn c.args st.world).1, { st with world := (A.call c.fn c.args st.world).2 }) := by
  by_cases hc : c = .free NULL
  · subst hc
    simp [Source.exec_free_null, Call.fn, Call.args, call_free_null]
  · obtain ⟨fmt, args, h⟩ := src.exec_eq c hc
    have hpre : src.pre A.libc c.fn = pure () := by cases src <;> first | rfl | exact absurd rfl hs
    have hfwd : src.forward A.libc c.fn c.args = A.libc.call c.fn c.args := by
      cases src <;> first | rfl | exact absurd rfl hs
    rw [h, hpre, hfwd]
    by_cases hf : c.fn = .free
    · simp [hf, Allocator.call]
    · simp [hf]

/-- The function `mymalloc2` resolves a wrapper to. -/
def target : Fn → Fn
  | .realloc => .malloc
  | p => p

/-- Every static pointer is null or resolved. -/
def Resolved {W : Type} (st : St W) : Prop := ∀ p, st.cache p = none ∨ st.cache p = some (target p)

theorem resolved_fresh {W : Type} {world : W} : Resolved (fresh world) := fun _ => .inl rfl

theorem run_resolve (hst : Resolved st) {p : Fn} {n : String} (hn : Fn.named n = some (target p)) :
    (resolve A.libc p n).run st =
      some ((), { st with cache := Function.update st.cache p (some (target p)) }) := by
  rcases hst p with h | h
  · simp [resolve, h, hn]
  · have e : Function.update st.cache p (some (target p)) = st.cache := by rw [← h, Function.update_eq_self]
    simp [resolve, h, e]

theorem run_callp {W : Type} {c : Libc W} {st : St W} {p f : Fn} (h : st.cache p = some f) (args : List Word) :
    (callp c p args).run st = (c.call f args).run st := by
  simp [callp, h]

theorem Resolved.update (hst : Resolved st) (p : Fn) (world : S) :
    Resolved ⟨Function.update st.cache p (some (target p)), world⟩ := by
  intro q
  by_cases h : q = p
  · subst h; simp
  · simpa [h] using hst q

/-- What `mymalloc2` does with a call: it forwards it to the resolved function. -/
theorem exec_mymalloc2 (hst : Resolved st) (c : Call Word) (hc : c ≠ .free NULL) :
    ((Source.mymalloc2.wrappers A.libc).exec c).run st = some ((A.call (target c.fn) c.args st.world).1,
      ⟨Function.update st.cache c.fn (some (target c.fn)), (A.call (target c.fn) c.args st.world).2⟩) := by
  obtain ⟨fmt, args, h⟩ := Source.mymalloc2.exec_eq c hc
  have hpre := run_resolve (A := A) hst (p := c.fn) (n := Source.symbol c.fn) (by cases c.fn <;> decide)
  rw [h]
  by_cases hf : c.fn = .free
  · rw [hf] at hpre
    simp [hf, Source.pre, Source.forward, hpre, run_callp (f := .free), target, Allocator.call]
  · simp [hf, Source.pre, Source.forward, hpre, run_callp (f := target c.fn)]

/-! ## Runs -/

/-- A call that is not a `realloc` through `mymalloc2` is the direct call. -/
theorem exec_forwards (src : Source) (hst : Resolved st) (c : Call Word) (hc : src = .mymalloc2 → c.fn ≠ .realloc) :
    ∃ st', ((src.wrappers A.libc).exec c).run st = some ((A.call c.fn c.args st.world).1, st') ∧ Resolved st' ∧
      st'.world = (A.call c.fn c.args st.world).2 := by
  by_cases hs : src = .mymalloc2
  · subst hs
    by_cases hn : c = .free NULL
    · subst hn
      have e := call_free_null (A := A) st.world
      exact ⟨st, by simp [Source.exec_free_null, Call.fn, Call.args, e], hst, by simp [Call.fn, Call.args, e]⟩
    · have ht : target c.fn = c.fn := by
        have := hc rfl
        cases hf : c.fn <;> simp_all [target]
      have h := exec_mymalloc2 (A := A) hst c hn
      have hst' := hst.update c.fn (A.call (target c.fn) c.args st.world).2
      rw [ht] at h hst'
      exact ⟨_, h, hst', rfl⟩
  · exact ⟨_, exec_direct hs c, hst, rfl⟩

theorem runCalls_cons {W : Type} {exec : Call Word → M W Word} {results : List Word} {c : Call Ptr} {st st' : St W}
    {r : Word} (h : (exec (c.map (Ptr.eval results))).run st = some (r, st')) (cs : List (Call Ptr)) :
    (runCalls exec results (c :: cs)).run st = (runCalls exec (results ++ [r]) cs).run st' := by
  rw [runCalls, StateT.run_bind, h]
  rfl

theorem runCalls_direct_cons (results : List Word) (c : Call Ptr) (cs : List (Call Ptr)) (s : S) :
    (runCalls A.direct results (c :: cs)).run s =
      (runCalls A.direct (results ++ [(A.call c.fn (c.map (Ptr.eval results)).args s).1]) cs).run
        (A.call c.fn (c.map (Ptr.eval results)).args s).2 := by
  rw [← Call.fn_map (Ptr.eval results) c]
  rfl

theorem runCalls_forwards {src : Source} (cs : List (Call Ptr)) (hc : src = .mymalloc2 → ∀ c ∈ cs, c.fn ≠ .realloc)
    (results : List Word) (hst : Resolved st) :
    ∃ st', (runCalls (src.wrappers A.libc).exec results cs).run st =
        some (((runCalls A.direct results cs).run st.world).1, st') ∧
      st'.world = ((runCalls A.direct results cs).run st.world).2 := by
  induction cs generalizing results st with
  | nil => exact ⟨st, rfl, rfl⟩
  | cons c cs ih =>
    obtain ⟨st₁, h1, h2, h3⟩ := exec_forwards src hst (c.map (Ptr.eval results))
      fun hs => by simpa using hc hs c List.mem_cons_self
    obtain ⟨st', h4, h5⟩ := ih (fun hs c hm => hc hs c (List.mem_cons_of_mem _ hm)) (results ++ [_]) h2
    rw [Call.fn_map] at h3
    exact ⟨st', by rw [runCalls_cons h1, runCalls_direct_cons, ← h3, h4, Call.fn_map],
      by rw [runCalls_direct_cons, ← h3, h5, Call.fn_map]⟩

end

/-! ## An allocator that tells the functions apart -/

/-- An allocator that lists the functions that run. -/
def logger : Allocator (List Fn) where
  malloc _ s := (NULL, .malloc :: s)
  calloc _ _ s := (NULL, .calloc :: s)
  realloc _ _ s := (NULL, .realloc :: s)
  free ptr s := if ptr = NULL then s else .free :: s
  free_null _ := if_pos rfl

theorem mem_logger_call (f : Fn) (args : List Word) (s : List Fn) :
    ∀ g ∈ (logger.call f args s).2, g = f ∨ g ∈ s := by
  cases f <;> simp [Allocator.call, logger]
  split <;> simp_all

theorem logger_call_subset (f : Fn) (args : List Word) (s : List Fn) : s ⊆ (logger.call f args s).2 := by
  cases f <;> simp [Allocator.call, logger]
  split <;> simp

theorem logger_direct_subset (cs : List (Call Ptr)) (results : List Word) (s : List Fn) :
    s ⊆ ((runCalls logger.direct results cs).run s).2 := by
  induction cs generalizing results s with
  | nil => exact fun _ h => h
  | cons c cs ih =>
    rw [runCalls_direct_cons]
    exact List.Subset.trans (logger_call_subset ..) (ih ..)

/-- A direct `realloc` is in the list. -/
theorem realloc_mem_direct {cs : List (Call Ptr)} {c : Call Ptr} (hc : c ∈ cs) (hf : c.fn = .realloc)
    (results : List Word) (s : List Fn) : .realloc ∈ ((runCalls logger.direct results cs).run s).2 := by
  induction cs generalizing results s with
  | nil => cases hc
  | cons d cs ih =>
    rw [runCalls_direct_cons]
    rcases List.mem_cons.1 hc with rfl | hc
    · exact logger_direct_subset _ _ _ (by simp [hf, Allocator.call, logger])
    · exact ih hc ..

/-- A `realloc` through `mymalloc2` is not. -/
theorem realloc_not_mem_mymalloc2 (cs : List (Call Ptr)) (results : List Word) {st st' : St (List Fn)} {rs : List Word}
    (hst : Resolved st) (h : .realloc ∉ st.world)
    (hr : (runCalls (Source.mymalloc2.wrappers logger.libc).exec results cs).run st = some (rs, st')) :
    .realloc ∉ st'.world := by
  induction cs generalizing results st with
  | nil => cases hr; exact h
  | cons c cs ih =>
    by_cases hn : c.map (Ptr.eval results) = .free NULL
    · have h1 : ((Source.mymalloc2.wrappers logger.libc).exec (c.map (Ptr.eval results))).run st = some (NULL, st) := by
        rw [hn, Source.exec_free_null]; rfl
      rw [runCalls_cons h1] at hr
      exact ih _ hst h hr
    · rw [runCalls_cons (exec_mymalloc2 hst _ hn)] at hr
      refine ih _ (hst.update _ _) (fun hm => ?_) hr
      rcases mem_logger_call _ _ _ _ hm with e | hm
      · cases hf : (c.map (Ptr.eval results)).fn <;> rw [hf] at e <;> cases e
      · exact h hm

/-! ## When the interposers are transparent -/

/-- The interposers forward every call, except for `realloc` in `mymalloc2`. A
sequence of calls gives the direct results and the direct allocator state, for every
allocator, exactly when it has no `realloc` or goes through another file. -/
theorem transparent_iff (src : Source) (cs : List (Call Ptr)) :
    (∀ (S : Type) (A : Allocator S) s, Transparent src A s cs) ↔ (src = .mymalloc2 → ∀ c ∈ cs, c.fn ≠ .realloc) := by
  constructor
  · rintro h rfl c hc hf
    obtain ⟨st, h1, h2⟩ := h _ logger []
    -- the logger saw a direct `realloc`, and none through `mymalloc2`
    have hno := realloc_not_mem_mymalloc2 cs [] resolved_fresh List.not_mem_nil h1
    exact hno (h2 ▸ realloc_mem_direct hc hf [] [])
  · intro h S A s
    exact runCalls_forwards cs h [] resolved_fresh

/-- An allocator that hands out the next free address. -/
def bump : Allocator Word where
  malloc size s := (s, s + size)
  calloc nmemb size s := (s, s + nmemb * size)
  realloc _ size s := (s, s + size)
  free _ s := s
  free_null _ := rfl

/-- Growing a block through `mymalloc2` takes as many bytes as the old pointer
says. -/
theorem mymalloc2_realloc_not_transparent :
    ¬ Transparent .mymalloc2 bump 4096 [.malloc 10, .realloc (.res 0) 20] := by
  rintro ⟨st, h1, h2⟩
  cases h1
  exact absurd h2 (by decide)

end SiteCode.Malloc
