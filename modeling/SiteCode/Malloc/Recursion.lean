import SiteCode.Lib.Comp
import SiteCode.Malloc.Transparent
/-!
# Interposers that call themselves

Under `LD_PRELOAD` the library's own calls of `malloc` and `calloc` go through
the wrappers: `printf` gets the buffer of stdout with `malloc`, and `dlsym` may
use `calloc`. Neither wrapper guards itself against its own calls.
-/

namespace SiteCode.Malloc

open Lib

/-- The heap, the buffer of stdout, and what each later call of `dlsym` asks
`calloc` for, if anything. -/
structure Host (S : Type) where
  heap : S
  buffer : Option Word
  asks : Nat → Option (Word × Word)

variable {S : Type}

/-- The library whose own calls are made by `exec`. -/
def reentrant (A : Allocator S) (bufsiz : Word) (exec : Call Word → M (Host S) Word) : Libc (Host S) where
  call f args := fun st => some ((A.call f args st.world.heap).1,
    { st with world := { st.world with heap := (A.call f args st.world.heap).2 } })
  printf _ _ := do
    if (← get).world.buffer = none then
      -- the buffer is recorded only when `malloc` is back
      let buf ← exec (.malloc bufsiz)
      modify fun st => { st with world := { st.world with buffer := some buf } }
  dlsym name := do
    let ask := (← get).world.asks 0
    modify fun st => { st with world := { st.world with asks := fun i => st.world.asks (i + 1) } }
    match ask with
    | some (nmemb, size) => do
      let _ ← exec (.calloc nmemb size)
      return Fn.named name
    | none => return Fn.named name
  dlerror := pure none
  fputs _ := pure ()

/-- A call through the wrappers, with calls nested less than `n` deep. -/
def nested (src : Source) (A : Allocator S) (bufsiz : Word) : (n : Nat) → Call Word → M (Host S) Word
  | 0 => fun _ => exit
  | n + 1 => (src.wrappers (reentrant A bufsiz (nested src A bufsiz n))).exec

def program {W : Type} (exec : Call Word → M W Word) : List (Call Word) → M W Unit
  | [] => pure ()
  | c :: cs => do
    let _ ← exec c
    program exec cs

/-- Every call of the program returns, at some depth of nested calls. -/
def AllReturn (src : Source) (A : Allocator S) (bufsiz : Word) (cs : List (Call Word)) (st : St (Host S)) : Prop :=
  ∃ n r, (program (nested src A bufsiz n) cs).run st = some r

/-! ## The library functions -/

section

variable {A : Allocator S} {bufsiz : Word} {exec : Call Word → M (Host S) Word} {st : St (Host S)}

/-- The state after `dlsym` has used up one answer of `asks`. -/
def St.advance (st : St (Host S)) : St (Host S) :=
  { st with world := { st.world with asks := fun i => st.world.asks (i + 1) } }

@[simp] theorem advance_cache : st.advance.cache = st.cache := rfl
@[simp] theorem advance_buffer : st.advance.world.buffer = st.world.buffer := rfl
@[simp] theorem advance_asks (i : Nat) : st.advance.world.asks i = st.world.asks (i + 1) := rfl

def St.setHeap (st : St (Host S)) (heap : S) : St (Host S) := { st with world := { st.world with heap } }

@[simp] theorem setHeap_cache (heap : S) : (st.setHeap heap).cache = st.cache := rfl
@[simp] theorem setHeap_buffer (heap : S) : (st.setHeap heap).world.buffer = st.world.buffer := rfl
@[simp] theorem setHeap_asks (heap : S) : (st.setHeap heap).world.asks = st.world.asks := rfl
@[simp] theorem setHeap_setHeap (h h' : S) : (st.setHeap h).setHeap h' = st.setHeap h' := rfl

theorem run_reentrant_call (f : Fn) (args : List Word) : ((reentrant A bufsiz exec).call f args).run st =
    some ((A.call f args st.world.heap).1, st.setHeap (A.call f args st.world.heap).2) := rfl

theorem run_printf_buffered (h : st.world.buffer ≠ none) (fmt : String) (args : List Arg) :
    ((reentrant A bufsiz exec).printf fmt args).run st = some ((), st) := by
  simp [reentrant, h]

theorem run_printf_unbuffered (h : st.world.buffer = none) (hm : (exec (.malloc bufsiz)).run st = none)
    (fmt : String) (args : List Arg) : ((reentrant A bufsiz exec).printf fmt args).run st = none := by
  simp [reentrant, h, hm]

theorem run_dlsym (name : String) : ((reentrant A bufsiz exec).dlsym name).run st =
    match st.world.asks 0 with
    | some (nmemb, size) => (exec (.calloc nmemb size) >>= fun _ => pure (Fn.named name)).run st.advance
    | none => some (Fn.named name, st.advance) := by
  simp only [reentrant, St.advance]
  cases h : st.world.asks 0 <;> simp [h]

theorem run_resolve_cached {c : Libc (Host S)} {p : Fn} (h : st.cache p ≠ none) (name : String) :
    (resolve c p name).run st = some ((), st) := by
  simp [resolve, h]

theorem run_resolve_null {p : Fn} (h : st.cache p = none) (name : String) :
    (resolve (reentrant A bufsiz exec) p name).run st =
      ((reentrant A bufsiz exec).dlsym name >>= setCache p).run st := by
  have hd : (reentrant A bufsiz exec).dlerror = pure none := rfl
  simp [resolve, h, hd]

/-! ## Calls that return -/

/-- With a buffer and the symbol in place, a call only changes the heap. -/
theorem nested_cached (src : Source) (A : Allocator S) (bufsiz : Word) {c : Call Word} (hb : st.world.buffer ≠ none)
    (hc : src = .mymalloc2 → c = .free NULL ∨ st.cache c.fn ≠ none) (n : Nat) :
    ∃ r heap, (nested src A bufsiz (n + 1) c).run st = some (r, st.setHeap heap) := by
  unfold nested
  by_cases hn : c = .free NULL
  · exact ⟨NULL, st.world.heap, by rw [hn, Source.exec_free_null]; rfl⟩
  obtain ⟨fmt, args, h⟩ := src.exec_eq c hn
  have hpre : (src.pre (reentrant A bufsiz (nested src A bufsiz n)) c.fn).run st = some ((), st) := by
    cases src with
    | mymalloc1 | mymalloc3 => rfl
    | mymalloc2 => exact run_resolve_cached ((hc rfl).resolve_left hn) _
  have hfwd : ∃ r heap, (src.forward (reentrant A bufsiz (nested src A bufsiz n)) c.fn c.args).run st =
      some (r, st.setHeap heap) := by
    cases src with
    | mymalloc1 | mymalloc3 => exact ⟨_, _, run_reentrant_call ..⟩
    | mymalloc2 =>
      obtain ⟨f, hf⟩ := Option.ne_none_iff_exists'.1 ((hc rfl).resolve_left hn)
      exact ⟨_, _, (run_callp hf _).trans (run_reentrant_call ..)⟩
  obtain ⟨r, heap, hfwd⟩ := hfwd
  have hb' : (st.setHeap heap).world.buffer ≠ none := hb
  rw [h]
  by_cases hf : c.fn = .free
  · rw [hf] at hpre hfwd
    exact ⟨NULL, heap, by simp [hf, hpre, hfwd, run_printf_buffered hb]⟩
  · exact ⟨r, heap, by simp [hf, hpre, hfwd, run_printf_buffered hb']⟩

/-- Once the symbol is resolved, a call goes on as with the symbol in place. -/
theorem exec_after_pre (src : Source) {c : Libc (Host S)} {call : Call Word} (hn : call ≠ .free NULL)
    {st' : St (Host S)} (h : (src.pre c call.fn).run st = some ((), st'))
    (h' : (src.pre c call.fn).run st' = some ((), st')) :
    ((src.wrappers c).exec call).run st = ((src.wrappers c).exec call).run st' := by
  obtain ⟨fmt, args, e⟩ := src.exec_eq call hn
  rw [e, StateT.run_bind, StateT.run_bind, h, h']

/-- With a buffer and `callocp` in place, `mymalloc2` can resolve a symbol. -/
theorem resolve_returns (A : Allocator S) (bufsiz : Word) (hb : st.world.buffer ≠ none)
    (hp : st.cache .calloc ≠ none) {p : Fn} (hnull : st.cache p = none) (n : Nat) :
    ∃ st', (resolve (reentrant A bufsiz (nested .mymalloc2 A bufsiz (n + 1))) p (Source.symbol p)).run st =
        some ((), st') ∧ st'.world.buffer ≠ none ∧ st'.cache .calloc ≠ none ∧ st'.cache p ≠ none := by
  have hsome : Fn.named (Source.symbol p) ≠ none := by cases p <;> decide
  have hset : ∀ st' : St (Host S), st'.cache .calloc ≠ none →
      Function.update st'.cache p (Fn.named (Source.symbol p)) .calloc ≠ none := by
    intro st' h
    by_cases e : Fn.calloc = p
    · subst e; rwa [Function.update_self]
    · rwa [Function.update_of_ne e]
  rw [run_resolve_null hnull, StateT.run_bind, run_dlsym]
  cases st.world.asks 0 with
  | none => exact ⟨_, rfl, hb, hset st.advance hp, by simpa using hsome⟩
  | some ask =>
    obtain ⟨nmemb, size⟩ := ask
    have hb' : st.advance.world.buffer ≠ none := hb
    obtain ⟨r, heap, h⟩ := nested_cached .mymalloc2 A bufsiz (c := .calloc nmemb size) hb' (fun _ => .inr hp) n
    exact ⟨⟨Function.update st.cache p (Fn.named (Source.symbol p)), (st.advance.setHeap heap).world⟩, by simp [h], hb,
      hset (st.advance.setHeap heap) hp, by simpa using hsome⟩

theorem nested_resolving (hb : st.world.buffer ≠ none) (hp : st.cache .calloc ≠ none) (c : Call Word) (n : Nat) :
    ∃ r st', (nested .mymalloc2 A bufsiz (n + 2) c).run st = some (r, st') ∧ st'.world.buffer ≠ none ∧
      st'.cache .calloc ≠ none := by
  by_cases hc : c = .free NULL ∨ st.cache c.fn ≠ none
  · obtain ⟨r, heap, h⟩ := nested_cached .mymalloc2 A bufsiz hb (fun _ => hc) (n + 1)
    exact ⟨r, _, h, hb, hp⟩
  obtain ⟨hn, hnull⟩ := not_or.1 hc
  obtain ⟨st', h1, h2, h3, h4⟩ := resolve_returns A bufsiz hb hp (not_not.1 hnull) n
  obtain ⟨r, heap, h⟩ := nested_cached .mymalloc2 A bufsiz (c := c) h2 (fun _ => .inr h4) (n + 1)
  exact ⟨r, _, (exec_after_pre .mymalloc2 hn h1 (run_resolve_cached h4 _)).trans h, h2, h3⟩

/-! ## Calls that do not return -/

/-- Without a buffer, `printf` calls `malloc`, which calls `printf`. -/
theorem nested_unbuffered {src : Source} (n : Nat) {c : Call Word} (hc : c ≠ .free NULL) (hb : st.world.buffer = none) :
    (nested src A bufsiz n c).run st = none := by
  induction n generalizing c st with
  | zero => rfl
  | succ n ih =>
    -- the nested `malloc` of `printf` misses the same buffer, one level down
    have hprintf : ∀ fmt args {s : St (Host S)}, s.world.buffer = none →
        ((reentrant A bufsiz (nested src A bufsiz n)).printf fmt args).run s = none :=
      fun fmt args s hs => run_printf_unbuffered hs (ih (by simp) hs) fmt args
    have hpre : Ensures (src.pre (reentrant A bufsiz (nested src A bufsiz n)) c.fn) st
        fun _ s => s.world.buffer = none := by
      cases src with
      | mymalloc1 | mymalloc3 => exact .pure hb
      | mymalloc2 =>
        by_cases hp : st.cache c.fn = none
        · refine fun u s' h => ?_
          rw [Source.pre, run_resolve_null hp, StateT.run_bind, run_dlsym] at h
          cases hask : st.world.asks 0 with
          | none => rw [hask] at h; cases h; exact hb
          | some ask =>
            have h0 : (nested .mymalloc2 A bufsiz n (.calloc ask.1 ask.2)).run st.advance = none := ih (by simp) hb
            simp [hask, h0] at h
        · exact .of_run (run_resolve_cached hp _) hb
    have hfwd : ∀ s : St (Host S), s.world.buffer = none →
        Ensures (src.forward (reentrant A bufsiz (nested src A bufsiz n)) c.fn c.args) s
          fun _ s => s.world.buffer = none := by
      intro s hs
      cases src with
      | mymalloc1 | mymalloc3 => exact .of_run (run_reentrant_call ..) hs
      | mymalloc2 =>
        cases hf : s.cache c.fn with
        | none => exact .of_none (by simp [Source.forward, callp, hf]; rfl)
        | some f => exact .of_run ((run_callp hf _).trans (run_reentrant_call ..)) hs
    obtain ⟨fmt, args, h⟩ := src.exec_eq c hc
    rw [nested, h]
    apply run_bind_eq_none hpre
    intro _ s hs
    by_cases hf : c.fn = .free
    · simp [hf, hprintf _ _ hs]
    · rw [if_neg hf]
      exact run_bind_eq_none (hfwd s hs) fun r s' hs' => by simp [hprintf _ _ hs']

/-- When `dlsym` always asks and `callocp` is null, `calloc` resolves itself. -/
theorem nested_asking (n : Nat) {c : Call Word} (hc : c ≠ .free NULL) (hp : st.cache .calloc = none)
    (hnull : st.cache c.fn = none) (hask : ∀ i, st.world.asks i ≠ none) :
    (nested .mymalloc2 A bufsiz n c).run st = none := by
  induction n generalizing c st with
  | zero => rfl
  | succ n ih =>
    obtain ⟨fmt, args, h⟩ := Source.mymalloc2.exec_eq c hc
    obtain ⟨ask, h0⟩ := Option.ne_none_iff_exists'.1 (hask 0)
    have hcalloc : (nested .mymalloc2 A bufsiz n (.calloc ask.1 ask.2)).run st.advance = none :=
      ih (by simp) hp hp fun i => hask (i + 1)
    rw [nested, h, StateT.run_bind, Source.pre, run_resolve_null hnull, StateT.run_bind, run_dlsym, h0]
    simp [hcalloc]

theorem nested_free_null (src : Source) (n : Nat) :
    Ensures (nested src A bufsiz n (.free NULL)) st fun _ s => s = st := by
  cases n with
  | zero => exact .of_none rfl
  | succ n =>
    rw [nested, Source.exec_free_null]
    exact .pure rfl

/-! ## Programs -/

theorem program_returns {W : Type} {exec : Call Word → M W Word} {P : St W → Prop} {cs : List (Call Word)}
    (h : ∀ c ∈ cs, ∀ st, P st → ∃ r st', (exec c).run st = some (r, st') ∧ P st') {st : St W} (hst : P st) :
    ∃ r, (program exec cs).run st = some r := by
  induction cs generalizing st with
  | nil => exact ⟨_, rfl⟩
  | cons c cs ih =>
    obtain ⟨r, st', h1, h2⟩ := h c List.mem_cons_self st hst
    obtain ⟨r', h3⟩ := ih (fun c hc => h c (List.mem_cons_of_mem _ hc)) h2
    exact ⟨r', by rw [program, StateT.run_bind, h1]; exact h3⟩

theorem program_none {W : Type} {exec : Call Word → M W Word} {P : St W → Prop} {cs : List (Call Word)}
    (h : ∀ c ∈ cs, ∀ st, P st → Ensures (exec c) st fun _ => P) {c : Call Word} (hm : c ∈ cs)
    (hc : ∀ st, P st → (exec c).run st = none) {st : St W} (hst : P st) : (program exec cs).run st = none := by
  induction cs generalizing st with
  | nil => cases hm
  | cons d cs ih =>
    unfold program
    rcases List.mem_cons.1 hm with rfl | hm
    · rw [StateT.run_bind, hc st hst]; rfl
    · exact run_bind_eq_none (h d List.mem_cons_self st hst) fun _ s hs =>
        ih (fun c hc => h c (List.mem_cons_of_mem _ hc)) hm hs

theorem buffer_of_allReturn {src : Source} {cs : List (Call Word)} (h : AllReturn src A bufsiz cs st) :
    st.world.buffer ≠ none ∨ ∀ c ∈ cs, c = .free NULL := by
  by_contra hno
  obtain ⟨hb, hex⟩ := not_or.1 hno
  obtain ⟨c, hm, hc⟩ : ∃ c ∈ cs, c ≠ .free NULL := by simpa using hex
  obtain ⟨n, r, hr⟩ := h
  have hnone : (program (nested src A bufsiz n) cs).run st = none := by
    refine program_none (P := fun s => s.world.buffer = none) (fun d _ s hs => ?_) hm
      (fun s hs => nested_unbuffered n hc hs) (not_not.1 hb)
    by_cases hd : d = .free NULL
    · subst hd
      exact (nested_free_null src n).mono fun _ s' e => e ▸ hs
    · exact .of_none (nested_unbuffered n hd hs)
  rw [hnone] at hr
  cases hr

theorem allReturn_free_null {src : Source} {cs : List (Call Word)} (h : ∀ c ∈ cs, c = .free NULL) :
    AllReturn src A bufsiz cs st := by
  refine ⟨1, program_returns (P := fun _ => True) (fun c hc s _ => ⟨NULL, s, ?_, trivial⟩) trivial⟩
  rw [h c hc, nested, Source.exec_free_null]
  rfl

/-- The calls return when every symbol they need is in place. -/
theorem allReturn_cached {src : Source} {cs : List (Call Word)} (hb : st.world.buffer ≠ none)
    (h : src = .mymalloc2 → ∀ c ∈ cs, c = .free NULL ∨ st.cache c.fn ≠ none) : AllReturn src A bufsiz cs st := by
  refine ⟨1, program_returns (P := fun s => s.world.buffer ≠ none ∧ s.cache = st.cache) (fun c hc s hs => ?_) ⟨hb, rfl⟩⟩
  obtain ⟨r, heap, hr⟩ := nested_cached src A bufsiz hs.1 (fun e => hs.2 ▸ h e c hc) 0
  exact ⟨r, _, hr, hs⟩

theorem allReturn_resolving {cs : List (Call Word)} (hb : st.world.buffer ≠ none) (hp : st.cache .calloc ≠ none) :
    AllReturn .mymalloc2 A bufsiz cs st := by
  refine ⟨2, program_returns (P := fun s => s.world.buffer ≠ none ∧ s.cache .calloc ≠ none)
    (fun c _ s hs => ?_) ⟨hb, hp⟩⟩
  exact nested_resolving hs.1 hs.2 c 0

/-- With `callocp` null, a call that needs another symbol is one too many. -/
theorem not_allReturn_asking {cs : List (Call Word)} (hb : st.world.buffer ≠ none) (hp : st.cache .calloc = none)
    (hask : ∀ i, st.world.asks i ≠ none) {c : Call Word} (hm : c ∈ cs) (hc : c ≠ .free NULL)
    (hnull : st.cache c.fn = none) : ¬ AllReturn .mymalloc2 A bufsiz cs st := by
  rintro ⟨n, r, hr⟩
  have hnone : (program (nested .mymalloc2 A bufsiz n) cs).run st = none := by
    -- until the call that asks, no call resolves anything
    refine program_none (P := fun s => s.cache = st.cache ∧ s.world.buffer ≠ none ∧ ∀ i, s.world.asks i ≠ none)
      (fun d _ s hs => ?_) hm (fun s hs => nested_asking n hc (hs.1 ▸ hp) (hs.1 ▸ hnull) hs.2.2) ⟨rfl, hb, hask⟩
    by_cases hd : d = .free NULL ∨ s.cache d.fn ≠ none
    · cases n with
      | zero => exact .of_none rfl
      | succ n =>
        obtain ⟨r, heap, hr⟩ := nested_cached .mymalloc2 A bufsiz hs.2.1 (fun _ => hd) n
        exact .of_run hr hs
    · obtain ⟨hd, hnull⟩ := not_or.1 hd
      exact .of_none (nested_asking n hd (hs.1 ▸ hp) (not_not.1 hnull) hs.2.2)
  rw [hnone] at hr
  cases hr

end

/-- Whatever `dlsym` does, all calls of a program through `mymalloc1` return exactly
when stdout has a buffer or the program only frees NULL. Through `mymalloc2` it must
also hold that `callocp` is resolved or that no call has to resolve its symbol. -/
theorem allReturn_iff (A : Allocator S) (bufsiz : Word) (cache : Fn → Option Fn) (heap : S) (buffer : Option Word)
    (cs : List (Call Word)) :
    ((∀ asks, AllReturn .mymalloc1 A bufsiz cs ⟨cache, heap, buffer, asks⟩) ↔
      (buffer ≠ none ∨ ∀ c ∈ cs, c = .free NULL)) ∧
    ((∀ asks, AllReturn .mymalloc2 A bufsiz cs ⟨cache, heap, buffer, asks⟩) ↔
      (buffer ≠ none ∨ ∀ c ∈ cs, c = .free NULL) ∧
        (cache .calloc ≠ none ∨ ∀ c ∈ cs, c = .free NULL ∨ cache c.fn ≠ none)) := by
  refine ⟨⟨fun h => buffer_of_allReturn (h fun _ => none), ?_⟩, ⟨fun h => ?_, ?_⟩⟩
  · rintro (hb | hn) asks
    · exact allReturn_cached hb nofun
    · exact allReturn_free_null hn
  · -- a `dlsym` that never asks shows the buffer, one that always asks shows `callocp`
    have hbuf := buffer_of_allReturn (h fun _ => none)
    refine ⟨hbuf, ?_⟩
    by_contra hno
    obtain ⟨hp, hex⟩ := not_or.1 hno
    obtain ⟨c, hm, hc, hnull⟩ : ∃ c ∈ cs, c ≠ .free NULL ∧ cache c.fn = none := by simpa using hex
    have hb : buffer ≠ none := hbuf.resolve_right fun hn => hc (hn c hm)
    exact not_allReturn_asking hb (not_not.1 hp) (fun _ => Option.some_ne_none (1, 32)) hm hc hnull (h _)
  · rintro ⟨hb | hn, hp⟩ asks
    · rcases hp with hp | hp
      · exact allReturn_resolving hb hp
      · exact allReturn_cached hb fun _ => hp
    · exact allReturn_free_null hn

/-- A first `malloc` through `mymalloc1` while stdout has no buffer, and a first
`calloc` through `mymalloc2` whose `dlsym` asks for 32 bytes. -/
theorem interposers_never_return :
    ¬ AllReturn .mymalloc1 bump 4096 [.malloc 10] ⟨fun _ => none, 4096, none, fun _ => none⟩ ∧
    ¬ AllReturn .mymalloc2 bump 4096 [.calloc 1 10] ⟨fun _ => none, 4096, some 1024, fun _ => some (1, 32)⟩ := by
  refine ⟨fun h => ?_, ?_⟩
  · rcases buffer_of_allReturn h with hb | hn
    · exact hb rfl
    · cases hn _ List.mem_cons_self
  · exact not_allReturn_asking nofun rfl (fun _ => nofun) List.mem_cons_self nofun rfl

end SiteCode.Malloc
