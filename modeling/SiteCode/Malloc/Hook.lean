import SiteCode.Lib.Comp
import SiteCode.Malloc.Wrappers
/-!
# The tracer of `malloc_hook.c`

`malloc` and `free` call the current hook, or the allocator when it is NULL. The
tracer's hooks put the old hooks back while they forward a call and print it.
Everything else that runs (the old hooks, `printf`) is code of others: it may
call `malloc` and `free` and set the two hook variables, though it has no way to
name the tracer's functions.
-/

namespace SiteCode.MallocHook

open Lib
open Malloc (Word NULL Arg)

/-- A hook: NULL, the tracer's function, or a function of others. -/
inductive Hook (ι : Type) where
  | null
  | mine
  | other (i : ι)

/-- The variables of the hooks. -/
structure Globals (ι : Type) where
  __malloc_hook : Hook ι
  __free_hook : Hook ι
  old_malloc_hook : Hook ι
  old_free_hook : Hook ι

inductive Call where
  | malloc (size : Word)
  | free (ptr : Word)
  deriving DecidableEq, Repr

/-- Who makes a call. -/
inductive Caller where
  | program
  | tracer
  | others
  deriving DecidableEq, Repr

/-- What happens: a call and the hook it meets, its return, an assignment of the
variables. -/
inductive Event (ι : Type) where
  | call (caller : Caller) (c : Call) (hook : Hook ι)
  | returned (caller : Caller) (result : Word)
  | assigned (g : Globals ι)

structure St (ι σ : Type) where
  globals : Globals ι
  /-- The memory of the allocator and of all other code. -/
  heap : σ
  log : List (Event ι)

abbrev M (ι σ : Type) := StateT (St ι σ) Option

variable {ι σ α : Type}

/-- A program of others. -/
inductive Code (ι σ α : Type) where
  | ret (a : α)
  | heap (f : σ → σ) (k : σ → Code ι σ α)
  | hooks (k : Hook ι → Hook ι → Code ι σ α)
  | set_malloc_hook (h : Option ι) (k : Code ι σ α)
  | set_free_hook (h : Option ι) (k : Code ι σ α)
  | malloc (size : Word) (k : Word → Code ι σ α)
  | free (ptr : Word) (k : Code ι σ α)

/-- The allocator itself, the hooks of others by their names, and `printf`. -/
structure World (ι σ : Type) where
  allocator : Call → σ → Word × σ
  malloc_hook : ι → Word → Caller → Code ι σ Word
  free_hook : ι → Word → Caller → Code ι σ Unit
  printf : String → List Arg → Code ι σ Unit

/-! ## Execution -/

def St.event (st : St ι σ) (e : Event ι) : St ι σ := { st with log := st.log ++ [e] }

def event (e : Event ι) : M ι σ Unit := modify (·.event e)

def St.assign (st : St ι σ) (f : Globals ι → Globals ι) : St ι σ :=
  { st with globals := f st.globals }.event (.assigned (f st.globals))

/-- An assignment to the variables of the hooks. -/
def assign (f : Globals ι → Globals ι) : M ι σ Unit := modify (·.assign f)

def Hook.of : Option ι → Hook ι
  | none => null
  | some i => other i

/-- Code of others, with `exec` for its calls. -/
def Code.run (exec : Caller → Call → M ι σ Word) : Code ι σ α → M ι σ α
  | ret a => pure a
  | heap f k => do
    let h := (← get).heap
    modify fun st => { st with heap := f h }
    (k h).run exec
  | hooks k => do
    let g := (← get).globals
    (k g.__malloc_hook g.__free_hook).run exec
  | set_malloc_hook h k => do
    assign fun g => { g with __malloc_hook := .of h }
    k.run exec
  | set_free_hook h k => do
    assign fun g => { g with __free_hook := .of h }
    k.run exec
  | malloc size k => do
    let ptr ← exec .others (.malloc size)
    (k ptr).run exec
  | free ptr k => do
    let _ ← exec .others (.free ptr)
    k.run exec

/-- The body of the tracer's hooks around the call `c`, with `say` for what it prints. -/
def trace (exec : Caller → Call → M ι σ Word) (c : Call) (say : Word → Code ι σ Unit) : M ι σ Word := do
  assign fun g => { g with __malloc_hook := g.old_malloc_hook }
  assign fun g => { g with __free_hook := g.old_free_hook }
  let result ← exec .tracer c
  assign fun g => { g with old_malloc_hook := g.__malloc_hook }
  assign fun g => { g with old_free_hook := g.__free_hook }
  (say result).run exec
  assign fun g => { g with __malloc_hook := .mine }
  assign fun g => { g with __free_hook := .mine }
  return result

def my_malloc_hook (w : World ι σ) (exec : Caller → Call → M ι σ Word) (size : Word) (_caller : Caller) : M ι σ Word :=
  trace exec (.malloc size) fun result =>
    w.printf "malloc (%u) returns %p\n" [.u (size.setWidth 32), .p result]

def my_free_hook (w : World ι σ) (exec : Caller → Call → M ι σ Word) (ptr : Word) (_caller : Caller) : M ι σ Word :=
  trace exec (.free ptr) fun _ => w.printf "freed pointer %p\n" [.p ptr]

/-- The hook that a call meets. -/
def Globals.hook (g : Globals ι) : Call → Hook ι
  | .malloc _ => g.__malloc_hook
  | .free _ => g.__free_hook

/-- `malloc` and `free` of the library: the hook, or the allocator when it is
NULL. Nothing reads the result of a `free`. -/
def dispatch (w : World ι σ) (exec : Caller → Call → M ι σ Word) (caller : Caller) (c : Call) : Hook ι → M ι σ Word
  | .null => modifyGet fun st => ((w.allocator c st.heap).1, { st with heap := (w.allocator c st.heap).2 })
  | .mine =>
    match c with
    | .malloc size => my_malloc_hook w exec size caller
    | .free ptr => my_free_hook w exec ptr caller
  | .other i =>
    match c with
    | .malloc size => (w.malloc_hook i size caller).run exec
    | .free ptr => do
      (w.free_hook i ptr caller).run exec
      return NULL

/-- A call, with calls nested less than `n` deep. -/
def exec (w : World ι σ) : (n : Nat) → Caller → Call → M ι σ Word
  | 0, _, _ => fun _ => none
  | n + 1, caller, c => do
    let hook := (← get).globals.hook c
    event (.call caller c hook)
    let result ← dispatch w (exec w n) caller c hook
    event (.returned caller result)
    return result

def my_init : M ι σ Unit := do
  assign fun g => { g with old_malloc_hook := g.__malloc_hook }
  assign fun g => { g with old_free_hook := g.__free_hook }
  assign fun g => { g with __malloc_hook := .mine }
  assign fun g => { g with __free_hook := .mine }

/-- A call of the program: its result, what happened during it, and the
variables when it is back. -/
structure Record (ι : Type) where
  call : Call
  result : Word
  events : List (Event ι)
  after : Globals ι

/-- The calls of the program. -/
def program (exec : Caller → Call → M ι σ Word) : List Call → M ι σ (List (Record ι))
  | [] => return []
  | c :: cs => do
    let before := (← get).log.length
    let result ← exec .program c
    let st ← get
    let records ← program exec cs
    return ⟨c, result, st.log.drop before, st.globals⟩ :: records

end SiteCode.MallocHook
