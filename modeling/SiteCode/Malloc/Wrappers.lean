import Mathlib.Data.BitVec
/-!
# The interposers `mymalloc1.c`, `mymalloc2.c` and `mymalloc3.c`

The wrappers over the C library they call. A computation that ends in `none`
does not return: the program exits, or calls through a null pointer, or the
library function does not come back.
-/

namespace SiteCode.Malloc

abbrev Word := BitVec 64

def NULL : Word := 0

/-- The functions of an allocator. -/
inductive Fn where
  | malloc
  | calloc
  | realloc
  | free
  deriving DecidableEq, Repr

/-- The function that a symbol names. -/
def Fn.named (s : String) : Option Fn :=
  if s = "malloc" then some .malloc
  else if s = "calloc" then some .calloc
  else if s = "realloc" then some .realloc
  else if s = "free" then some .free
  else none

/-- An argument of `printf`. -/
inductive Arg where
  | s (str : String)
  | zu (n : Word)
  | u (n : BitVec 32)
  | p (ptr : Word)
  deriving DecidableEq, Repr

/-- The static pointers `mallocp`, `callocp`, `reallocp` and `freep`, and
everything outside of the wrappers. -/
structure St (W : Type) where
  cache : Fn → Option Fn
  world : W

abbrev M (W : Type) := StateT (St W) Option

/-- The library functions the wrappers call. `call` runs a function of the
underlying allocator on its argument registers. -/
structure Libc (W : Type) where
  call : Fn → List Word → M W Word
  printf : String → List Arg → M W Unit
  dlsym : String → M W (Option Fn)
  dlerror : M W (Option String)
  fputs : String → M W Unit

variable {W : Type}

/-- `exit(1)` -/
def exit {α : Type} : M W α := fun _ => none

/-! ## The common bodies

`callp` is the function a wrapper forwards to and `func` is its `__func__`. -/

def malloc_with (c : Libc W) (func : String) (callp : List Word → M W Word) (size : Word) : M W Word := do
  let ptr ← callp [size]
  c.printf "[%s](%zu) = %p\n" [.s func, .zu size, .p ptr]
  return ptr

def calloc_with (c : Libc W) (func : String) (callp : List Word → M W Word) (nmemb size : Word) : M W Word := do
  let ptr ← callp [nmemb, size]
  c.printf "[%s](%zu, %zu) = %p\n" [.s func, .zu nmemb, .zu size, .p ptr]
  return ptr

def realloc_with (c : Libc W) (func : String) (callp : List Word → M W Word) (old_ptr size : Word) : M W Word := do
  let ptr ← callp [old_ptr, size]
  c.printf "[%s](%p, %zu) = %p\n" [.s func, .p old_ptr, .zu size, .p ptr]
  return ptr

def free_with (c : Libc W) (func : String) (resolve : M W Unit) (callp : List Word → M W Word) (ptr : Word) :
    M W Unit := do
  if ptr = NULL then
    return
  resolve
  c.printf "[%s](%p)\n" [.s func, .p ptr]
  let _ ← callp [ptr]

/-- The wrappers of one file. -/
structure Wrappers (W : Type) where
  malloc : Word → M W Word
  calloc : Word → Word → M W Word
  realloc : Word → Word → M W Word
  free : Word → M W Unit

/-! ## `mymalloc1.c`: the `__libc_` symbols -/

def mymalloc1 (c : Libc W) : Wrappers W where
  malloc := malloc_with c "malloc" (c.call .malloc)
  calloc := calloc_with c "calloc" (c.call .calloc)
  realloc := realloc_with c "realloc" (c.call .realloc)
  free := free_with c "free" (pure ()) (c.call .free)

/-! ## `mymalloc2.c`: the `dlsym` symbols -/

/-- `p = f` for the static pointer of a wrapper. -/
def setCache (p : Fn) (f : Option Fn) : M W Unit :=
  modify fun st => { st with cache := Function.update st.cache p f }

/-- `if (!p) { p = dlsym(RTLD_NEXT, name); if ((error = dlerror()) != NULL) ... }` -/
def resolve (c : Libc W) (p : Fn) (name : String) : M W Unit := do
  if (← get).cache p = none then
    setCache p (← c.dlsym name)
    match ← c.dlerror with
    | some error =>
      c.fputs error
      exit
    | none => return

/-- `(*p)(args)` -/
def callp (c : Libc W) (p : Fn) (args : List Word) : M W Word := do
  match (← get).cache p with
  | some f => c.call f args
  | none => exit

def mymalloc2 (c : Libc W) : Wrappers W where
  malloc size := do
    resolve c .malloc "malloc"
    malloc_with c "malloc" (callp c .malloc) size
  calloc nmemb size := do
    resolve c .calloc "calloc"
    calloc_with c "calloc" (callp c .calloc) nmemb size
  realloc old_ptr size := do
    -- the source asks for "malloc" here
    resolve c .realloc "malloc"
    realloc_with c "realloc" (callp c .realloc) old_ptr size
  free := free_with c "free" (resolve c .free "free") (callp c .free)

/-! ## `mymalloc3.c`: the `__real_` symbols -/

def mymalloc3 (c : Libc W) : Wrappers W where
  malloc := malloc_with c "__wrap_malloc" (c.call .malloc)
  calloc := calloc_with c "__wrap_calloc" (c.call .calloc)
  realloc := realloc_with c "__wrap_realloc" (c.call .realloc)
  free := free_with c "__wrap_free" (pure ()) (c.call .free)

/-! ## Calls -/

/-- A call of an allocator function, with pointer arguments in `α`. -/
inductive Call (α : Type) where
  | malloc (size : Word)
  | calloc (nmemb size : Word)
  | realloc (ptr : α) (size : Word)
  | free (ptr : α)
  deriving DecidableEq, Repr

namespace Call

variable {α β : Type}

def fn : Call α → Fn
  | malloc _ => .malloc
  | calloc .. => .calloc
  | realloc .. => .realloc
  | free _ => .free

def map (f : α → β) : Call α → Call β
  | malloc size => malloc size
  | calloc nmemb size => calloc nmemb size
  | realloc ptr size => realloc (f ptr) size
  | free ptr => free (f ptr)

@[simp] theorem fn_map (f : α → β) (c : Call α) : (c.map f).fn = c.fn := by cases c <;> rfl

def args : Call Word → List Word
  | malloc size => [size]
  | calloc nmemb size => [nmemb, size]
  | realloc ptr size => [ptr, size]
  | free ptr => [ptr]

end Call

/-- A call through the wrappers; NULL stands for the result of `free`. -/
def Wrappers.exec (w : Wrappers W) : Call Word → M W Word
  | .malloc size => w.malloc size
  | .calloc nmemb size => w.calloc nmemb size
  | .realloc ptr size => w.realloc ptr size
  | .free ptr => do
    w.free ptr
    return NULL

/-- The three files. -/
inductive Source where
  | mymalloc1
  | mymalloc2
  | mymalloc3
  deriving DecidableEq, Repr

def Source.wrappers : Source → Libc W → Wrappers W
  | mymalloc1 => Malloc.mymalloc1
  | mymalloc2 => Malloc.mymalloc2
  | mymalloc3 => Malloc.mymalloc3

/-! ## The shape of a wrapper -/

namespace Source

/-- The symbol that `mymalloc2` asks for. -/
def symbol : Fn → String
  | .malloc | .realloc => "malloc"
  | .calloc => "calloc"
  | .free => "free"

/-- What a wrapper does before it forwards. -/
def pre (src : Source) (c : Libc W) (p : Fn) : M W Unit :=
  match src with
  | mymalloc2 => resolve c p (symbol p)
  | mymalloc1 | mymalloc3 => pure ()

/-- What a wrapper forwards to. -/
def forward (src : Source) (c : Libc W) (p : Fn) (args : List Word) : M W Word :=
  match src with
  | mymalloc2 => callp c p args
  | mymalloc1 | mymalloc3 => c.call p args

/-- `__func__` -/
def func (src : Source) (p : Fn) : String :=
  (if src = mymalloc3 then "__wrap_" else "") ++
    match p with
    | .malloc => "malloc"
    | .calloc => "calloc"
    | .realloc => "realloc"
    | .free => "free"

theorem exec_free_null (src : Source) (c : Libc W) : (src.wrappers c).exec (.free NULL) = pure NULL := by
  cases src <;> simp [wrappers, Wrappers.exec, Malloc.mymalloc1, Malloc.mymalloc2, Malloc.mymalloc3, free_with]

/-- The line for a call with the result `r`. -/
def line (src : Source) (r : Word) (c : Call Word) : String × List Arg :=
  match c with
  | .malloc size => ("[%s](%zu) = %p\n", [.s (src.func .malloc), .zu size, .p r])
  | .calloc nmemb size => ("[%s](%zu, %zu) = %p\n", [.s (src.func .calloc), .zu nmemb, .zu size, .p r])
  | .realloc ptr size => ("[%s](%p, %zu) = %p\n", [.s (src.func .realloc), .p ptr, .zu size, .p r])
  | .free ptr => ("[%s](%p)\n", [.s (src.func .free), .p ptr])

/-- A wrapper prepares, then forwards and prints, and `free` prints first. -/
theorem exec_line (src : Source) (call : Call Word) (hc : call ≠ .free NULL) (c : Libc W) :
    (src.wrappers c).exec call = (do
      src.pre c call.fn
      if call.fn = .free then
        c.printf (src.line NULL call).1 (src.line NULL call).2
        let _ ← src.forward c call.fn call.args
        return NULL
      else
        let ptr ← src.forward c call.fn call.args
        c.printf (src.line ptr call).1 (src.line ptr call).2
        return ptr) := by
  cases call with
  | free ptr =>
    have h : ptr ≠ NULL := fun h => hc (h ▸ rfl)
    cases src <;> simp [wrappers, Wrappers.exec, Malloc.mymalloc1, Malloc.mymalloc2, Malloc.mymalloc3, free_with, pre,
      forward, Call.fn, Call.args, func, symbol, line, h]
  | _ =>
    cases src <;> simp [wrappers, Wrappers.exec, Malloc.mymalloc1, Malloc.mymalloc2, Malloc.mymalloc3, malloc_with,
      calloc_with, realloc_with, pre, forward, Call.fn, Call.args, func, symbol, line]

/-- The same with a format and arguments for any library. -/
theorem exec_eq (src : Source) (call : Call Word) (hc : call ≠ .free NULL) :
    ∃ (fmt : String) (args : Word → List Arg), ∀ c : Libc W, (src.wrappers c).exec call = (do
      src.pre c call.fn
      if call.fn = .free then
        c.printf fmt (args NULL)
        let _ ← src.forward c call.fn call.args
        return NULL
      else
        let ptr ← src.forward c call.fn call.args
        c.printf fmt (args ptr)
        return ptr) := by
  refine ⟨(src.line NULL call).1, fun r => (src.line r call).2, fun c => ?_⟩
  have hfmt : ∀ r, (src.line r call).1 = (src.line NULL call).1 := fun r => by cases call <;> rfl
  rw [src.exec_line call hc c]
  simp only [hfmt]

end Source

end SiteCode.Malloc
