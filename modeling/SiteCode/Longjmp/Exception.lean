import SiteCode.Longjmp.Coroutine
/-!
# `exception-handling.c`

`main` and `first` as a machine over their statements, with any code in the
place of `second`. A `jmp_buf` is the frame whose `setjmp` filled it. A `longjmp`
drops the frames above that one; over a buffer that is not filled, or whose
frame was left, it is a fault.
-/

namespace SiteCode.Longjmp.Exception

open Lib

/-- Code in the place of `second`. -/
inductive Callee where
  | returns
  /-- `exception_type = t; longjmp(exception_env, t);` -/
  | throws (t : Int)
  /-- a function with the protocol of `first` around another callee -/
  | first (callee : Callee)
  | seq (a b : Callee)
  deriving DecidableEq, Repr

/-- The frame whose `setjmp` filled the buffer. Frames are numbered in the order
of their entry; `main` is 0. -/
abbrev JmpBuf := Option Nat

inductive MainPc where
  | set
  /-- `setjmp` returned `v` -/
  | test (v : Int)
  | call_first
  | succeeded
  | done
  deriving DecidableEq, Repr

/-- The statements of `first`. -/
inductive FirstPc where
  | save
  | set
  /-- `setjmp` returned `v` -/
  | switch (v : Int)
  | case_3
  | default_
  | rethrow
  | case_0
  | called
  | restore
  | return_
  deriving DecidableEq, Repr

inductive Frame where
  | main (pc : MainPc) (callee : Callee)
  | first (id : Nat) (pc : FirstPc) (my_env : JmpBuf) (callee : Callee)
  | second (todo : List Callee)
  deriving DecidableEq, Repr

/-- What is observed: a function with the protocol is entered and left, with
`exception_env` at that moment; a throw, with the live frames, innermost first;
and a handler that runs, with the `exception_type` it sees. -/
inductive Event where
  | enter (id : Nat) (env : JmpBuf)
  | leave (id : Nat) (env : JmpBuf)
  | throw (t : Int) (live : List Nat)
  | handle (id : Nat) (type : Int)
  deriving DecidableEq, Repr

structure St where
  stack : List Frame
  exception_env : JmpBuf
  exception_type : Int
  next : Nat
  log : List Event
  deriving Repr

def init (c : Callee) : St := ⟨[.main .set c], none, 0, 1, []⟩

/-- The frames with a handler. -/
def live : List Frame → List Nat
  | [] => []
  | .main _ _ :: s => 0 :: live s
  | .first id _ _ _ :: s => id :: live s
  | .second _ :: s => live s

/-- The stack in which `setjmp` of the frame `id` returns `v`. -/
def resume (id : Nat) (v : Int) : List Frame → Option (List Frame)
  | [] => none
  | .main _ c :: s => if id = 0 then some (.main (.test v) c :: s) else resume id v s
  | .first i _ my_env c :: s => if id = i then some (.first i (.switch v) my_env c :: s) else resume id v s
  | .second _ :: s => resume id v s

/-- `longjmp(exception_env, v)` -/
def longjmp (st : St) (v : Int) : Option St := do
  let id ← st.exception_env
  let stack ← resume id (jumpValue v) st.stack
  return { st with stack }

/-- A call of a function with the protocol of `first`, over the stack `s`. -/
def enter (st : St) (c : Callee) (s : List Frame) : St :=
  { st with stack := .first st.next .save none c :: s, next := st.next + 1,
            log := st.log ++ [.enter st.next st.exception_env] }

def step_main (st : St) (pc : MainPc) (c : Callee) (s : List Frame) : Option St :=
  match pc with
  | .set => some { st with stack := .main (.test 0) c :: s, exception_env := some 0 }
  | .test v =>
    if v ≠ 0 then
      some { st with stack := .main .done c :: s, log := st.log ++ [.handle 0 st.exception_type] }
    else
      some { st with stack := .main .call_first c :: s }
  | .call_first => some (enter st c (.main .succeeded c :: s))
  | .succeeded => some { st with stack := .main .done c :: s }
  | .done => some st

def step_first (st : St) (id : Nat) (pc : FirstPc) (my_env : JmpBuf) (c : Callee) (s : List Frame) : Option St :=
  match pc with
  | .save => some { st with stack := .first id .set st.exception_env c :: s }
  | .set => some { st with stack := .first id (.switch 0) my_env c :: s, exception_env := some id }
  | .switch v =>
    if v = 0 then
      some { st with stack := .first id .case_0 my_env c :: s }
    else if v = 3 then
      some { st with stack := .first id .case_3 my_env c :: s, log := st.log ++ [.handle id st.exception_type] }
    else
      some { st with stack := .first id .default_ my_env c :: s, log := st.log ++ [.handle id st.exception_type] }
  | .case_3 => some { st with stack := .first id .default_ my_env c :: s, exception_type := 1 }
  | .default_ => some { st with stack := .first id .rethrow my_env c :: s, exception_env := my_env }
  | .rethrow => longjmp { st with log := st.log ++ [.leave id st.exception_env] } st.exception_type
  | .case_0 => some { st with stack := .second [c] :: .first id .called my_env c :: s }
  | .called => some { st with stack := .first id .restore my_env c :: s }
  | .restore => some { st with stack := .first id .return_ my_env c :: s, exception_env := my_env }
  | .return_ => some { st with stack := s, log := st.log ++ [.leave id st.exception_env] }

def step_second (st : St) (todo : List Callee) (s : List Frame) : Option St :=
  match todo with
  | [] => some { st with stack := s }
  | .returns :: todo => some { st with stack := .second todo :: s }
  | .throws t :: _ => longjmp { st with exception_type := t, log := st.log ++ [.throw t (live st.stack)] } t
  | .first c :: todo => some (enter st c (.second todo :: s))
  | .seq a b :: todo => some { st with stack := .second (a :: b :: todo) :: s }

def step (st : St) : Option St :=
  match st.stack with
  | [] => none
  | .main pc c :: s => step_main st pc c s
  | .first id pc my_env c :: s => step_first st id pc my_env c s
  | .second todo :: s => step_second st todo s

/-! ## Exceptions, without `longjmp` -/

/-- What a callee does among live frames: its events, the next free frame, and
the exception type with which it is left, if it is. -/
structure Outcome where
  events : List Event
  next : Nat
  thrown : Option Int

/-- The type a frame passes on. -/
def remap (t : Int) : Int := if t = 3 then 1 else t

/-- Exceptions as they are meant: a throw leaves the callee, and each frame
around it handles it and passes it on. -/
def outcome : Callee → (next : Nat) → (live : List Nat) → Outcome
  | .returns, n, _ => ⟨[], n, none⟩
  | .throws t, n, live => ⟨[.throw t live], n, some t⟩
  | .seq a b, n, live =>
    let o := outcome a n live
    match o.thrown with
    | some t => ⟨o.events, o.next, some t⟩
    | none =>
      let p := outcome b o.next live
      ⟨o.events ++ p.events, p.next, p.thrown⟩
  | .first c, n, live =>
    let o := outcome c (n + 1) (n :: live)
    match o.thrown with
    | some t => ⟨.enter n live.head? :: (o.events ++ [.handle n t, .leave n live.head?]), o.next, some (remap t)⟩
    | none => ⟨.enter n live.head? :: (o.events ++ [.leave n live.head?]), o.next, none⟩

/-- The type of the first throw. -/
def raised : Callee → Option Int
  | .returns => none
  | .throws t => some t
  | .first c => raised c
  | .seq a b => (raised a).or (raised b)

/-- What `main` is to show over `c`: the outcome of `first`, which it calls as frame
1, and its own handler if an exception gets that far. -/
def observed (c : Callee) : List Event :=
  let o := outcome (.first c) 1 [0]
  o.events ++ (o.thrown.map (Event.handle 0)).toList

end SiteCode.Longjmp.Exception
