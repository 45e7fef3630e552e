import Mathlib.Control.Basic
import Mathlib.Data.Set.Basic
import Mathlib.Order.Monotone.Basic
/-!
# Descriptor tables

A process has a table of descriptors: a number is open on a file, or closed. New
descriptors take the lowest closed number. Which numbers these are matters to a
program only up to their order: a run on one table follows the run on another one
along any increasing map of numbers that reaches every closed number (`Sim`).
-/

namespace SiteCode.Lib

/-- The file of each descriptor, `none` if it is closed. Behind the end all are closed. -/
abbrev FdTable (F : Type) := List (Option F)

namespace FdTable

variable {F F' : Type}

def file : FdTable F → Nat → Option F
  | [], _ => none
  | f :: _, 0 => f
  | _ :: t, i + 1 => file t i

/-- The table with `v` at a descriptor. -/
def put (v : Option F) : FdTable F → Nat → FdTable F
  | [], 0 => [v]
  | [], i + 1 => none :: put v [] i
  | _ :: t, 0 => v :: t
  | f :: t, i + 1 => f :: put v t i

/-- The lowest closed descriptor. -/
def lowest : FdTable F → Nat
  | [] => 0
  | none :: _ => 0
  | some _ :: t => lowest t + 1

/-- The file of a number that need not be a descriptor. -/
def look (t : FdTable F) (fd : Int) : Option F := if 0 ≤ fd then t.file fd.toNat else none

@[simp] theorem file_nil (i : Nat) : file ([] : FdTable F) i = none := by
  cases i <;> rfl

@[simp] theorem file_put (v : Option F) (t : FdTable F) (i j : Nat) :
    (t.put v i).file j = if j = i then v else t.file j := by
  induction i generalizing t j with
  | zero => cases t <;> cases j <;> simp [put, file]
  | succ i ih =>
    cases t with
    | nil => cases j <;> simp [put, file, ih]
    | cons f t => cases j <;> simp [put, file, ih]

theorem file_lowest (t : FdTable F) : t.file t.lowest = none := by
  induction t with
  | nil => rfl
  | cons f t ih =>
    cases f with
    | none => rfl
    | some f => exact ih

theorem lowest_le {t : FdTable F} {j : Nat} (h : t.file j = none) : t.lowest ≤ j := by
  induction t generalizing j with
  | nil => exact Nat.zero_le j
  | cons f t ih =>
    cases f with
    | none => exact Nat.zero_le j
    | some f =>
      cases j with
      | zero => cases h
      | succ j => exact Nat.succ_le_succ (ih h)

/-- Only finitely many descriptors are open. -/
theorem file_of_length_le {t : FdTable F} {i : Nat} (h : t.length ≤ i) : t.file i = none := by
  induction t generalizing i with
  | nil => exact file_nil i
  | cons f t ih =>
    cases i with
    | zero => cases h
    | succ i => exact ih (Nat.le_of_succ_le_succ h)

/-! ## Calls -/

/-- A new descriptor on `f`, where one can be had. -/
def alloc (ok : Bool) (f : Option F) : StateM (FdTable F) Int := fun t =>
  match ok, f with
  | true, some f => (t.lowest, t.put (some f) t.lowest)
  | _, _ => (-1, t)

/-- `open`, on a new file `f` -/
def open_ (ok : Bool) (f : F) : StateM (FdTable F) Int := alloc ok (some f)

def dup (ok : Bool) (fd : Int) : StateM (FdTable F) Int := fun t => alloc ok (t.look fd) t

def dup2 (oldfd newfd : Int) : StateM (FdTable F) Int := fun t =>
  match t.look oldfd with
  | some f => if 0 ≤ newfd then (newfd, t.put (some f) newfd.toNat) else (-1, t)
  | none => (-1, t)

def close (fd : Int) : StateM (FdTable F) Int := fun t =>
  match t.look fd with
  | some _ => (0, t.put none fd.toNat)
  | none => (-1, t)

/-! ## Numbers up to order -/

/-- A result of a call along a map of descriptors. -/
def along (e : Nat → Nat) (fd : Int) : Int := if 0 ≤ fd then e fd.toNat else fd

theorem along_of_nonneg (e : Nat → Nat) {fd : Int} (h : 0 ≤ fd) : along e fd = e fd.toNat := if_pos h

theorem along_of_neg (e : Nat → Nat) {fd : Int} (h : ¬ 0 ≤ fd) : along e fd = fd := if_neg h

/-- The table `t` is `t'` along `e`, with files along `g`; off `e` it is still `t₀`. -/
structure Sim (e : Nat → Nat) (g : F' → F) (t₀ t : FdTable F) (t' : FdTable F') : Prop where
  file : ∀ i, t.file (e i) = (t'.file i).map g
  other : ∀ x, x ∉ Set.range e → t.file x = t₀.file x

variable {e : Nat → Nat} {g : F' → F} {t₀ t : FdTable F} {t' : FdTable F'}

theorem Sim.look (hs : Sim e g t₀ t t') (fd : Int) : t.look (along e fd) = (t'.look fd).map g := by
  by_cases h : 0 ≤ fd
  · simp [FdTable.look, along, h, hs.file]
  · simp [FdTable.look, along, h]

section
variable (he : StrictMono e)
include he

theorem Sim.put (hs : Sim e g t₀ t t') (v : Option F') (i : Nat) :
    Sim e g t₀ (t.put (v.map g) (e i)) (t'.put v i) := by
  constructor
  · intro j
    by_cases hj : j = i
    · simp [hj]
    · simp [hj, he.injective.eq_iff, hs.file]
  · intro x hx
    have hne : x ≠ e i := by
      rintro rfl
      exact hx ⟨i, rfl⟩
    rw [file_put, if_neg hne]
    exact hs.other x hx

/-- The lowest closed numbers correspond when every closed number is reached. -/
theorem Sim.lowest (hs : Sim e g t₀ t t') (hfull : ∀ x, x ∉ Set.range e → t₀.file x ≠ none) :
    t.lowest = e t'.lowest := by
  apply le_antisymm
  · apply lowest_le
    rw [hs.file, file_lowest]
    rfl
  · have hmem : t.lowest ∈ Set.range e := by
      by_contra hx
      exact hfull _ hx (hs.other _ hx ▸ file_lowest t)
    obtain ⟨i, hi⟩ := hmem
    rw [← hi]
    apply he.monotone
    apply lowest_le
    have hfile := hs.file i
    rw [hi, file_lowest] at hfile
    simpa using hfile.symm

end

/-- The program `x` follows `x'`: on corresponding tables the results correspond,
and the tables again. -/
def Follows {α α' : Type} (e : Nat → Nat) (g : F' → F) (t₀ : FdTable F) (R : α → α' → Prop) (x : StateM (FdTable F) α)
    (x' : StateM (FdTable F') α') : Prop :=
  ∀ t t', Sim e g t₀ t t' → R (x t).1 (x' t').1 ∧ Sim e g t₀ (x t).2 (x' t').2

theorem Follows.bind {α α' β β' : Type} {R : α → α' → Prop} {S : β → β' → Prop} {x : StateM (FdTable F) α}
    {x' : StateM (FdTable F') α'} {f : α → StateM (FdTable F) β} {f' : α' → StateM (FdTable F') β'}
    (hx : Follows e g t₀ R x x') (hf : ∀ a a', R a a' → Follows e g t₀ S (f a) (f' a')) :
    Follows e g t₀ S (x >>= f) (x' >>= f') := by
  intro t t' hs
  obtain ⟨hr, hs'⟩ := hx t t' hs
  exact hf _ _ hr _ _ hs'

section
variable (he : StrictMono e)
include he

theorem follows_alloc (hfull : ∀ x, x ∉ Set.range e → t₀.file x ≠ none) (ok : Bool) (f : Option F') :
    Follows e g t₀ (fun fd fd' => fd = along e fd') (alloc ok (f.map g)) (alloc ok f) := by
  intro t t' hs
  have hlow := hs.lowest he hfull
  cases ok with
  | false => exact ⟨rfl, hs⟩
  | true =>
    cases f with
    | none => exact ⟨rfl, hs⟩
    | some f =>
      refine ⟨by simp [alloc, along, hlow], ?_⟩
      have hput := hs.put he (some f) t'.lowest
      rwa [← hlow] at hput

theorem follows_open (hfull : ∀ x, x ∉ Set.range e → t₀.file x ≠ none) (ok : Bool) (f : F') :
    Follows e g t₀ (fun fd fd' => fd = along e fd') (open_ ok (g f)) (open_ ok f) :=
  follows_alloc he hfull ok (some f)

theorem follows_dup (hfull : ∀ x, x ∉ Set.range e → t₀.file x ≠ none) (ok : Bool) (fd : Int) :
    Follows e g t₀ (fun fd fd' => fd = along e fd') (dup ok (along e fd)) (dup ok fd) := by
  intro t t' hs
  have halloc := follows_alloc he hfull ok (t'.look fd) t t' hs
  unfold dup
  rwa [hs.look fd]

variable (g t₀) in
theorem follows_dup2 (oldfd newfd : Int) :
    Follows e g t₀ (fun fd fd' => fd = along e fd') (dup2 (along e oldfd) (along e newfd)) (dup2 oldfd newfd) := by
  intro t t' hs
  unfold dup2
  rw [hs.look oldfd]
  cases t'.look oldfd with
  | none => exact ⟨rfl, hs⟩
  | some f =>
    by_cases h : 0 ≤ newfd
    · simp only [Option.map_some, along_of_nonneg e h, Int.natCast_nonneg, if_true, Int.toNat_natCast, if_pos h]
      exact ⟨trivial, hs.put he (some f) newfd.toNat⟩
    · simp only [Option.map_some, along_of_neg e h, if_neg h]
      exact ⟨rfl, hs⟩

variable (g t₀) in
theorem follows_close (fd : Int) :
    Follows e g t₀ (fun r r' => r = r') (close (along e fd)) (close fd) := by
  intro t t' hs
  unfold close
  rw [hs.look fd]
  cases hl : t'.look fd with
  | none => exact ⟨rfl, hs⟩
  | some f =>
    have h : 0 ≤ fd := by
      by_contra h
      rw [look, if_neg h] at hl
      cases hl
    simp only [Option.map_some, along_of_nonneg e h, Int.toNat_natCast]
    exact ⟨trivial, hs.put he none fd.toNat⟩

end

end FdTable

end SiteCode.Lib
