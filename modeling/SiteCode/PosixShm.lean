import Mathlib.Logic.Function.Basic
import SiteCode.Lib.Descriptors
import SiteCode.Lib.Rely
/-!
# `posix_shm.c`: what `shm_unlink` takes away

A shared memory object has a name until it is unlinked; descriptors and mappings of it
stay valid, and a new object may get its name. The program runs among others that keep
off the objects it can reach.
-/

namespace SiteCode.PosixShm

open Lib Rely FdTable

/-! ## The calls -/

/-- What a descriptor is open on. -/
inductive File (F : Type) where
  | inherited (f : F)
  | shm (o : Nat)

structure Object where
  size : Nat
  byte : Nat → UInt8

/-- The page of an object that is on a page of memory. -/
structure Mapping where
  obj : Nat
  page : Nat

/-- The size of a page, the names and the objects of the system, numbered in the order
they were made, and the descriptors, the pages and the output of the process. -/
structure World (F : Type) where
  pagesize : Nat
  names : String → Option Nat
  next : Nat
  objs : Nat → Object
  fds : FdTable (File F)
  maps : Nat → Option Mapping
  out : List (Nat × List UInt8)

/-- The process ends in an `assert`, or by a signal. -/
inductive Exit where
  | abort
  | fault
  deriving DecidableEq, Repr

variable {F : Type}

/-- `shm_open(name, O_RDWR | O_CREAT)`, without `O_CREAT` if `create` is false. -/
def shm_open (ok create : Bool) (name : String) : Prog (World F) Exit Int := call fun w =>
  match ok, w.names name with
  | false, _ => (.ok (-1), w)
  | true, some o =>
    let (fd, fds) := open_ true (.shm o) w.fds
    (.ok fd, { w with fds })
  | true, none =>
    if create then
      let o := w.next
      let (fd, fds) := open_ true (.shm o) w.fds
      let names := Function.update w.names name (some o)
      let objs := Function.update w.objs o ⟨0, fun _ => 0⟩
      (.ok fd, { w with names, next := o + 1, objs, fds })
    else
      (.ok (-1), w)

def shm_unlink (ok : Bool) (name : String) : Prog (World F) Exit Int := call fun w =>
  match ok, w.names name with
  | true, some _ => (.ok 0, { w with names := Function.update w.names name none })
  | _, _ => (.ok (-1), w)

/-- The object of a descriptor. -/
def objOf (w : World F) (fd : Int) : Option Nat :=
  match w.fds.look fd with
  | some (.shm o) => some o
  | _ => none

def ftruncate (ok : Bool) (fd : Int) (length : Nat) : Prog (World F) Exit Int := call fun w =>
  match ok, objOf w fd with
  | true, some o =>
    let byte := fun i => if i < length ∧ i < (w.objs o).size then (w.objs o).byte i else 0
    (.ok 0, { w with objs := Function.update w.objs o ⟨length, byte⟩ })
  | _, _ => (.ok (-1), w)

/-- The result of `fstat(fd, &st)`, and `st.st_size`. -/
def fstat (ok : Bool) (fd : Int) : Prog (World F) Exit (Int × Nat) := call fun w =>
  match ok, objOf w fd with
  | true, some o => (.ok (0, (w.objs o).size), w)
  | _, _ => (.ok (-1, 0), w)

/-- How many pages `length` bytes take. -/
def pages (pagesize length : Nat) : Nat := (length + pagesize - 1) / pagesize

/-- Puts `f 0`, `f 1` and so on, on `n` pages from `page` on. -/
def mapPages (maps : Nat → Option Mapping) (page n : Nat) (f : Nat → Option Mapping) : Nat → Option Mapping :=
  fun p => if page ≤ p ∧ p < page + n then f (p - page) else maps p

/-- `mmap(NULL, length, PROT_READ | PROT_WRITE, MAP_SHARED, fd, 0)`, on the pages from
`page` on; `none` is `MAP_FAILED`. -/
def mmap (ok : Bool) (page length : Nat) (fd : Int) : Prog (World F) Exit (Option Nat) := call fun w =>
  match ok && length != 0, objOf w fd with
  | true, some obj =>
    let maps := mapPages w.maps page (pages w.pagesize length) fun i => some ⟨obj, i⟩
    (.ok (some (page * w.pagesize)), { w with maps })
  | _, _ => (.ok none, w)

/-- Every page that has a byte of the range goes, and no other one. -/
def munmap (addr : Option Nat) (length : Nat) : Prog (World F) Exit Int := call fun w =>
  match addr with
  | some addr =>
    if addr % w.pagesize = 0 ∧ length ≠ 0 then
      let maps := mapPages w.maps (addr / w.pagesize) (pages w.pagesize length) fun _ => none
      (.ok 0, { w with maps })
    else
      (.ok (-1), w)
  | none => (.ok (-1), w)

def close (fd : Int) : Prog (World F) Exit Int := call fun w =>
  let (r, fds) := FdTable.close fd w.fds
  (.ok r, { w with fds })

def bytes (s : String) : List UInt8 := s.toList.map fun c => UInt8.ofNat c.toNat

/-- A string of C. -/
def cstring (s : String) : List UInt8 := bytes s ++ [0]

/-- The object at an address, its byte there, and how many bytes from that one on are on
the same page and inside the object. -/
def bytesAt (w : World F) (addr : Option Nat) : Option (Nat × Nat × Nat) := do
  let addr ← addr
  let m ← w.maps (addr / w.pagesize)
  let offset := addr % w.pagesize
  let first := m.page * w.pagesize + offset
  return (m.obj, first, min (w.pagesize - offset) ((w.objs m.obj).size - first))

def strcpy (dst : Option Nat) (src : String) : Prog (World F) Exit Unit := call fun w =>
  match bytesAt w dst with
  | some (o, first, n) =>
    if (cstring src).length ≤ n then
      let byte := fun i =>
        if first ≤ i then (cstring src)[i - first]?.getD ((w.objs o).byte i) else (w.objs o).byte i
      (.ok (), { w with objs := Function.update w.objs o { w.objs o with byte } })
    else
      (.error .fault, w)
  | none => (.error .fault, w)

/-- The string at `byte i`, if it ends within `n` bytes. -/
def stringFrom (byte : Nat → UInt8) : (n i : Nat) → Option (List UInt8)
  | 0, _ => none
  | n + 1, i => if byte i = 0 then some [] else (stringFrom byte n (i + 1)).map (byte i :: ·)

/-- `printf("[%p]:%s\n", s, s)` -/
def printf (s : Option Nat) : Prog (World F) Exit Unit := call fun w =>
  match s, bytesAt w s with
  | some addr, some (o, first, n) =>
    match stringFrom (w.objs o).byte n first with
    | some text => (.ok (), { w with out := w.out ++ [(addr, text)] })
    | none => (.error .fault, w)
  | _, _ => (.error .fault, w)

/-- The loop of `strcmp` with `n` bytes left. -/
def strcmp_from (s1 s2 : Nat → UInt8) : (n i1 i2 : Nat) → Option Int
  | 0, _, _ => none
  | n + 1, i1, i2 =>
    if s1 i1 ≠ s2 i2 then some ((s1 i1).toNat - (s2 i2).toNat)
    else if s1 i1 = 0 then some 0
    else strcmp_from s1 s2 n (i1 + 1) (i2 + 1)

def strcmp (s1 s2 : Option Nat) : Prog (World F) Exit Int := call fun w =>
  match bytesAt w s1, bytesAt w s2 with
  | some (o1, first1, n1), some (o2, first2, n2) =>
    match strcmp_from (w.objs o1).byte (w.objs o2).byte (min n1 n2) first1 first2 with
    | some r => (.ok r, w)
    | none => (.error .fault, w)
  | _, _ => (.error .fault, w)

def assert (c : Prop) [Decidable c] : Prog (World F) Exit Unit := if c then pure () else throw .abort

/-! ## The program -/

/-- Which calls are successful, and the pages of the mappings. -/
structure Outcome where
  open1 : Bool
  truncate1 : Bool
  stat : Bool
  mmap1 : Bool
  unlink : Bool
  reopen : Bool
  open2 : Bool
  truncate2 : Bool
  mmap2 : Bool
  page1 : Nat
  page2 : Nat

/-- `main` from "create a shmem object which has the same name" on. -/
def same_name (o : Outcome) (argc : Nat) (shm_mem : Option Nat) (st_size : Nat) : Prog (World F) Exit Unit := do
  let fd ← shm_open o.open2 true "test"
  assert (fd ≠ -1)
  let r ← ftruncate o.truncate2 fd 4000
  assert (r ≠ -1)
  let shm_mem1 ← mmap o.mmap2 o.page2 st_size fd
  strcpy shm_mem1 "abcdef"
  printf shm_mem
  printf shm_mem1
  let r ← strcmp shm_mem shm_mem1
  (if argc > 1 then assert (r ≠ 0) else assert (r = 0))
  let _ ← munmap shm_mem st_size
  let _ ← munmap shm_mem1 st_size
  let _ ← close fd

def main (o : Outcome) (argc : Nat) : Prog (World F) Exit Unit := do
  let fd ← shm_open o.open1 true "test"
  assert (fd ≠ -1)
  let r ← ftruncate o.truncate1 fd 4000
  assert (r ≠ -1)
  let st ← fstat o.stat fd
  assert (st.1 ≠ -1)
  assert (st.2 = 4000)
  let shm_mem ← mmap o.mmap1 o.page1 st.2 fd
  strcpy shm_mem "123456"
  let _ ← (if argc > 1 then shm_unlink o.unlink "test" else pure 0)
  let _ ← close fd
  (if argc > 1 then do
    let fd ← shm_open o.reopen false "test"
    assert (fd = -1)
  else pure ())
  same_name o argc shm_mem st.2

/-! ## What the others leave alone -/

/-- What of a world belongs to the program. -/
structure Own (F : Type) where
  pagesize : Nat
  named : Option Nat
  fds : FdTable (File F)
  maps : Nat → Option Mapping
  out : List (Nat × List UInt8)

def World.own (w : World F) : Own F := ⟨w.pagesize, w.names "test", w.fds, w.maps, w.out⟩

/-- The program can get at the object: by name, by a descriptor or by a mapping. -/
def Own.Reaches (W : Own F) (o : Nat) : Prop :=
  W.named = some o ∨ (∃ i, W.fds.file i = some (.shm o)) ∨ ∃ page m, W.maps page = some m ∧ m.obj = o

/-- The others do as they like with all other names and objects. -/
structure Others (w w' : World F) : Prop where
  own : w'.own = w.own
  next : w.next ≤ w'.next
  objs : ∀ o, w.own.Reaches o → w'.objs o = w.objs o

/-- The program owns `W`, and knows facts of objects that it reaches. -/
structure At (W : Own F) (K : List (Nat × (Object → Prop))) (w : World F) : Prop where
  own : w.own = W
  numbered : ∀ o, W.Reaches o → o < w.next
  known : ∀ f ∈ K, W.Reaches f.1 ∧ f.2 (w.objs f.1)

variable {W W' : Own F} {K K' : List (Nat × (Object → Prop))} {w w' : World F} {o page : Nat} {fd : Int} {ok : Bool}
  {E : Exit → World F → Prop} {P : Object → Prop}

theorem stable_at : Stable Others (At W K) := by
  intro w w' hw hA
  have hown := hA.own
  refine ⟨hw.own.trans hown, fun o ho => (hA.numbered o ho).trans_le hw.next, fun f hf => ?_⟩
  obtain ⟨h1, h2⟩ := hA.known f hf
  rw [hw.objs f.1 (hown ▸ h1)]
  exact ⟨h1, h2⟩

/-- A call that changes what the program owns, and no object that it knows. -/
theorem At.owned (hA : At W K w) (hown : w'.own = W') (hnext : w.next ≤ w'.next)
    (hobjs : ∀ f ∈ K, w'.objs f.1 = w.objs f.1) (hnum : ∀ o, W'.Reaches o → W.Reaches o ∨ o < w'.next)
    (hreach : ∀ f ∈ K, W.Reaches f.1 → W'.Reaches f.1) : At W' K w' := by
  refine ⟨hown, fun o ho => ?_, fun f hf => ?_⟩
  · rcases hnum o ho with h | h
    · exact (hA.numbered o h).trans_le hnext
    · exact h
  · obtain ⟨h1, h2⟩ := hA.known f hf
    rw [hobjs f hf]
    exact ⟨hreach f hf h1, h2⟩

/-- A call that writes to one object. -/
theorem At.write (hA : At W K w) (hr : W.Reaches o) {obj : Object} (hP : P obj) :
    At W ((o, P) :: K.filter (·.1 ≠ o)) { w with objs := Function.update w.objs o obj } := by
  refine ⟨hA.own, hA.numbered, fun f hf => ?_⟩
  rcases List.mem_cons.1 hf with rfl | hf
  · exact ⟨hr, by simpa using hP⟩
  · obtain ⟨hf, hne⟩ := List.mem_filter.1 hf
    have hne : f.1 ≠ o := by simpa using hne
    obtain ⟨h1, h2⟩ := hA.known f hf
    exact ⟨h1, by simpa [hne] using h2⟩

theorem At.weaken (hA : At W K w) (K' : List (Nat × (Object → Prop)))
    (h : ∀ f' ∈ K', ∃ f ∈ K, f.1 = f'.1 ∧ ∀ obj, f.2 obj → f'.2 obj) : At W K' w := by
  refine ⟨hA.own, hA.numbered, fun f' hf' => ?_⟩
  obtain ⟨f, hf, h1, h2⟩ := h f' hf'
  obtain ⟨h3, h4⟩ := hA.known f hf
  rw [← h1]
  exact ⟨h3, h2 _ h4⟩

/-! ## What the calls do -/

/-- The object got a descriptor, and the name if it had none. -/
def Own.opened (W : Own F) (o : Nat) : Own F :=
  { W with named := some o, fds := W.fds.put (some (.shm o)) W.fds.lowest }

def Own.mapped (W : Own F) (page o : Nat) : Own F :=
  { W with maps := Function.update W.maps page (some ⟨o, 0⟩) }

theorem reaches_opened {x : Nat} (hn : W.named = none ∨ W.named = some o) :
    (W.opened o).Reaches x ↔ x = o ∨ W.Reaches x := by
  unfold Own.Reaches Own.opened
  constructor
  · rintro (h | ⟨i, h⟩ | h)
    · exact .inl (Option.some.inj h).symm
    · dsimp only at h
      rw [file_put] at h
      split at h
      · exact .inl (File.shm.inj (Option.some.inj h)).symm
      · exact .inr (.inr (.inl ⟨i, h⟩))
    · exact .inr (.inr (.inr h))
  · rintro (rfl | h | ⟨i, h⟩ | h)
    · exact .inl rfl
    · rcases hn with e | e <;> rw [e] at h
      · cases h
      · exact .inl h
    · refine .inr (.inl ⟨i, ?_⟩)
      have hi : i ≠ W.fds.lowest := by
        rintro rfl
        rw [file_lowest] at h
        cases h
      dsimp only
      rw [file_put, if_neg hi, h]
    · exact .inr (.inr h)

theorem reaches_mapped (x : Nat) (ha : W.maps page = none) (ho : W.Reaches o) :
    (W.mapped page o).Reaches x ↔ W.Reaches x := by
  unfold Own.Reaches Own.mapped
  constructor
  · rintro (h | h | ⟨a, m, h, hm⟩)
    · exact .inl h
    · exact .inr (.inl h)
    · dsimp only at h
      by_cases haa : a = page
      · subst haa
        rw [Function.update_self] at h
        cases h
        exact hm ▸ ho
      · rw [Function.update_of_ne haa] at h
        exact .inr (.inr ⟨a, m, h, hm⟩)
  · rintro (h | h | ⟨a, m, h, hm⟩)
    · exact .inl h
    · exact .inr (.inl h)
    · have haa : a ≠ page := by
        rintro rfl
        rw [ha] at h
        cases h
      exact .inr (.inr ⟨a, m, (Function.update_of_ne haa ..).trans h, hm⟩)

theorem spec_shm_open : Triple Others (At W K) (shm_open ok true "test")
    (fun fd w => ok = true ∧ fd = W.fds.lowest ∧
        (∃ o, (W.named = some o ∨ W.named = none ∧ ¬ W.Reaches o) ∧ At (W.opened o) K w) ∨
      ok = false ∧ fd = -1) E := by
  refine Triple.call stable_at fun w hA => ?_
  have hnamed : w.names "test" = W.named := congrArg Own.named hA.own
  have hfds : w.fds = W.fds := congrArg Own.fds hA.own
  cases ok with
  | false => exact .inr ⟨rfl, rfl⟩
  | true =>
    cases hn : W.named with
    | some o =>
      rw [hn] at hnamed
      simp only [hnamed, open_, alloc]
      refine .inl ⟨trivial, by rw [hfds], o, .inl rfl, ?_⟩
      refine hA.owned ?_ le_rfl (fun _ _ => rfl) (fun x hx => ?_) fun f _ hf => (reaches_opened (.inr hn)).2 (.inr hf)
      · rw [← hA.own]
        simp [World.own, Own.opened, hnamed]
      · rcases (reaches_opened (.inr hn)).1 hx with rfl | hx
        · exact .inl (.inl hn)
        · exact .inl hx
    | none =>
      rw [hn] at hnamed
      simp only [hnamed, open_, alloc, if_true]
      have hfresh : ¬ W.Reaches w.next := fun h => (hA.numbered _ h).false
      refine .inl ⟨trivial, by rw [hfds], w.next, .inr ⟨trivial, hfresh⟩, ?_⟩
      refine hA.owned ?_ (Nat.le_succ _) (fun f hf => ?_) (fun x hx => ?_)
        fun f _ hf => (reaches_opened (.inl hn)).2 (.inr hf)
      · rw [← hA.own]
        simp [World.own, Own.opened]
      · have hne : f.1 ≠ w.next := fun e => hfresh (e ▸ (hA.known f hf).1)
        exact Function.update_of_ne hne ..
      · rcases (reaches_opened (.inl hn)).1 hx with rfl | hx
        · exact .inr (Nat.lt_succ_self _)
        · exact .inl hx

theorem At.objOf (hA : At W K w) (hfd : W.fds.look fd = some (.shm o)) : objOf w fd = some o := by
  have hfds : w.fds = W.fds := congrArg Own.fds hA.own
  rw [PosixShm.objOf, hfds, hfd]

theorem reaches_of_look (hfd : W.fds.look fd = some (.shm o)) : W.Reaches o := by
  unfold look at hfd
  split at hfd
  · exact .inr (.inl ⟨_, hfd⟩)
  · cases hfd

theorem spec_ftruncate (length : Nat) (hfd : W.fds.look fd = some (.shm o)) :
    Triple Others (At W K) (ftruncate ok fd length)
      (fun r w => ok = true ∧ r = 0 ∧ At W ((o, fun x => x.size = length) :: K.filter (·.1 ≠ o)) w ∨
        ok = false ∧ r = -1) E := by
  refine Triple.call stable_at fun w hA => ?_
  cases ok with
  | false => exact .inr ⟨rfl, rfl⟩
  | true =>
    simp only [hA.objOf hfd]
    exact .inl ⟨trivial, rfl, hA.write (reaches_of_look hfd) rfl⟩

theorem spec_fstat {n : Nat} (hfd : W.fds.look fd = some (.shm o)) (hK : (o, fun x => x.size = n) ∈ K) :
    Triple Others (At W K) (fstat ok fd)
      (fun st w => ok = true ∧ st.1 = 0 ∧ (st.2 = n ∧ At W K w) ∨ ok = false ∧ st.1 = -1) E := by
  refine Triple.call stable_at fun w hA => ?_
  cases ok with
  | false => exact .inr ⟨rfl, rfl⟩
  | true =>
    simp only [hA.objOf hfd]
    exact .inl ⟨trivial, rfl, (hA.known _ hK).2, hA⟩

/-- What fits on a page takes one page. -/
theorem pages_one {pagesize length : Nat} (h0 : length ≠ 0) (h : length ≤ pagesize) :
    pages pagesize length = 1 := by
  rw [pages, Nat.div_eq_iff (by omega)]
  omega

theorem mapPages_one (maps : Nat → Option Mapping) (page : Nat) (f : Nat → Option Mapping) :
    mapPages maps page 1 f = Function.update maps page (f 0) := by
  funext p
  by_cases hp : p = page
  · simp [mapPages, hp]
  · rw [Function.update_of_ne hp, mapPages, if_neg (by omega)]

theorem spec_mmap {length : Nat} (h0 : length ≠ 0) (hps : length ≤ W.pagesize)
    (hfd : W.fds.look fd = some (.shm o)) (ha : W.maps page = none) :
    Triple Others (At W K) (mmap ok page length fd)
      (fun p w => (ok = true ∧ p = some (page * W.pagesize)) ∧ At (W.mapped page o) K w ∨
        (ok = false ∧ p = none) ∧ True) E := by
  refine Triple.call stable_at fun w hA => ?_
  have hsize : w.pagesize = W.pagesize := congrArg Own.pagesize hA.own
  cases ok with
  | false => exact .inr ⟨⟨rfl, rfl⟩, trivial⟩
  | true =>
    have h0 : (length != 0) = true := by simpa using h0
    simp only [hA.objOf hfd, h0, Bool.and_self, hsize, pages_one (by simpa using h0) hps, mapPages_one]
    have hr := fun x => reaches_mapped x ha (reaches_of_look hfd)
    refine .inl ⟨⟨trivial, rfl⟩, hA.owned ?_ le_rfl (fun _ _ => rfl) (fun x hx => .inl ((hr x).1 hx))
      fun f _ hf => (hr _).2 hf⟩
    rw [← hA.own]
    rfl

/-- The object has the size that the program gives it, and begins with a string. -/
def Text (s : String) (obj : Object) : Prop := obj.size = 4000 ∧ ∀ i b, (cstring s)[i]? = some b → obj.byte i = b

theorem At.bytesAt (hA : At W K w) (hps : 4000 ≤ W.pagesize) (hm : W.maps page = some ⟨o, 0⟩)
    {P : Object → Prop} (hK : (o, P) ∈ K) (hP : ∀ obj, P obj → obj.size = 4000) :
    bytesAt w (some (page * W.pagesize)) = some (o, 0, 4000) := by
  have hmaps : w.maps = W.maps := congrArg Own.maps hA.own
  have hsize : w.pagesize = W.pagesize := congrArg Own.pagesize hA.own
  have hdiv : page * W.pagesize / W.pagesize = page := Nat.mul_div_cancel _ (by omega)
  simp [PosixShm.bytesAt, hmaps, hsize, hdiv, hm, hP _ (hA.known _ hK).2, hps]

theorem reaches_of_maps {m : Mapping} (hm : W.maps page = some m) : W.Reaches m.obj := .inr (.inr ⟨page, m, hm, rfl⟩)

theorem spec_strcpy {src : String} (hps : 4000 ≤ W.pagesize) (hm : W.maps page = some ⟨o, 0⟩)
    (hK : (o, fun x => x.size = 4000) ∈ K) (hlen : (cstring src).length ≤ 4000) :
    Triple Others (At W K) (strcpy (some (page * W.pagesize)) src)
      (fun _ w => At W ((o, Text src) :: K.filter (·.1 ≠ o)) w) E := by
  refine Triple.call stable_at fun w hA => ?_
  simp only [hA.bytesAt hps hm hK fun _ h => h, if_pos hlen]
  refine hA.write (reaches_of_maps hm) ⟨(hA.known _ hK).2, fun i b hb => ?_⟩
  simp [hb]

/-- Through a failed mapping. -/
theorem spec_strcpy_none {src : String} {P : World F → Prop} {Q : Unit → World F → Prop} (hP : Stable Others P)
    (hE : ∀ w, E .fault w) : Triple Others P (strcpy none src) Q E :=
  Triple.call hP fun w _ => hE w

/-! ## Strings -/

/-- The bytes at `i` are those of a list, and then a zero. -/
def StringAt (byte : Nat → UInt8) (i : Nat) (t : List UInt8) : Prop := ∀ j b, (t ++ [0])[j]? = some b → byte (i + j) = b

theorem StringAt.head {byte : Nat → UInt8} {i : Nat} {x : UInt8} {t : List UInt8} (h : StringAt byte i (x :: t)) :
    byte i = x ∧ StringAt byte (i + 1) t := by
  refine ⟨h 0 x rfl, fun j b hb => ?_⟩
  have := h (j + 1) b (by simpa using hb)
  rwa [Nat.add_assoc, Nat.add_comm 1 j]

theorem StringAt.nil {byte : Nat → UInt8} {i : Nat} (h : StringAt byte i []) : byte i = 0 := h 0 0 rfl

theorem Text.stringAt {s : String} {obj : Object} (h : Text s obj) : StringAt obj.byte 0 (bytes s) := by
  intro j b hb
  rw [Nat.zero_add]
  exact h.2 j b hb

theorem stringFrom_eq {byte : Nat → UInt8} {t : List UInt8} {n i : Nat} (ht : 0 ∉ t) (hb : StringAt byte i t)
    (hn : t.length < n) : stringFrom byte n i = some t := by
  induction t generalizing n i with
  | nil =>
    obtain ⟨n, rfl⟩ := Nat.exists_eq_add_of_lt hn
    simp [stringFrom, hb.nil]
  | cons x t ih =>
    obtain ⟨n, rfl⟩ := Nat.exists_eq_add_of_lt hn
    obtain ⟨hx, hb⟩ := hb.head
    rw [List.mem_cons, not_or] at ht
    have hrest := ih (n := t.length + 1 + n) ht.2 hb (by omega)
    rw [List.length_cons, stringFrom, hx, if_neg (Ne.symm ht.1), hrest]
    rfl

/-- The result is zero exactly for equal strings. -/
theorem strcmp_from_eq {b1 b2 : Nat → UInt8} {t1 t2 : List UInt8} {n i1 i2 : Nat} (h1 : 0 ∉ t1) (h2 : 0 ∉ t2)
    (hb1 : StringAt b1 i1 t1) (hb2 : StringAt b2 i2 t2) (hn : t1.length < n) :
    ∃ r, strcmp_from b1 b2 n i1 i2 = some r ∧ (r = 0 ↔ t1 = t2) := by
  have hdiff : ∀ x y : UInt8, x ≠ y → ((x.toNat : Int) - y.toNat ≠ 0) := by
    intro x y hxy h
    exact hxy (UInt8.toNat_inj.1 (by omega))
  induction t1 generalizing t2 n i1 i2 with
  | nil =>
    obtain ⟨n, rfl⟩ := Nat.exists_eq_add_of_lt hn
    cases t2 with
    | nil => exact ⟨0, by simp [strcmp_from, hb1.nil, hb2.nil], by simp⟩
    | cons y t2 =>
      have hy : (0 : UInt8) ≠ y := fun e => h2 (e ▸ List.mem_cons_self)
      refine ⟨_, by rw [strcmp_from, hb1.nil, hb2.head.1, if_pos hy], ?_⟩
      exact iff_of_false (hdiff 0 y hy) (by simp)
  | cons x t1 ih =>
    obtain ⟨n, rfl⟩ := Nat.exists_eq_add_of_lt hn
    obtain ⟨hx, hb1⟩ := hb1.head
    rw [List.mem_cons, not_or] at h1
    cases t2 with
    | nil =>
      refine ⟨_, by rw [List.length_cons, strcmp_from, hx, hb2.nil, if_pos (Ne.symm h1.1)], ?_⟩
      exact iff_of_false (hdiff x 0 (Ne.symm h1.1)) (by simp)
    | cons y t2 =>
      obtain ⟨hy, hb2'⟩ := hb2.head
      rw [List.mem_cons, not_or] at h2
      by_cases hxy : x = y
      · subst hxy
        obtain ⟨r, hr, hiff⟩ := ih (n := t1.length + 1 + n) h1.2 h2.2 hb1 hb2' (by omega)
        refine ⟨r, ?_, by simpa using hiff⟩
        rw [List.length_cons, strcmp_from, hx, hy, if_neg (not_not.2 rfl), if_neg (Ne.symm h1.1), hr]
      · refine ⟨_, by rw [List.length_cons, strcmp_from, hx, hy, if_pos hxy], ?_⟩
        exact iff_of_false (hdiff x y hxy) (by simp [hxy])

theorem spec_printf {s : String} (hs : 0 ∉ bytes s) (hlen : (bytes s).length < 4000)
    (hps : 4000 ≤ W.pagesize) (hm : W.maps page = some ⟨o, 0⟩) (hK : (o, Text s) ∈ K) :
    Triple Others (At W K) (printf (some (page * W.pagesize)))
      (fun _ w => At { W with out := W.out ++ [(page * W.pagesize, bytes s)] } K w) E := by
  refine Triple.call stable_at fun w hA => ?_
  have hstr := stringFrom_eq hs (hA.known _ hK).2.stringAt hlen
  simp only [hA.bytesAt hps hm hK fun _ h => h.1, hstr]
  refine hA.owned ?_ le_rfl (fun _ _ => rfl) (fun _ h => .inl h) fun _ _ h => h
  rw [← hA.own]
  rfl

theorem spec_strcmp {s1 s2 : String} {page1 page2 o1 o2 : Nat} (h1 : 0 ∉ bytes s1) (h2 : 0 ∉ bytes s2)
    (hlen : (bytes s1).length < 4000) (hps : 4000 ≤ W.pagesize) (hm1 : W.maps page1 = some ⟨o1, 0⟩)
    (hm2 : W.maps page2 = some ⟨o2, 0⟩) (hK1 : (o1, Text s1) ∈ K) (hK2 : (o2, Text s2) ∈ K) :
    Triple Others (At W K) (strcmp (some (page1 * W.pagesize)) (some (page2 * W.pagesize)))
      (fun r w => (r = 0 ↔ bytes s1 = bytes s2) ∧ At W K w) E := by
  refine Triple.call stable_at fun w hA => ?_
  obtain ⟨r, hr, hiff⟩ := strcmp_from_eq h1 h2 (hA.known _ hK1).2.stringAt (hA.known _ hK2).2.stringAt
    (n := min 4000 4000) hlen
  simp only [hA.bytesAt hps hm1 hK1 fun _ h => h.1, hA.bytesAt hps hm2 hK2 fun _ h => h.1, hr]
  exact ⟨hiff, hA⟩

/-! ## Giving things back -/

theorem spec_munmap {length : Nat} (h0 : length ≠ 0) (hps : length ≤ W.pagesize)
    (hK : ∀ f ∈ K, Own.Reaches { W with maps := Function.update W.maps page none } f.1) :
    Triple Others (At W K) (munmap (some (page * W.pagesize)) length)
      (fun _ w => At { W with maps := Function.update W.maps page none } K w) E := by
  refine Triple.call stable_at fun w hA => ?_
  have hsize : w.pagesize = W.pagesize := congrArg Own.pagesize hA.own
  have hdiv : page * W.pagesize / W.pagesize = page := Nat.mul_div_cancel _ (by omega)
  have hgood : page * W.pagesize % W.pagesize = 0 ∧ length ≠ 0 := ⟨Nat.mul_mod_left .., h0⟩
  simp only [hsize, if_pos hgood, hdiv, pages_one h0 hps, mapPages_one]
  refine hA.owned ?_ le_rfl (fun _ _ => rfl) (fun x hx => .inl ?_) fun f hf _ => hK f hf
  · rw [← hA.own]
    rfl
  · rcases hx with h | h | ⟨a, m, h, hm⟩
    · exact .inl h
    · exact .inr (.inl h)
    · by_cases ha : a = page
      · simp [ha] at h
      · exact .inr (.inr ⟨a, m, by simpa [ha] using h, hm⟩)

theorem spec_close (hfd : W.fds.look fd = some (.shm o))
    (hK : ∀ f ∈ K, Own.Reaches { W with fds := W.fds.put none fd.toNat } f.1) :
    Triple Others (At W K) (close fd) (fun _ w => At { W with fds := W.fds.put none fd.toNat } K w) E := by
  refine Triple.call stable_at fun w hA => ?_
  have hfds : w.fds = W.fds := congrArg Own.fds hA.own
  simp only [FdTable.close, hfds, hfd]
  refine hA.owned ?_ le_rfl (fun _ _ => rfl) (fun x hx => .inl ?_) fun f hf _ => hK f hf
  · rw [← hA.own]
    rfl
  · rcases hx with h | ⟨i, h⟩ | h
    · exact .inl h
    · by_cases hi : i = fd.toNat
      · simp [hi] at h
      · exact .inr (.inl ⟨i, by simpa [hi] using h⟩)
    · exact .inr (.inr h)

theorem spec_shm_unlink (hn : W.named = some o) (hK : ∀ f ∈ K, Own.Reaches { W with named := none } f.1) :
    Triple Others (At W K) (shm_unlink ok "test")
      (fun _ w => ok = true ∧ At { W with named := none } K w ∨ ok = false ∧ At W K w) E := by
  refine Triple.call stable_at fun w hA => ?_
  have hnamed : w.names "test" = some o := (congrArg Own.named hA.own).trans hn
  cases ok with
  | false => exact .inr ⟨rfl, hA⟩
  | true =>
    simp only [hnamed]
    refine .inl ⟨trivial, hA.owned ?_ le_rfl (fun _ _ => rfl) (fun x hx => .inl ?_) fun f hf _ => hK f hf⟩
    · rw [← hA.own]
      simp [World.own]
    · rcases hx with h | h | h
      · cases h
      · exact .inr (.inl h)
      · exact .inr (.inr h)

/-! ## The checks -/

theorem spec_assert {c : Prop} [Decidable c] {P : World F → Prop} {Q : Unit → World F → Prop}
    (hok : c → ∀ w, P w → Q () w) (hfail : ¬ c → ∀ w, P w → E .abort w) : Triple Others P (assert c) Q E :=
  Triple.ite (fun h => Triple.pure (hok h)) fun h => Triple.throw (hfail h)

/-- `assert(r != -1)` after a call. -/
theorem spec_checked {P : World F → Prop} {r good : Int} (hgood : good ≠ -1) (hfail : ok = false → ∀ w, E .abort w) :
    Triple Others (fun w => ok = true ∧ r = good ∧ P w ∨ ok = false ∧ r = -1) (assert (r ≠ -1))
      (fun _ w => (ok = true ∧ r = good) ∧ P w) E := by
  refine spec_assert (fun hr w hw => ?_) fun hr w hw => ?_
  · rcases hw with ⟨h1, h2, h3⟩ | ⟨h1, h2⟩
    · exact ⟨⟨h1, h2⟩, h3⟩
    · exact absurd h2 hr
  · rcases hw with ⟨h1, h2, h3⟩ | ⟨h1, h2⟩
    · exact absurd (not_not.1 hr) (h2 ▸ hgood)
    · exact hfail h1 w

theorem lowest_ne (t : FdTable (File F)) : (t.lowest : Int) ≠ -1 := by omega

@[simp] theorem look_put_lowest (t : FdTable (File F)) (f : File F) :
    FdTable.look (t.put (some f) t.lowest) (t.lowest : Int) = some f := by
  simp [look]

/-- The final comparison, where the two strings are equal exactly if `same`. -/
theorem spec_compare {argc : Nat} {r : Int} {same : Prop} {P : World F → Prop}
    (hfail : ¬ (1 < argc ↔ ¬ same) → ∀ w, E .abort w) :
    Triple Others (fun w => (r = 0 ↔ same) ∧ P w) (if argc > 1 then assert (r ≠ 0) else assert (r = 0))
      (fun _ w => (1 < argc ↔ ¬ same) ∧ P w) E := by
  refine Triple.fact fun hr => Triple.ite (fun hc => ?_) fun hc => ?_
  · refine spec_assert (fun h w hw => ⟨?_, hw⟩) fun h w _ => hfail ?_ w
    · exact iff_of_true hc (h ∘ hr.2)
    · rw [not_not] at h
      exact fun hiff => hiff.1 hc (hr.1 h)
  · refine spec_assert (fun h w hw => ⟨?_, hw⟩) fun h w _ => hfail ?_ w
    · exact iff_of_false hc (not_not.2 (hr.1 h))
    · exact fun hiff => hc (hiff.2 fun hs => h (hr.2 hs))

/-! ## The second half -/

/-- What the program owns at the end of `same_name`, with the second object `b`. -/
def Own.after (W : Own F) (o : Outcome) (text1 : String) (b : Nat) : Own F where
  pagesize := W.pagesize
  named := some b
  fds := (W.fds.put (some (.shm b)) W.fds.lowest).put none W.fds.lowest
  maps := Function.update (Function.update (Function.update W.maps o.page2 (some ⟨b, 0⟩)) o.page1 none) o.page2 none
  out := W.out ++ [(o.page1 * W.pagesize, bytes text1)] ++ [(o.page2 * W.pagesize, bytes "abcdef")]

/-- When `same_name` ends normally, with the name taken or free. -/
def Again (o : Outcome) (argc : Nat) (named : Option Nat) : Prop :=
  (o.open2 = true ∧ o.truncate2 = true ∧ o.mmap2 = true) ∧ (1 < argc ↔ ¬ named ≠ none)

theorem same_name_spec (o : Outcome) (argc : Nat) {a : Nat} (hW : W.named = none ∨ W.named = some a)
    (hps : 4000 ≤ W.pagesize) (h12 : o.page1 ≠ o.page2) (hm : W.maps o.page1 = some ⟨a, 0⟩)
    (hfree : W.maps o.page2 = none) :
    Triple Others (At W [(a, Text "123456")]) (same_name o argc (some (o.page1 * W.pagesize)) 4000)
      (fun _ w => Again o argc W.named ∧ ∃ b, (W.named = some b ∨ W.named = none ∧ ¬ W.Reaches b) ∧
        At (W.after o (if W.named ≠ none then "abcdef" else "123456") b) [(b, Text "abcdef")] w)
      fun _ _ => ¬ Again o argc W.named := by
  unfold same_name
  refine Triple.bind spec_shm_open fun fd => ?_
  refine Triple.bind (spec_checked (lowest_ne _) fun h _ hc => absurd hc.1.1 (by simp [h])) fun _ => ?_
  refine Triple.fact fun h1 => Triple.of_exists fun b => Triple.fact fun hb => ?_
  obtain ⟨hopen, rfl⟩ := h1
  have hlook : (W.opened b).fds.look (W.fds.lowest : Int) = some (.shm b) := look_put_lowest ..
  refine Triple.bind (spec_ftruncate 4000 hlook) fun r => ?_
  refine Triple.bind (spec_checked (by decide) fun h _ hc => absurd hc.1.2.1 (by simp [h])) fun _ => ?_
  refine Triple.fact fun h2 => ?_
  refine Triple.bind (spec_mmap (by decide) hps hlook hfree) fun p => ?_
  refine Triple.or (Triple.fact fun h3 => ?_) (Triple.fact fun h3 => ?_)
  rotate_left
  · obtain ⟨hmap, rfl⟩ := h3
    refine (spec_strcpy_none (fun _ _ _ h => h) fun _ hc => absurd hc.1.2.2 (by simp [hmap])).bind
      (Q := fun _ _ => False) fun _ => ?_
    exact fun _ _ _ h => h.elim
  obtain ⟨hmap, rfl⟩ := h3
  have hm1 : ((W.opened b).mapped o.page2 b).maps o.page1 = some ⟨a, 0⟩ := (Function.update_of_ne h12 ..).trans hm
  have hm2 : ((W.opened b).mapped o.page2 b).maps o.page2 = some ⟨b, 0⟩ := Function.update_self ..
  refine Triple.bind (spec_strcpy hps hm2 List.mem_cons_self (by decide)) fun _ => ?_
  -- the second text is in the second object, which may be the first one
  have htexts : ∀ w, At ((W.opened b).mapped o.page2 b) ((b, Text "abcdef") ::
      (((b, fun x => x.size = 4000) :: [(a, Text "123456")].filter (·.1 ≠ b)).filter (·.1 ≠ b))) w →
      At ((W.opened b).mapped o.page2 b)
        [(b, Text "abcdef"), (a, Text (if W.named ≠ none then "abcdef" else "123456"))] w := by
    intro w hA
    refine hA.weaken _ fun f hf => ?_
    rcases List.mem_cons.1 hf with rfl | hf
    · exact ⟨_, List.mem_cons_self, rfl, fun _ h => h⟩
    · obtain rfl := List.mem_singleton.1 hf
      rcases hW with hn | hn
      · have hab : a ≠ b := by
          rcases hb with h | h
          · rw [hn] at h
            cases h
          · rintro rfl
            exact h.2 (reaches_of_maps hm)
        refine ⟨(a, Text "123456"), ?_, rfl, by simp [hn]⟩
        simp [hab]
      · have hab : a = b := by
          rcases hb with h | h
          · exact Option.some.inj (hn.symm.trans h)
          · rw [hn] at h
            cases h.1
        refine ⟨_, List.mem_cons_self, hab.symm, by simp [hn]⟩
  refine Triple.weaken ?_ htexts
  have htext : 0 ∉ bytes (if W.named ≠ none then "abcdef" else "123456") ∧
      (bytes (if W.named ≠ none then "abcdef" else "123456")).length < 4000 := by
    split <;> decide
  have hsame : bytes (if W.named ≠ none then "abcdef" else "123456") = bytes "abcdef" ↔ W.named ≠ none := by
    by_cases hn : W.named = none
    · simp only [hn]
      decide
    · simp [hn]
  have hfirst : (a, Text (if W.named ≠ none then "abcdef" else "123456")) ∈
      [(b, Text "abcdef"), (a, Text (if W.named ≠ none then "abcdef" else "123456"))] := by simp
  have hnozero : 0 ∉ bytes "abcdef" := by decide
  refine Triple.bind (spec_printf htext.1 htext.2 hps hm1 hfirst) fun _ => ?_
  refine Triple.bind (spec_printf hnozero (by decide) hps hm2 List.mem_cons_self) fun _ => ?_
  refine Triple.bind (spec_strcmp htext.1 hnozero htext.2 hps hm1 hm2 hfirst List.mem_cons_self) fun r => ?_
  simp only [hsame]
  refine Triple.bind (spec_compare fun h _ hc => h hc.2) fun _ => ?_
  refine Triple.fact fun hargc => ?_
  have hlast : ∀ {W' : Own F} {w : World F},
      At W' [(b, Text "abcdef"), (a, Text (if W.named ≠ none then "abcdef" else "123456"))] w →
      At W' [(b, Text "abcdef")] w := fun hA => hA.weaken _ fun f hf => ⟨f, by simp_all, rfl, fun _ h => h⟩
  refine Triple.weaken ?_ fun _ => hlast
  have hnamed : ∀ {fds : FdTable (File F)} {maps : Nat → Option Mapping} {out : List (Nat × List UInt8)},
      ∀ f ∈ [(b, Text "abcdef")], Own.Reaches ⟨W.pagesize, some b, fds, maps, out⟩ f.1 := by
    intro _ _ _ f hf
    rw [List.mem_singleton.1 hf]
    exact .inl rfl
  refine Triple.bind (spec_munmap (by decide) hps hnamed) fun _ => ?_
  refine Triple.bind (spec_munmap (by decide) hps hnamed) fun _ => ?_
  refine Triple.bind (spec_close hlook hnamed) fun _ => Triple.pure fun w hA => ?_
  exact ⟨⟨⟨hopen, h2.1, hmap⟩, hargc⟩, b, hb, hA⟩

/-! ## The whole program -/

/-- The calls that have to be successful. -/
def Succeeds (o : Outcome) (argc : Nat) : Prop :=
  (o.open1 = true ∧ o.truncate1 = true ∧ o.stat = true ∧ o.mmap1 = true) ∧ (1 < argc → o.unlink = true) ∧
    o.open2 = true ∧ o.truncate2 = true ∧ o.mmap2 = true

/-- What the program leaves of the world `w`: its output and an object with its name. -/
structure Done (o : Outcome) (argc : Nat) (w w' : World F) : Prop where
  fds : ∀ i, w'.fds.file i = w.fds.file i
  maps : w'.maps = w.maps
  out : w'.out = w.out ++
    [(o.page1 * w.pagesize, bytes (if 1 < argc then "123456" else "abcdef")),
      (o.page2 * w.pagesize, bytes "abcdef")]
  object : ∃ b, w'.names "test" = some b ∧ Text "abcdef" (w'.objs b) ∧
    if 1 < argc then ¬ w.own.Reaches b else ∀ a, w.names "test" = some a → a = b

/-- Without `O_CREAT` the name has to exist. -/
theorem spec_reopen : Triple Others (At W K) (shm_open ok false "test")
    (fun fd w => (W.named = none → fd = -1) ∧ (fd = -1 → At W K w)) E := by
  refine Triple.call stable_at fun w hA => ?_
  have hnamed : w.names "test" = W.named := congrArg Own.named hA.own
  cases ok with
  | false => exact ⟨fun _ => rfl, fun _ => hA⟩
  | true =>
    cases hn : W.named with
    | none =>
      rw [hn] at hnamed
      simp only [hnamed, Bool.false_eq_true, if_false]
      exact ⟨fun _ => rfl, fun _ => hA⟩
    | some a =>
      rw [hn] at hnamed
      simp only [hnamed, open_, alloc]
      constructor
      · exact fun h => absurd h (by simp)
      · exact fun h => absurd h (lowest_ne _)

theorem spec_deleted (hfail : W.named ≠ none → ∀ w, E .abort w) :
    Triple Others (At W K) (do
      let fd ← shm_open ok false "test"
      assert (fd = -1)) (fun _ w => At W K w) E := by
  refine Triple.bind spec_reopen fun fd => Triple.fact fun hfd => ?_
  exact spec_assert (fun h _ hw => hw h) fun h w _ => hfail (fun hn => h (hfd hn)) w

/-- The tables after the two descriptors came and went. -/
theorem file_after (t : FdTable (File F)) (f f' : File F) (i : Nat) :
    let t' := (t.put (some f) t.lowest).put none t.lowest
    ((t'.put (some f') t'.lowest).put none t'.lowest).file i = t.file i := by
  intro t'
  have ht : ∀ (t : FdTable (File F)) f i, ((t.put (some f) t.lowest).put none t.lowest).file i = t.file i := by
    intro t f i
    rw [file_put, file_put]
    split
    · next h => rw [h, file_lowest]
    · rfl
  exact (ht t' f' i).trans (ht t f i)

theorem maps_after {maps : Nat → Option Mapping} {page1 page2 : Nat} (h1 : maps page1 = none)
    (h2 : maps page2 = none) (h12 : page1 ≠ page2) (m m' : Option Mapping) :
    Function.update (Function.update (Function.update (Function.update maps page1 m) page2 m') page1 none)
      page2 none = maps := by
  funext x
  by_cases hx2 : x = page2
  · simp [hx2, h2]
  · by_cases hx1 : x = page1
    · simp [hx1, h1, h12]
    · simp [hx1, hx2]

/-- What the program owns in the middle: the first object is mapped, and has its name or not. -/
def Own.between (W : Own F) (o : Outcome) (a : Nat) (named : Option Nat) : Own F where
  pagesize := W.pagesize
  named := named
  fds := (W.fds.put (some (.shm a)) W.fds.lowest).put none W.fds.lowest
  maps := Function.update W.maps o.page1 (some ⟨a, 0⟩)
  out := W.out

theorem reaches_between {o : Outcome} {a x : Nat} (ha : W.named = some a ∨ W.named = none)
    (h1 : W.maps o.page1 = none) (hx : W.Reaches x) (named : Option Nat) : (W.between o a named).Reaches x := by
  rcases hx with h | ⟨i, h⟩ | ⟨page, m, h, hm⟩
  · refine .inr (.inr ⟨o.page1, ⟨a, 0⟩, Function.update_self .., ?_⟩)
    rcases ha with e | e <;> rw [e] at h
    · exact Option.some.inj h
    · cases h
  · refine .inr (.inl ⟨i, ?_⟩)
    have hi : i ≠ W.fds.lowest := by
      rintro rfl
      rw [file_lowest] at h
      cases h
    simpa [Own.between, hi] using h
  · have hpage : page ≠ o.page1 := by
      rintro rfl
      rw [h1] at h
      cases h
    exact .inr (.inr ⟨page, m, (Function.update_of_ne hpage ..).trans h, hm⟩)

/-- The end of the program, from the middle on. -/
theorem done_of_between {o : Outcome} {argc a b : Nat} {named : Option Nat} {w₀ : World F}
    (ha : w₀.own.named = some a ∨ w₀.own.named = none) (hnamed : named = none ∨ named = some a)
    (h1 : w₀.maps o.page1 = none) (h2 : w₀.maps o.page2 = none)
    (h12 : o.page1 ≠ o.page2) (hargc : 1 < argc ↔ ¬ named ≠ none)
    (hb : (w₀.own.between o a named).named = some b ∨
      (w₀.own.between o a named).named = none ∧ ¬ (w₀.own.between o a named).Reaches b)
    (hA : At ((w₀.own.between o a named).after o (if named ≠ none then "abcdef" else "123456") b)
      [(b, Text "abcdef")] w) : Done o argc w₀ w := by
  have hown := hA.own
  refine ⟨fun i => ?_, ?_, ?_, b, congrArg Own.named hown, (hA.known _ List.mem_cons_self).2, ?_⟩
  · rw [show w.fds = _ from congrArg Own.fds hown]
    exact file_after w₀.fds (.shm a) (.shm b) i
  · rw [show w.maps = _ from congrArg Own.maps hown]
    exact maps_after h1 h2 h12 _ _
  · rw [show w.out = _ from congrArg Own.out hown]
    by_cases hn : named = none
    · simp [Own.after, Own.between, World.own, hargc, hn]
    · simp [Own.after, Own.between, World.own, hargc, hn]
  · by_cases hn : named = none
    · rw [if_pos (hargc.2 (not_not.2 hn))]
      rcases hb with h | h
      · cases hn.symm.trans h
      · exact fun hr => h.2 (reaches_between ha h1 hr named)
    · rw [if_neg fun h => hargc.1 h hn]
      intro x hx
      have hab : a = b := by
        have hna := hnamed.resolve_left hn
        rcases hb with h | h
        · exact Option.some.inj (hna.symm.trans h)
        · exact absurd h.1 hn
      rcases ha with h | h
      · exact (Option.some.inj (hx.symm.trans h)).trans hab
      · cases hx.symm.trans h

theorem second_spec {o : Outcome} {argc a : Nat} {named : Option Nat} {w₀ : World F}
    (ha : w₀.own.named = some a ∨ w₀.own.named = none) (hnamed : named = none ∨ named = some a)
    (hps : 4000 ≤ w₀.pagesize) (h1 : w₀.maps o.page1 = none) (h2 : w₀.maps o.page2 = none)
    (h12 : o.page1 ≠ o.page2) (hagain : Again o argc named ↔ Succeeds o argc) :
    Triple Others (At (w₀.own.between o a named) [(a, Text "123456")])
      (same_name o argc (some (o.page1 * w₀.pagesize)) 4000)
      (fun _ w => Succeeds o argc ∧ Done o argc w₀ w) fun _ _ => ¬ Succeeds o argc := by
  have hspec := same_name_spec (W := w₀.own.between o a named) o argc hnamed hps h12 (Function.update_self ..)
    ((Function.update_of_ne h12.symm ..).trans h2)
  refine hspec.conseq (fun _ h => h) (fun _ w hw => ?_) fun _ _ h hs => h (hagain.2 hs)
  obtain ⟨hag, b, hb, hA⟩ := hw
  exact ⟨hagain.1 hag, done_of_between ha hnamed h1 h2 h12 hag.2 hb hA⟩

theorem main_spec (o : Outcome) (argc : Nat) {w₀ : World F} (hps : 4000 ≤ w₀.pagesize)
    (h1 : w₀.maps o.page1 = none) (h2 : w₀.maps o.page2 = none) (h12 : o.page1 ≠ o.page2) :
    Triple Others (At w₀.own []) (main o argc) (fun _ w => Succeeds o argc ∧ Done o argc w₀ w)
      fun _ _ => ¬ Succeeds o argc := by
  unfold main
  refine Triple.bind spec_shm_open fun fd => ?_
  refine Triple.bind (spec_checked (lowest_ne _) fun h _ hc => absurd hc.1.1 (by simp [h])) fun _ => ?_
  refine Triple.fact fun hf => Triple.of_exists fun a => Triple.fact fun ha => ?_
  obtain ⟨hopen, rfl⟩ := hf
  have hlook : (w₀.own.opened a).fds.look (w₀.own.fds.lowest : Int) = some (.shm a) := look_put_lowest ..
  refine Triple.bind (spec_ftruncate 4000 hlook) fun r => ?_
  refine Triple.bind (spec_checked (by decide) fun h _ hc => absurd hc.1.2.1 (by simp [h])) fun _ => ?_
  refine Triple.fact fun htr => ?_
  refine Triple.bind (spec_fstat hlook List.mem_cons_self) fun st => ?_
  refine Triple.bind (spec_checked (by decide) fun h _ hc => absurd hc.1.2.2.1 (by simp [h])) fun _ => ?_
  refine Triple.fact fun hst => Triple.fact fun hsize => ?_
  refine Triple.bind (Q := fun _ => At (w₀.own.opened a) _) (spec_assert (fun _ _ hw => hw) fun h => absurd hsize h)
    fun _ => ?_
  rw [hsize]
  refine Triple.bind (spec_mmap (by decide) hps hlook h1) fun p => ?_
  refine Triple.or (Triple.fact fun hmm => ?_) (Triple.fact fun hmm => ?_)
  rotate_left
  · obtain ⟨hmap, rfl⟩ := hmm
    refine (spec_strcpy_none (fun _ _ _ h => h) fun _ hc => absurd hc.1.2.2.2 (by simp [hmap])).bind
      (Q := fun _ _ => False) fun _ => ?_
    exact fun _ _ _ h => h.elim
  obtain ⟨hmap, rfl⟩ := hmm
  have hfirst : o.open1 = true ∧ o.truncate1 = true ∧ o.stat = true ∧ o.mmap1 = true := ⟨hopen, htr.1, hst.1, hmap⟩
  have hm1 : ((w₀.own.opened a).mapped o.page1 a).maps o.page1 = some ⟨a, 0⟩ := Function.update_self ..
  refine Triple.bind (spec_strcpy hps hm1 List.mem_cons_self (by decide)) fun _ => ?_
  refine Triple.weaken ?_ fun w (hA : At _ _ w) => hA.weaken [(a, Text "123456")]
    fun f hf => ⟨f, by simp_all, rfl, fun _ h => h⟩
  -- the first object stays mapped, whatever becomes of its name and of the descriptor
  have hreach : ∀ {named : Option Nat} {fds : FdTable (File F)} {out : List (Nat × List UInt8)},
      ∀ f ∈ [(a, Text "123456")],
        Own.Reaches ⟨w₀.pagesize, named, fds, Function.update w₀.maps o.page1 (some ⟨a, 0⟩), out⟩ f.1 := by
    intro _ _ _ f hf
    rw [List.mem_singleton.1 hf]
    exact .inr (.inr ⟨o.page1, ⟨a, 0⟩, Function.update_self .., rfl⟩)
  have ha' := ha.imp_right And.left
  by_cases hargc : argc > 1
  · simp only [if_pos hargc]
    refine Triple.bind (spec_shm_unlink rfl hreach) fun _ =>
      Triple.or (Triple.fact fun hu => ?_) (Triple.fact fun hu => ?_)
    · refine Triple.bind (spec_close hlook hreach) fun _ => Triple.bind (spec_deleted fun h => absurd rfl h) fun _ => ?_
      refine second_spec ha' (.inl rfl) hps h1 h2 h12 ?_
      simp [Again, Succeeds, hfirst, hu, hargc]
    · have hno : ¬ Succeeds o argc := fun h => absurd (h.2.1 hargc) (by simp [hu])
      refine Triple.bind (spec_close hlook hreach) fun _ => Triple.bind (spec_deleted fun _ _ => hno) fun _ => ?_
      refine second_spec ha' (.inr rfl) hps h1 h2 h12 ?_
      exact iff_of_false (fun h => h.2.1 hargc (show some a ≠ none from nofun)) hno
  · simp only [if_neg hargc]
    refine Triple.bind (Q := fun _ => At ((w₀.own.opened a).mapped o.page1 a) [(a, Text "123456")])
      (Triple.pure fun _ h => h) fun _ => Triple.bind (spec_close hlook hreach) fun _ => ?_
    refine Triple.bind (Q := fun _ => At (w₀.own.between o a (some a)) [(a, Text "123456")])
      (Triple.pure fun _ h => h) fun _ => ?_
    refine second_spec ha' (.inr rfl) hps h1 h2 h12 ?_
    simp [Again, Succeeds, hfirst, hargc]

/-- Unlinking takes away the name only. From any world, among any others that keep off
the name and off what the program can reach, the program ends normally exactly when
the calls in `Succeeds` are successful. It then leaves its descriptors and mappings as
they were, if a page has room for the object. Without an argument both mappings are of
one object; with an argument the first one still has its text, and the name is on an
object that was not there. -/
theorem posix_shm_runs (o : Outcome) (argc : Nat) (w : World F) (hw : ∀ x, w.own.Reaches x → x < w.next)
    (hps : 4000 ≤ w.pagesize) (h1 : w.maps o.page1 = none) (h2 : w.maps o.page2 = none) (h12 : o.page1 ≠ o.page2)
    (others : Nat → World F → World F) (ho : ∀ k w, Others w (others k w)) :
    let r := (main o argc).run others (w, 0)
    (r.1 = .ok () ↔ Succeeds o argc) ∧ (r.1 = .ok () → Done o argc w r.2.1) := by
  intro r
  have hpost : Post _ _ r.2.1 r.1 := main_spec o argc hps h1 h2 h12 others ho (w, 0) ⟨rfl, hw, by simp⟩
  cases hr : r.1 with
  | ok u =>
    rw [hr] at hpost
    exact ⟨⟨fun _ => hpost.1, fun _ => rfl⟩, fun _ => hpost.2⟩
  | error e =>
    rw [hr] at hpost
    exact ⟨⟨nofun, fun h => absurd h hpost⟩, nofun⟩

/-- With an argument, over an old object with the name, while another name comes and goes. -/
theorem posix_shm_runs_unlink :
    let o : Outcome := ⟨true, true, true, true, true, true, true, true, true, 0x7f1234560, 0x7f123455f⟩
    let w : World Unit := ⟨4096, fun s => if s = "test" then some 0 else none, 1, fun _ => ⟨8, fun _ => 1⟩,
      [some (.inherited ())], fun _ => none, []⟩
    let others := fun (k : Nat) (w : World Unit) =>
      { w with names := Function.update w.names "other" (if k % 2 = 0 then some w.next else none), next := w.next + 1 }
    (main o 2).run others (w, 0) |>.2.1.out =
      [(0x7f1234560000, bytes "123456"), (0x7f123455f000, bytes "abcdef")] := by
  intro o w others
  have hw : ∀ x, w.own.Reaches x → x < w.next := by
    rintro x (h | ⟨i, h⟩ | ⟨page, m, h, -⟩)
    · cases h
      decide
    · rcases i with _ | i <;> simp [w, World.own, file] at h
    · cases h
  have hruns := posix_shm_runs o 2 w hw (by decide) rfl rfl (by decide) others
    fun k w => ⟨by simp [others, World.own], Nat.le_succ _, fun _ _ => rfl⟩
  have hout := (hruns.2 (hruns.1.2 (by simp [Succeeds, o]))).out
  rw [show o.page1 * w.pagesize = 0x7f1234560 * 4096 from rfl,
    show o.page2 * w.pagesize = 0x7f123455f * 4096 from rfl] at hout
  simpa [w] using hout

end SiteCode.PosixShm
