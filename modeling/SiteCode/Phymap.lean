import Mathlib.Data.Set.Lattice
import Mathlib.Order.CompletePartialOrder
import SiteCode.Lib.Paging
/-!
# `phymap.c`: physical memory through `/dev/mem`

`off_t`, `size_t` and pointers are words of 64 bits. The code converts between
signed and unsigned ones, which keeps the bits, and it divides unsigned ones: one
operand is a `size_t`. A run is the list of its system calls with their outcomes.
-/

namespace SiteCode.Phymap

open Lib

abbrev off_t := BitVec 64
abbrev size_t := BitVec 64
abbrev Ptr := BitVec 64

def NULL : Ptr := 0

/-- `(void *) -1` -/
def MAP_FAILED : Ptr := BitVec.allOnes 64

inductive Flag where
  | O_RDWR
  | O_SYNC
  | PROT_READ
  | PROT_WRITE
  | MAP_PRIVATE
  deriving DecidableEq, Repr

/-- A call of the C library with what it returned. -/
inductive Call where
  | open_ (path : String) (flags : List Flag) (fd : Int)
  | perror (s : String)
  | mmap (addr : Ptr) (length : size_t) (prot flags : List Flag) (fd : Int) (offset : off_t) (mapped : Option Ptr)
  | close (fd : Int)
  | munmap (addr : Ptr) (length : size_t)
  deriving DecidableEq, Repr

/-- What the system answers in a run: the page size, the descriptor or -1, the
start of the new mapping if there is one, and what `munmap` returns. -/
structure Sys where
  pagesize : size_t
  open_ : Int
  mmap : Option Ptr
  munmap : Int

/-! ## The program -/

def phymap (sys : Sys) (phyaddr : off_t) (size : size_t) : Ptr × List Call := Id.run do
  let offset := phyaddr
  let length := size
  let pagesize := sys.pagesize
  let page_base := offset / pagesize * pagesize
  let page_offset := offset - page_base
  let fd := sys.open_
  let mut calls := [Call.open_ "/dev/mem" [.O_RDWR, .O_SYNC] fd]
  if fd < 0 then
    calls := calls ++ [.perror "Can't open memory"]
    return (NULL, calls)
  let mut mem := sys.mmap.getD MAP_FAILED
  calls := calls ++ [.mmap NULL (page_offset + length) [.PROT_READ, .PROT_WRITE] [.MAP_PRIVATE] fd page_base sys.mmap]
  if mem = MAP_FAILED then
    calls := calls ++ [.perror "Can't map memory"]
    -- goto end
  else
    mem := mem + page_offset
  calls := calls ++ [.close fd]
  return (mem, calls)

def phyunmap (sys : Sys) (virtaddr : Ptr) (size : size_t) : Int × List Call :=
  let offset := virtaddr
  let length := size
  let pagesize := sys.pagesize
  let page_base := offset / pagesize * pagesize
  let page_offset := offset - page_base
  (sys.munmap, [.munmap page_base (page_offset + length)])

/-! ## What the calls do -/

/-- The descriptors that are open after a call. -/
def Call.fds (fds : List Int) : Call → List Int
  | open_ _ _ fd => if 0 ≤ fd then fd :: fds else fds
  | close fd => fds.erase fd
  | _ => fds

/-- The bytes at `start`, `start + 1`, ... stand for those at `offset`, `offset + 1`, ... of `/dev/mem`. -/
structure Mapping where
  start : Ptr
  length : size_t
  offset : off_t
  deriving DecidableEq, Repr

/-- The physical address behind an address, if the mapping has it. -/
def Mapping.phys (map : Mapping) (a : Ptr) : Option off_t :=
  if a - map.start < map.length then some (map.offset + (a - map.start)) else none

/-- The mapping a call makes. -/
def Call.mapping : Call → Option Mapping
  | mmap _ length _ _ _ offset (some start) => some ⟨start, length, offset⟩
  | _ => none

/-- The physical address behind an address, by the mappings that the calls made. -/
def translate (calls : List Call) (a : Ptr) : Option off_t := (calls.filterMap Call.mapping).findSome? (·.phys a)

/-- The output of `main`. -/
inductive Out where
  | newline
  | byte (b : BitVec 8)
  deriving DecidableEq, Repr

/-- One turn of the loop of `main`; a read that fails is a fault. -/
def dump_body (read : Ptr → Option (BitVec 8)) (mem : Ptr) (out : List Out) (i : Nat) : Option (List Out) := do
  let out := if i % 16 = 0 then out ++ [.newline] else out
  let b ← read (mem + BitVec.ofNat 64 i)
  return out ++ [.byte b]

def dump (read : Ptr → Option (BitVec 8)) (mem : Ptr) (len : size_t) : Option (List Out) :=
  (List.range len.toNat).foldlM (dump_body read mem) []

/-- `main` with the address and the length that it parsed, over the bytes of physical memory. -/
def main (sys : Sys) (memory : off_t → BitVec 8) (phy : off_t) (len : size_t) : Option (List Out × List Call) := do
  let (mem, calls) := phymap sys phy len
  let out ← dump (fun a => (translate calls a).map memory) mem len
  return (out, calls ++ (phyunmap sys mem len).2)

/-! ## What `phymap` returns -/

variable {sys : Sys} {phyaddr : off_t} {size : size_t} {start : Ptr} {k : Nat}

/-- The page of an address and the offset in it. -/
def page_base (sys : Sys) (x : off_t) : off_t := x / sys.pagesize * sys.pagesize
def page_offset (sys : Sys) (x : off_t) : off_t := x - page_base sys x

theorem phymap_open_failed (hfd : sys.open_ < 0) : phymap sys phyaddr size =
    (NULL, [.open_ "/dev/mem" [.O_RDWR, .O_SYNC] sys.open_, .perror "Can't open memory"]) := by
  simp [phymap, hfd]

/-- Once the descriptor is open, there is one way through the code, with a message on it. -/
theorem phymap_opened (hfd : ¬ sys.open_ < 0) : phymap sys phyaddr size =
    let mem := sys.mmap.getD MAP_FAILED
    (if mem = MAP_FAILED then mem else mem + page_offset sys phyaddr,
      [.open_ "/dev/mem" [.O_RDWR, .O_SYNC] sys.open_,
        .mmap NULL (page_offset sys phyaddr + size) [.PROT_READ, .PROT_WRITE] [.MAP_PRIVATE] sys.open_
          (page_base sys phyaddr) sys.mmap] ++
      (if mem = MAP_FAILED then [.perror "Can't map memory"] else []) ++ [.close sys.open_]) := by
  by_cases hm : sys.mmap.getD MAP_FAILED = MAP_FAILED
  · simp [phymap, hfd, hm, page_base, page_offset]
  · simp [phymap, hfd, hm, page_base, page_offset]

/-- Every way out closes what was opened. -/
theorem phymap_fds (sys : Sys) (phyaddr : off_t) (size : size_t) (fds : List Int) :
    (phymap sys phyaddr size).2.foldl Call.fds fds = fds := by
  by_cases hfd : sys.open_ < 0
  · simp [phymap_open_failed hfd, Call.fds, hfd]
  · rw [phymap_opened hfd]
    by_cases hm : sys.mmap.getD MAP_FAILED = MAP_FAILED
    · simp [hm, Call.fds, Int.not_lt.1 hfd]
    · simp [hm, Call.fds, Int.not_lt.1 hfd]

theorem translate_unmapped (hm : sys.mmap = none) (a : Ptr) : translate (phymap sys phyaddr size).2 a = none := by
  by_cases hfd : sys.open_ < 0
  · simp [phymap_open_failed hfd, translate, Call.mapping]
  · simp [phymap_opened hfd, hm, translate, Call.mapping]

theorem mappings_eq (hfd : ¬ sys.open_ < 0) (hm : sys.mmap = some start) :
    (phymap sys phyaddr size).2.filterMap Call.mapping =
      [⟨start, page_offset sys phyaddr + size, page_base sys phyaddr⟩] := by
  rw [phymap_opened hfd]
  by_cases hs : start = MAP_FAILED
  · simp [hm, hs, Call.mapping, List.filterMap_cons]
  · simp [hm, hs, Call.mapping, List.filterMap_cons]

theorem translate_mapped (hfd : ¬ sys.open_ < 0) (hm : sys.mmap = some start) (a : Ptr) :
    translate (phymap sys phyaddr size).2 a =
      Mapping.phys ⟨start, page_offset sys phyaddr + size, page_base sys phyaddr⟩ a := by
  simp [translate, mappings_eq hfd hm]

section
variable (hps : sys.pagesize.toNat = 2 ^ k)
include hps

theorem pagesize_dvd : sys.pagesize.toNat ∣ 2 ^ 64 := by
  have hlt : 2 ^ k < 2 ^ 64 := hps ▸ sys.pagesize.isLt
  rw [hps]
  exact pow_dvd_pow 2 ((Nat.pow_lt_pow_iff_right Nat.one_lt_two).1 hlt).le

theorem page_offset_lt (x : off_t) : (page_offset sys x).toNat < sys.pagesize.toNat := by
  rw [page_offset, page_base, toNat_page_offset]
  exact Nat.mod_lt _ (by rw [hps]; exact Nat.two_pow_pos k)

/-- A mapping at the very address that stands for failure is there only for pages of one byte. -/
theorem page_offset_map_failed (ha : sys.pagesize.toNat ∣ MAP_FAILED.toNat) (x : off_t) : page_offset sys x = 0 := by
  have hk : k = 0 := by
    by_contra hk
    have h2 : 2 ∣ MAP_FAILED.toNat := (dvd_pow_self 2 hk).trans (hps ▸ ha)
    exact absurd h2 (by decide)
  have hlt := page_offset_lt hps x
  rw [hps, hk] at hlt
  exact BitVec.eq_of_toNat_eq (by simpa using hlt)

theorem phymap_ret (phyaddr : off_t) (size : size_t) (hfd : ¬ sys.open_ < 0) (hm : sys.mmap = some start)
    (ha : sys.pagesize.toNat ∣ start.toNat) :
    (phymap sys phyaddr size).1 = start + page_offset sys phyaddr := by
  rw [phymap_opened hfd]
  by_cases hs : start = MAP_FAILED
  · subst hs
    simp [hm, page_offset_map_failed hps ha]
  · simp [hm, hs]

end

/-! ## A pointer for the whole range -/

theorem dump_isSome_iff (read : Ptr → Option (BitVec 8)) (mem : Ptr) (len : size_t) :
    (dump read mem len).isSome ↔ ∀ i < len.toNat, (read (mem + BitVec.ofNat 64 i)).isSome := by
  unfold dump
  induction len.toNat with
  | zero => simp
  | succ n ih =>
    rw [List.range_succ, List.foldlM_append, Nat.forall_lt_succ_right, ← ih]
    cases (List.range n).foldlM (dump_body read mem) [] with
    | none => simp
    | some out => cases h : read (mem + BitVec.ofNat 64 n) <;> simp [dump_body, h]

theorem main_isSome_iff (sys : Sys) (phyaddr : off_t) (size : size_t) (memory : off_t → BitVec 8) :
    (main sys memory phyaddr size).isSome ↔
      let r := phymap sys phyaddr size
      ∀ i < size.toNat, (translate r.2 (r.1 + BitVec.ofNat 64 i)).isSome := by
  have hmain : main sys memory phyaddr size =
      let r := phymap sys phyaddr size
      (dump (fun a => (translate r.2 a).map memory) r.1 size).map fun out => (out, r.2 ++ (phyunmap sys r.1 size).2) :=
    Option.map_eq_bind.symm
  rw [hmain, Option.isSome_map, dump_isSome_iff]
  simp only [Option.isSome_map]

/-- What `phymap` is for: it closes what it opened, and a pointer that is not NULL
has the whole range behind it, so that `main` can read all of it. -/
def Good (sys : Sys) (phyaddr : off_t) (size : size_t) : Prop :=
  let (p, calls) := phymap sys phyaddr size
  calls.foldl Call.fds [] = [] ∧
    (p = NULL ∨ ∀ i < size.toNat, translate calls (p + BitVec.ofNat 64 i) = some (phyaddr + BitVec.ofNat 64 i)) ∧
    (p ≠ NULL → ∀ memory, (main sys memory phyaddr size).isSome)

/-- Whether the mapping has the whole range comes down to its length not wrapping around. -/
theorem phys_range_iff (hs : size ≠ 0) :
    (∀ i < size.toNat, Mapping.phys ⟨start, page_offset sys phyaddr + size, page_base sys phyaddr⟩
      (start + page_offset sys phyaddr + BitVec.ofNat 64 i) = some (phyaddr + BitVec.ofNat 64 i)) ↔
    phyaddr.toNat % sys.pagesize.toNat + size.toNat < 2 ^ 64 := by
  have hpo : (page_offset sys phyaddr).toNat = phyaddr.toNat % sys.pagesize.toNat := toNat_page_offset _ _
  have hback : ∀ i, start + page_offset sys phyaddr + BitVec.ofNat 64 i - start =
      page_offset sys phyaddr + BitVec.ofNat 64 i := by
    intro i
    rw [BitVec.add_assoc, BitVec.add_comm, BitVec.add_sub_cancel]
  have hphys : ∀ i, page_base sys phyaddr + (page_offset sys phyaddr + BitVec.ofNat 64 i) =
      phyaddr + BitVec.ofNat 64 i := by
    intro i
    rw [← BitVec.add_assoc]
    exact congrArg (· + _) (page_base_add_offset phyaddr sys.pagesize)
  have hsize : 0 < size.toNat := Nat.pos_of_ne_zero fun h => hs (BitVec.eq_of_toNat_eq (by simpa using h))
  have hlt := size.isLt
  have hpolt := (page_offset sys phyaddr).isLt
  rw [← hpo]
  constructor
  · intro h
    by_contra hwrap
    -- the wrapped length ends in front of the first byte
    have h0 := h 0 hsize
    rw [Mapping.phys, hback, if_neg] at h0
    · cases h0
    · rw [BitVec.lt_def, BitVec.toNat_add, BitVec.toNat_add, BitVec.toNat_ofNat]
      omega
  · intro hsum i hi
    rw [Mapping.phys, hback, hphys, if_pos]
    rw [BitVec.lt_def, BitVec.toNat_add, BitVec.toNat_add, BitVec.toNat_ofNat]
    omega

/-- `phymap` closes its descriptor, and what it returns is NULL or has all `size`
bytes behind it, exactly when `/dev/mem` cannot be opened, or no byte is asked for, or
the mapping is made and the offset in the page plus `size` does not wrap around. -/
theorem phymap_good_iff (sys : Sys) (phyaddr : off_t) (size : size_t) (k : Nat) (hps : sys.pagesize.toNat = 2 ^ k)
    (ha : ∀ start, sys.mmap = some start → sys.pagesize.toNat ∣ start.toNat) :
    Good sys phyaddr size ↔
      sys.open_ < 0 ∨ size = 0 ∨
        (sys.mmap.isSome ∧ phyaddr.toNat % sys.pagesize.toNat + size.toNat < 2 ^ 64) := by
  have hfds := phymap_fds sys phyaddr size []
  have hmain := main_isSome_iff sys phyaddr size
  unfold Good
  simp only [hfds, hmain, true_and, forall_const]
  by_cases hfd : sys.open_ < 0
  · simp [hfd, phymap_open_failed hfd]
  by_cases hs : size = 0
  · simp [hs]
  simp only [hfd, hs, false_or]
  have h0 : 0 < size.toNat := Nat.pos_of_ne_zero fun h => hs (BitVec.eq_of_toNat_eq (by simpa using h))
  cases hm : sys.mmap with
  | none =>
    -- the pointer of the failure is returned, and nothing is behind it
    have hret : (phymap sys phyaddr size).1 ≠ NULL := by simp [phymap_opened hfd, hm, MAP_FAILED, NULL]
    simp only [translate_unmapped hm, Option.isSome_none, Bool.false_eq_true, false_and, iff_false]
    exact fun h => h.2 hret 0 h0
  | some start =>
    have hret := phymap_ret hps phyaddr size hfd hm (ha start hm)
    simp only [translate_mapped hfd hm, hret, Option.isSome_some, true_and]
    rw [phys_range_iff hs]
    constructor
    · rintro ⟨hnull | hsum, -⟩
      · -- at NULL the offset in the page is 0
        have hadd := toNat_add_page_offset (pagesize_dvd hps) (ha start hm) (page_offset_lt hps phyaddr)
        have hpo : (page_offset sys phyaddr).toNat = phyaddr.toNat % sys.pagesize.toNat := toNat_page_offset _ _
        have hlt := size.isLt
        have hzero : NULL.toNat = 0 := rfl
        rw [hnull, hzero] at hadd
        omega
      · exact hsum
    · intro hsum
      refine ⟨.inr hsum, fun _ i hi => ?_⟩
      rw [(phys_range_iff hs).2 hsum i hi]
      rfl

/-- 256 bytes from the middle of a page. -/
theorem phymap_good_some : Good ⟨4096, 3, some 0x7f0000000000, 0⟩ 0x80000010 256 :=
  (phymap_good_iff ⟨4096, 3, some 0x7f0000000000, 0⟩ 0x80000010 256 12 rfl (by rintro start ⟨⟩; decide)).2
    (.inr (.inr ⟨rfl, by decide⟩))

/-- When `mmap` fails, the pointer of the failure is returned; and a length that
wraps around makes a mapping without the first byte. -/
theorem phymap_not_good : ¬ Good ⟨4096, 3, none, 0⟩ 0x1000 16 ∧
    ¬ Good ⟨4096, 3, some 0x7f0000000000, 0⟩ 0x1001 (BitVec.allOnes 64) := by
  constructor
  · rintro ⟨-, hnull | hrange, -⟩
    · exact absurd hnull (by decide)
    · exact absurd (hrange 0 (by decide)) (by decide)
  · rintro ⟨-, hnull | hrange, -⟩
    · exact absurd hnull (by decide)
    · exact absurd (hrange 0 (by decide)) (by decide)

/-! ## Undoing a mapping -/

/-- The pages with a byte among the `length` bytes from `a` on. -/
def pages (pagesize : size_t) (a : Ptr) (length : size_t) : Set Nat :=
  {q | ∃ i < length.toNat, (a + BitVec.ofNat 64 i).toNat / pagesize.toNat = q}

/-- The pages that are mapped after a call. -/
def Call.mapped (pagesize : size_t) (M : Set Nat) : Call → Set Nat
  | mmap _ length _ _ _ _ (some start) => M ∪ pages pagesize start length
  | munmap addr length => M \ pages pagesize addr length
  | _ => M

/-- `phyunmap` undoes `phymap`. The one call of `phyunmap` has the start and the
length of the mapping that `phymap` made, so the mapped pages are those of before. -/
theorem phyunmap_phymap (sys : Sys) (phyaddr : off_t) (size : size_t) (k : Nat) (hps : sys.pagesize.toNat = 2 ^ k)
    (hfd : 0 ≤ sys.open_) (start : Ptr) (hm : sys.mmap = some start) (ha : sys.pagesize.toNat ∣ start.toNat) :
    let r := phymap sys phyaddr size
    ∃ length offset, r.2.filterMap Call.mapping = [⟨start, length, offset⟩] ∧
      phyunmap sys r.1 size = (sys.munmap, [.munmap start length]) ∧
      ∀ M, Disjoint M (pages sys.pagesize start length) →
        (r.2 ++ (phyunmap sys r.1 size).2).foldl (Call.mapped sys.pagesize) M = M := by
  intro r
  have hret := phymap_ret hps phyaddr size (Int.not_lt.2 hfd) hm ha
  have hbase := page_base_add (pagesize_dvd hps) ha (page_offset_lt hps phyaddr)
  have hoff := page_offset_add (pagesize_dvd hps) ha (page_offset_lt hps phyaddr)
  have hunmap : phyunmap sys r.1 size = (sys.munmap, [.munmap start (page_offset sys phyaddr + size)]) := by
    rw [hret, phyunmap, hoff, hbase]
  refine ⟨page_offset sys phyaddr + size, page_base sys phyaddr, mappings_eq (Int.not_lt.2 hfd) hm, hunmap,
    fun M hM => ?_⟩
  have hmapped : r.2.foldl (Call.mapped sys.pagesize) M =
      M ∪ pages sys.pagesize start (page_offset sys phyaddr + size) := by
    simp only [r]
    rw [phymap_opened (Int.not_lt.2 hfd)]
    by_cases hs : start = MAP_FAILED
    · simp [hm, hs, Call.mapped]
    · simp [hm, hs, Call.mapped]
  rw [List.foldl_append, hmapped, hunmap]
  simp only [List.foldl_cons, List.foldl_nil, Call.mapped, Set.union_sdiff_right]
  exact hM.sdiff_eq_left

/-- 256 bytes from the middle of a page, and back. -/
theorem phyunmap_phymap_some : phyunmap ⟨4096, 3, some 0x7f0000000000, 0⟩
    (phymap ⟨4096, 3, some 0x7f0000000000, 0⟩ 0x80000010 256).1 256 = (0, [.munmap 0x7f0000000000 272]) := by
  obtain ⟨length, offset, h1, h2, -⟩ := phyunmap_phymap ⟨4096, 3, some 0x7f0000000000, 0⟩ 0x80000010 256 12 rfl
    (by decide) 0x7f0000000000 rfl (by decide)
  have hlen : length = 272 := by
    have := congrArg (List.map Mapping.length) h1
    exact (List.singleton_inj.1 this).symm
  rw [← hlen]
  exact h2

end SiteCode.Phymap
