import SiteCode.Lib.Overlay
import SiteCode.Phymap
/-!
# Several mappings at a time

A program may have any number of pointers from `phymap` and give them back in any order.
The address space is a partial function from addresses to physical ones; `mmap` and
`munmap` change it by whole pages. It is always the one at entry under the pages of the
pointers that are in use.
-/

namespace SiteCode.Phymap

open Lib

/-! ## The address space -/

/-- The pages that hold `length` bytes from `start` on cover the address. -/
def covers (ps : size_t) (start : Ptr) (length : size_t) (a : Ptr) : Bool := a / ps * ps - start < length

/-- The address space after a call. -/
def Call.space (ps : size_t) (vm : Ptr → Option off_t) : Call → Ptr → Option off_t
  | mmap _ length _ _ _ offset (some start) => fun a =>
    if covers ps start length a then some (offset + (a - start)) else vm a
  | munmap addr length => fun a => if covers ps addr length a then none else vm a
  | _ => vm

/-- A pointer in use, with the arguments of its `phymap`. -/
structure Live where
  ptr : Ptr
  size : size_t
  phyaddr : off_t
  deriving DecidableEq, Repr

namespace Live

def start (ps : size_t) (e : Live) : Ptr := e.ptr / ps * ps

def length (ps : size_t) (e : Live) : size_t := e.ptr - e.start ps + e.size

def covers (ps : size_t) (e : Live) (a : Ptr) : Bool := Phymap.covers ps (e.start ps) (e.length ps) a

/-- The physical address behind an address. -/
def phys (ps : size_t) (e : Live) (a : Ptr) : off_t := e.phyaddr / ps * ps + (a - e.start ps)

end Live

structure State where
  vm : Ptr → Option off_t
  fds : List Int
  live : List Live

inductive Step where
  | phymap (sys : Sys) (phyaddr : off_t) (size : size_t)
  | phyunmap (sys : Sys) (e : Live)

namespace Step

/-- When a step is allowed: a pointer is given back while it is in use, with its size;
the offset in a page and the size do not wrap around. The system maps free pages only. -/
def ok (ps : size_t) (st : State) : Step → Prop
  | phymap sys phyaddr size => sys.pagesize = ps ∧ phyaddr.toNat % ps.toNat + size.toNat < 2 ^ 64 ∧
      ∀ start, sys.mmap = some start → ps.toNat ∣ start.toNat ∧
        ∀ a, Phymap.covers ps start (page_offset sys phyaddr + size) a → st.vm a = none
  | phyunmap sys e => sys.pagesize = ps ∧ e ∈ st.live

def exec (st : State) : Step → State
  | phymap sys phyaddr size =>
    let (mem, calls) := Phymap.phymap sys phyaddr size
    { vm := calls.foldl (Call.space sys.pagesize) st.vm
      fds := calls.foldl Call.fds st.fds
      live := if sys.open_ < 0 ∨ sys.mmap = none then st.live else ⟨mem, size, phyaddr⟩ :: st.live }
  | phyunmap sys e =>
    let (r, calls) := Phymap.phyunmap sys e.ptr e.size
    if r = 0 then
      { st with vm := calls.foldl (Call.space sys.pagesize) st.vm, live := st.live.erase e }
    else
      st

end Step

def run (st : State) (steps : List Step) : State := steps.foldl Step.exec st

def Allowed (ps : size_t) (st : State) : List Step → Prop
  | [] => True
  | step :: steps => step.ok ps st ∧ Allowed ps (step.exec st) steps

/-! ## What the two functions do to it -/

variable {sys : Sys} {phyaddr : off_t} {size : size_t} {start : Ptr} {k : Nat} {vm vm₀ : Ptr → Option off_t}
  {fds fds₀ : List Int} {st : State} {e : Live} {ps : size_t}

theorem space_phymap_failed (h : sys.open_ < 0 ∨ sys.mmap = none) :
    (phymap sys phyaddr size).2.foldl (Call.space sys.pagesize) vm = vm := by
  by_cases hfd : sys.open_ < 0
  · simp [phymap_open_failed hfd, Call.space]
  · simp [phymap_opened hfd, h.resolve_left hfd, Call.space]

theorem space_phymap (hfd : ¬ sys.open_ < 0) (hm : sys.mmap = some start) :
    (phymap sys phyaddr size).2.foldl (Call.space sys.pagesize) vm = fun a =>
      if covers sys.pagesize start (page_offset sys phyaddr + size) a then
        some (page_base sys phyaddr + (a - start)) else vm a := by
  rw [phymap_opened hfd]
  by_cases hs : start = MAP_FAILED
  · simp [hm, hs, Call.space]
  · simp [hm, hs, Call.space]

theorem space_phyunmap (e : Live) : (phyunmap sys e.ptr e.size).2.foldl (Call.space sys.pagesize) vm = fun a =>
    if e.covers sys.pagesize a then none else vm a := rfl

/-- What is known of a pointer in use. -/
structure Fits (ps : size_t) (e : Live) : Prop where
  aligned : ps.toNat ∣ (e.start ps).toNat
  offset : e.ptr - e.start ps = e.phyaddr - e.phyaddr / ps * ps
  size : (e.ptr - e.start ps).toNat + e.size.toNat < 2 ^ 64

section
variable (hps : sys.pagesize.toNat = 2 ^ k)
include hps

/-- The pointer of `phymap` and its size have the start and the length of the mapping. -/
theorem live_phymap (phyaddr : off_t) (size : size_t) (hfd : ¬ sys.open_ < 0) (hm : sys.mmap = some start)
    (ha : sys.pagesize.toNat ∣ start.toNat) :
    let e : Live := ⟨(phymap sys phyaddr size).1, size, phyaddr⟩
    e.start sys.pagesize = start ∧ e.length sys.pagesize = page_offset sys phyaddr + size ∧
      e.ptr - e.start sys.pagesize = page_offset sys phyaddr := by
  intro e
  have hptr : e.ptr = start + page_offset sys phyaddr := phymap_ret hps phyaddr size hfd hm ha
  have hlt := page_offset_lt hps phyaddr
  have hstart : e.start sys.pagesize = start := by
    rw [Live.start, hptr]
    exact page_base_add (pagesize_dvd hps) ha hlt
  have hoff : e.ptr - e.start sys.pagesize = page_offset sys phyaddr := by
    rw [hstart, hptr, BitVec.add_comm, BitVec.add_sub_cancel]
  exact ⟨hstart, by rw [Live.length, hoff], hoff⟩

end

/-- A pointer that fits has its whole range in its pages. -/
theorem Fits.range (hfit : Fits ps e) (hdvd : ps.toNat ∣ 2 ^ 64) (hpos : 0 < ps.toNat) {i : Nat}
    (hi : i < e.size.toNat) :
    e.covers ps (e.ptr + BitVec.ofNat 64 i) ∧
      e.phys ps (e.ptr + BitVec.ofNat 64 i) = e.phyaddr + BitVec.ofNat 64 i := by
  have hback : e.ptr + BitVec.ofNat 64 i - e.start ps = (e.ptr - e.start ps) + BitVec.ofNat 64 i := by bv_omega
  constructor
  · have hle : ((e.ptr - e.start ps + BitVec.ofNat 64 i) / ps * ps).toNat ≤
        (e.ptr - e.start ps + BitVec.ofNat 64 i).toNat := by
      rw [toNat_page_base]
      exact Nat.div_mul_le_self _ _
    have hsize := hfit.size
    have hlt := e.size.isLt
    have hi' : i < 2 ^ 64 := hi.trans hlt
    rw [Live.covers, covers, page_base_sub hdvd hpos hfit.aligned, hback, decide_eq_true_eq, BitVec.lt_def, Live.length,
      BitVec.toNat_add _ e.size, Nat.mod_eq_of_lt hsize]
    rw [BitVec.toNat_add, BitVec.toNat_ofNat, Nat.mod_eq_of_lt hi', Nat.mod_eq_of_lt (by omega)] at hle
    omega
  · rw [Live.phys, hback, hfit.offset, ← BitVec.add_assoc, page_base_add_offset]

/-! ## Runs -/

/-- The address space and the descriptors are those at entry, under the pointers in use. -/
structure Keeps (ps : size_t) (vm₀ : Ptr → Option off_t) (fds₀ : List Int) (st : State) : Prop where
  fds : st.fds = fds₀
  vm : st.vm = overlay (Live.covers ps) (Live.phys ps) vm₀ st.live
  apart : Apart (Live.covers ps) st.live
  free : ∀ e ∈ st.live, ∀ a, e.covers ps a → vm₀ a = none
  fits : ∀ e ∈ st.live, Fits ps e

theorem Keeps.map (hK : Keeps ps vm₀ fds₀ st) (hps : ps.toNat = 2 ^ k) (hok : (Step.phymap sys phyaddr size).ok ps st) :
    Keeps ps vm₀ fds₀ ((Step.phymap sys phyaddr size).exec st) := by
  obtain ⟨rfl, hsize, hmmap⟩ := hok
  unfold Step.exec
  by_cases hfail : sys.open_ < 0 ∨ sys.mmap = none
  · simp only [phymap_fds, space_phymap_failed hfail, if_pos hfail]
    exact ⟨hK.fds, hK.vm, hK.apart, hK.free, hK.fits⟩
  rw [not_or] at hfail
  obtain ⟨start, hm⟩ := Option.ne_none_iff_exists'.1 hfail.2
  obtain ⟨ha, hfree⟩ := hmmap start hm
  obtain ⟨h1, h2, h3⟩ := live_phymap hps phyaddr size hfail.1 hm ha
  simp only [phymap_fds, space_phymap hfail.1 hm, if_neg (not_or.2 hfail)]
  -- the new pages are free, so they are in no other pages and were free at entry
  have hnew : ∀ a, Live.covers sys.pagesize ⟨(phymap sys phyaddr size).1, size, phyaddr⟩ a →
      (∀ e ∈ st.live, ¬ e.covers sys.pagesize a) ∧ vm₀ a = none := by
    intro a hcov
    rw [Live.covers, h1, h2] at hcov
    have hnone := hfree a hcov
    rw [hK.vm] at hnone
    have hnot := not_covered_of_overlay hnone
    rw [overlay_of_not_covered hnot] at hnone
    exact ⟨hnot, hnone⟩
  refine ⟨hK.fds, ?_, List.pairwise_cons.2 ⟨fun e he a hcov => (hnew a hcov).1 e he, hK.apart⟩, ?_, ?_⟩
  · funext a
    rw [overlay_cons, ← hK.vm, Live.covers, Live.phys, h1, h2]
    rfl
  · intro e he a hcov
    rcases List.mem_cons.1 he with rfl | he
    · exact (hnew a hcov).2
    · exact hK.free e he a hcov
  · intro e he
    rcases List.mem_cons.1 he with rfl | he
    · refine ⟨by rwa [h1], h3, ?_⟩
      rw [h3, page_offset, page_base, toNat_page_offset]
      exact hsize
    · exact hK.fits e he

theorem Keeps.unmap (hK : Keeps ps vm₀ fds₀ st) (hok : (Step.phyunmap sys e).ok ps st) :
    Keeps ps vm₀ fds₀ ((Step.phyunmap sys e).exec st) := by
  obtain ⟨rfl, he⟩ := hok
  unfold Step.exec
  by_cases hr : (phyunmap sys e.ptr e.size).1 = 0
  · simp only [if_pos hr, space_phyunmap]
    refine ⟨hK.fds, ?_, hK.apart.sublist List.erase_sublist, fun e' he' => hK.free e' (List.mem_of_mem_erase he'),
      fun e' he' => hK.fits e' (List.mem_of_mem_erase he')⟩
    funext a
    dsimp only
    rw [overlay_erase hK.apart he, hK.vm]
    by_cases ha : e.covers sys.pagesize a
    · rw [if_pos ha, if_pos ha, hK.free e he a ha]
    · rw [if_neg ha, if_neg ha]
  · simp only [if_neg hr]
    exact hK

theorem Keeps.run (hK : Keeps ps vm₀ fds₀ st) (hps : ps.toNat = 2 ^ k) (steps : List Step) (hok : Allowed ps st steps) :
    Keeps ps vm₀ fds₀ (run st steps) := by
  induction steps generalizing st with
  | nil => exact hK
  | cons step steps ih =>
    refine ih ?_ hok.2
    cases step with
    | phymap sys phyaddr size => exact hK.map hps hok.1
    | phyunmap sys e => exact hK.unmap hok.1

/-- Map and give back any ranges in any order, with any calls that fail. Then no
descriptor is left open; every pointer in use has its whole range behind it; no two of
them share a page; and all other addresses are as at entry, so all of them once
everything is given back. -/
theorem phymap_runs (ps : size_t) (k : Nat) (hps : ps.toNat = 2 ^ k) (vm₀ : Ptr → Option off_t) (fds₀ : List Int)
    (steps : List Step) (hok : Allowed ps ⟨vm₀, fds₀, []⟩ steps) :
    let st := run ⟨vm₀, fds₀, []⟩ steps
    st.fds = fds₀ ∧
      (∀ e ∈ st.live, ∀ i < e.size.toNat, st.vm (e.ptr + BitVec.ofNat 64 i) = some (e.phyaddr + BitVec.ofNat 64 i)) ∧
      Apart (Live.covers ps) st.live ∧
      (∀ a, (∀ e ∈ st.live, ¬ e.covers ps a) → st.vm a = vm₀ a) ∧
      (st.live = [] → st.vm = vm₀) := by
  intro st
  have hstart : Keeps ps vm₀ fds₀ ⟨vm₀, fds₀, []⟩ := ⟨rfl, rfl, List.Pairwise.nil, by simp, by simp⟩
  have hK := hstart.run hps steps hok
  have hlt : 2 ^ k < 2 ^ 64 := hps ▸ ps.isLt
  have hdvd : ps.toNat ∣ 2 ^ 64 := hps ▸ pow_dvd_pow 2 ((Nat.pow_lt_pow_iff_right Nat.one_lt_two).1 hlt).le
  have hother : ∀ a, (∀ e ∈ st.live, ¬ e.covers ps a) → st.vm a = vm₀ a := by
    intro a ha
    rw [hK.vm, overlay_of_not_covered ha]
  refine ⟨hK.fds, fun e he i hi => ?_, hK.apart, hother, fun hlive => funext fun a => hother a (by simp [hlive])⟩
  obtain ⟨h1, h2⟩ := (hK.fits e he).range hdvd (by rw [hps]; exact Nat.two_pow_pos k) hi
  rw [hK.vm, overlay_of_covers hK.apart he h1, h2]

/-- A range is mapped, two others cannot be. Then the first is given back. -/
theorem phymap_runs_failed :
    let steps : List Step := [.phymap ⟨4096, 3, some 0x7f0000000000, 0⟩ 0x80000010 256,
      .phymap ⟨4096, -1, none, 0⟩ 0x1000 16, .phymap ⟨4096, 3, none, 0⟩ 0x1000 16,
      .phyunmap ⟨4096, 3, none, 0⟩ ⟨0x7f0000000010, 256, 0x80000010⟩]
    (run ⟨fun _ => none, [0, 1, 2], []⟩ steps).fds = [0, 1, 2] ∧
      (run ⟨fun _ => none, [0, 1, 2], []⟩ steps).vm = fun _ => none := by
  intro steps
  have hallowed : Allowed 4096 ⟨fun _ => none, [0, 1, 2], []⟩ steps := by
    refine ⟨⟨rfl, by decide, ?_⟩, ⟨rfl, by decide, nofun⟩, ⟨rfl, by decide, nofun⟩, ⟨rfl, by decide +kernel⟩, trivial⟩
    rintro start ⟨⟩
    exact ⟨by decide, fun _ _ => rfl⟩
  have hlive : (run ⟨fun _ => none, [0, 1, 2], []⟩ steps).live = [] := by decide +kernel
  obtain ⟨h1, -, -, -, h2⟩ := phymap_runs 4096 12 rfl (fun _ => none) [0, 1, 2] steps hallowed
  exact ⟨h1, h2 hlive⟩

end SiteCode.Phymap
