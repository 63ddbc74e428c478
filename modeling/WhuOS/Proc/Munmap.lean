import WhuOS.Lib.Run
import WhuOS.Proc.Regions

/-!
# WhuOS.Proc.Munmap

`sys_munmap` in the runs of the memory calls of a process.

The code keeps no record of what `sys_mmap` handed out, so the runs carry it along (`Hist.mapped`).
`ReleasesMapped` is the contract of one `sys_munmap`, for any arguments. In the runs whose calls keep
to their part of the address space (`Fits`) it holds exactly if the arguments are refused or name
pages on record, and the pool has a node left: `munmap_releases_iff`.
-/

namespace WhuOS
namespace Proc

open Lib Kern Mem Sched

variable {L : Layout} {p : Slot} {s : Machine} {own : Nat → Owner} {l : List Nat}

/-! ## The list of a state -/

/-- The nodes of the list from a pointer on. -/
def listIds (nodes : NodeId → MmapNode) : Nat → Option NodeId → List NodeId
  | _, none => []
  | 0, some _ => []
  | fuel + 1, some i => i :: listIds nodes fuel (nodes i).next

theorem listIds_eq {nodes : NodeId → MmapNode} : ∀ {ids : List NodeId} {fuel : Nat}
    {o : Option NodeId}, ListFrom nodes o ids → ids.length ≤ fuel → listIds nodes fuel o = ids := by
  intro ids
  induction ids with
  | nil =>
    intro fuel o h _
    rw [show o = none from h]
    cases fuel <;> rfl
  | cons i ids ih =>
    intro fuel o h hlen
    cases fuel with
    | zero => cases hlen
    | succ fuel =>
      rw [h.1, listIds, ih h.2 (Nat.le_of_succ_le_succ hlen)]

def mmapIds (s : Machine) (p : Slot) : List NodeId := listIds s.nodes N_MMAP (s.procs p).mmap

/-- The regions of the list, in pages. -/
def regions (s : Machine) (p : Slot) : List Interval :=
  (mmapIds s p).map fun i => ⟨(s.nodes i).beginAddr / PGSIZE, (s.nodes i).npages⟩

variable {free : List NodeId}

theorem Lists.mmapIds_eq {cells : List Cell}
    (h : Lists s.nodes (s.procs p).mmap cells free) : mmapIds s p = cells.map Prod.fst :=
  listIds_eq (listFrom_iff.mpr h.list) (listFrom_iff.mpr h.list).length_le

theorem Lists.regions_eq {cells : List Cell}
    (h : Lists s.nodes (s.procs p).mmap cells free) : regions s p = cells.map Prod.snd := by
  rw [regions, h.mmapIds_eq, List.map_map]
  refine List.map_congr_left fun c hc => ?_
  obtain ⟨h1, h2⟩ := h.holds c hc
  ext
  · show (s.nodes c.1).beginAddr / PGSIZE = c.2.start
    rw [h1]
    simp only [PGSIZE]
    omega
  · exact h2

theorem MmapSpace.regions_eq {xs : List Interval} (h : MmapSpace L p xs s) : regions s p = xs := by
  obtain ⟨cells, free, hl, rfl⟩ := h.lists
  exact hl.regions_eq

/-! ## Runs with a record of what was handed out -/

/-- A memory call with its arguments as they come in the registers. -/
inductive MemCall where
  | brk (newHeapTop : UInt64)
  | mmap (start len : UInt64)
  | munmap (start len : UInt64)

/-- The pages of a length, which the calls read as `uint32`. -/
def npages (len : UInt64) : Nat := len.toNat % 2 ^ 32 / PGSIZE

def MemCall.run (p : Slot) : MemCall → MemM Nat
  | .brk top => sysBrk p top.toNat
  | .mmap start len => sysMmap p start.toNat len.toNat
  | .munmap start len => sysMunmap p start.toNat len.toNat

/-- The pages handed out, after a call that returned `res`. -/
def MemCall.note (res : Nat) (mapped : List Nat) : MemCall → List Nat
  | .brk _ => mapped
  | .mmap _ len =>
    if res = MINUS_ONE then mapped else List.range' (res / PGSIZE) (npages len) ++ mapped
  | .munmap start len =>
    if res = MINUS_ONE then mapped
    else mapped.filter fun v => v ∉ List.range' (start.toNat / PGSIZE) (npages len)

/-- A state, and the pages mapped by `sys_mmap` and not unmapped by `sys_munmap` since. -/
structure Hist where
  machine : Machine
  mapped : List Nat

def Hist.step (p : Slot) (t : Hist) (c : MemCall) : Option Hist :=
  match c.run p t.machine with
  | .ok res s' => some ⟨s', c.note res t.mapped⟩
  | .error _ _ => none

/-! ## The contract -/

/-- The pages of code, heap and stack, and those of the trapframe and the trampoline. -/
def Reserved (s : Machine) (p : Slot) (v : Nat) : Prop :=
  (1 ≤ v ∧ PGSIZE * v < (s.procs p).heapTop) ∨
    TRAPFRAME ≤ PGSIZE * v + PGSIZE * (s.procs p).ustackPages

/-- The `n` pages from page `a` on were released, and nothing else. -/
structure Released (p : Slot) (t : Hist) (a n : Nat) (s' : Machine) : Prop where
  mapped : ∀ v ∈ List.range' a n, v ∈ t.mapped
  notReserved : ∀ v ∈ List.range' a n, ¬ Reserved t.machine p v
  gone : ∀ v ∈ List.range' a n, leafPte s'.mem (t.machine.procs p).pgtbl (PGSIZE * v) = 0
  kept : ∀ va, va < VA_MAX → va / PGSIZE ∉ List.range' a n →
    leafPte s'.mem (t.machine.procs p).pgtbl va = leafPte t.machine.mem (t.machine.procs p).pgtbl va
  frames : s'.user.allocable = t.machine.user.allocable + n
  added : points (regions s' p) = points (regions t.machine p) ∪ Set.Ico a (a + n)
  apart : (regions s' p).Pairwise fun x y => x.stop ≤ y.start
  aligned : ∀ i ∈ mmapIds s' p, (s'.nodes i).beginAddr % PGSIZE = 0

/-- The contract of `sys_munmap`: it releases pages on record, or returns -1 and does nothing. -/
def ReleasesMapped (p : Slot) (t : Hist) (start len : UInt64) : Prop :=
  wp (sysMunmap p start.toNat len.toNat)
    (fun res s' => (res = MINUS_ONE ∧ s' = t.machine) ∨
      (res = 0 ∧ Released p t (start.toNat / PGSIZE) (npages len) s'))
    (fun _ _ => False) t.machine

/-- `sys_munmap` returns -1 for these. -/
def Refused (start len : UInt64) : Prop :=
  start.toNat % PGSIZE ≠ 0 ∨ len.toNat % 2 ^ 32 = 0 ∨ len.toNat % 2 ^ 32 % PGSIZE ≠ 0

/-- The arguments are refused, or name pages on record, and there is a node for them. -/
def Releasable (t : Hist) (start len : UInt64) : Prop :=
  Refused start len ∨
    ((∀ v ∈ List.range' (start.toNat / PGSIZE) (npages len), v ∈ t.mapped) ∧
      (t.machine.nodes listHead).poolNext ≠ none)

/-! ## The calls of a run -/

/-- The bound of `sys_brk`: a page below the stack. -/
def heapLimit (q : Mem.Proc) : Nat := sub64 (sub64 TRAPFRAME (PGSIZE * q.ustackPages % 2 ^ 64)) PGSIZE

/-- Where `sys_mmap` maps the pages, if it gets so far. -/
def mmapStart (s : Machine) (p : Slot) (start len : UInt64) : Option Nat :=
  if len.toNat % 2 ^ 32 = 0 ∨ len.toNat % 2 ^ 32 % PGSIZE ≠ 0 then none
  else if start.toNat = 0 then
    if fitStart s.nodes (npages len) (mmapIds s p) = 0 then none
    else some (fitStart s.nodes (npages len) (mmapIds s p))
  else if start.toNat % PGSIZE ≠ 0 then none
  else some start.toNat

/-- The call keeps to its part of the address space: the heap does not grow into pages on record,
`sys_mmap` maps no page that is in use otherwise and takes its range from one region or from none,
and `sys_munmap` gives back pages on record, in regions that the 32 bit sums are exact for. -/
def Fits (p : Slot) (t : Hist) : MemCall → Prop
  | .brk top =>
    top.toNat ≤ heapLimit (t.machine.procs p) →
    (t.machine.procs p).heapTop < top.toNat → ∀ v ∈ t.mapped,
      (t.machine.procs p).heapTop ≤ PGSIZE * v →
      (t.machine.procs p).heapTop + (top.toNat - (t.machine.procs p).heapTop) % 2 ^ 32 ≤ PGSIZE * v
  | .mmap start len =>
    ∀ a, mmapStart t.machine p start len = some a →
      (∀ v ∈ List.range' (a / PGSIZE) (npages len),
        pteHas (leafPte t.machine.mem (t.machine.procs p).pgtbl (PGSIZE * v)) PTE_V = true →
          v ∈ t.mapped) ∧
      ((∃ x ∈ regions t.machine p, x.Contains (a / PGSIZE) (npages len)) ∨
        ∀ x ∈ regions t.machine p, a / PGSIZE + npages len ≤ x.start ∨ x.stop ≤ a / PGSIZE)
  | .munmap start len =>
    Refused start len ∨
      ((∀ v ∈ List.range' (start.toNat / PGSIZE) (npages len), v ∈ t.mapped) ∧
        ∀ x ∈ adjoin ⟨start.toNat / PGSIZE, npages len⟩ (regions t.machine p), x.len < 2 ^ 20)

/-! ## The invariant -/

structure MemInv (L : Layout) (p : Slot) (t : Hist) : Prop where
  space : MmapSpace L p (regions t.machine p) t.machine
  canonical : Canonical (regions t.machine p)
  stack : (t.machine.procs p).ustackPages = 1
  heapMin : 2 * PGSIZE ≤ (t.machine.procs p).heapTop
  heapMax : (t.machine.procs p).heapTop + 2 * PGSIZE ≤ TRAPFRAME
  low : ∀ v, 1 ≤ v → PGSIZE * v < (t.machine.procs p).heapTop →
    Unmappable L t.machine.mem (t.machine.procs p).pgtbl (PGSIZE * v)
  high : ∀ v, PGSIZE * v < VA_MAX → TRAPFRAME ≤ PGSIZE * v + PGSIZE →
    pteHas (leafPte t.machine.mem (t.machine.procs p).pgtbl (PGSIZE * v)) PTE_V = true
  mapped : ∀ v ∈ t.mapped, Unmappable L t.machine.mem (t.machine.procs p).pgtbl (PGSIZE * v)
  notReserved : ∀ v ∈ t.mapped, ¬ Reserved t.machine p v
  notFree : ∀ v ∈ t.mapped, v ∉ points (regions t.machine p)

section Calls

variable {t : Hist} {a n : Nat}

namespace MemInv

theorem reserved_mapped (h : MemInv L p t) {v : Nat} (hv : PGSIZE * v < VA_MAX)
    (hr : Reserved t.machine p v) :
    pteHas (leafPte t.machine.mem (t.machine.procs p).pgtbl (PGSIZE * v)) PTE_V = true := by
  rcases hr with ⟨h1, h2⟩ | htop
  · exact (h.low v h1 h2).valid
  · rw [h.stack] at htop
    exact h.high v hv (by omega)

theorem pages (h : MemInv L p t) {s' : Machine} {xs : List Interval} {mapped : List Nat}
    (honly : PagesOnly p a n t.machine s') (hsp : MmapSpace L p xs s') (hc : Canonical xs)
    (hres : ∀ v ∈ List.range' a n, PGSIZE * v < VA_MAX ∧ ¬ Reserved t.machine p v)
    (hmapped : ∀ v ∈ mapped, v ∈ List.range' a n ∧
        Unmappable L s'.mem (t.machine.procs p).pgtbl (PGSIZE * v) ∨
      v ∉ List.range' a n ∧ v ∈ t.mapped)
    (hfree : ∀ v ∈ mapped, v ∉ points xs) : MemInv L p ⟨s', mapped⟩ := by
  have hreg := hsp.regions_eq
  obtain ⟨⟨o, ho⟩, hleaf⟩ := honly
  have hout : ∀ v, PGSIZE * v < VA_MAX → v ∉ List.range' a n →
      leafPte s'.mem (t.machine.procs p).pgtbl (PGSIZE * v) =
        leafPte t.machine.mem (t.machine.procs p).pgtbl (PGSIZE * v) := by
    intro v hv hm
    rw [List.mem_range'_1] at hm
    exact hleaf _ hv (by simp only [PGSIZE]; omega)
  have hsame : ∀ v, Reserved s' p v ↔ Reserved t.machine p v := by
    intro v
    simp only [Reserved, ho]
  refine ⟨?_, ?_, ?_, ?_, ?_, fun v h1 h2 => ?_, fun v hv htop => ?_, fun v hv => ?_, fun v hv => ?_,
    fun v hv => ?_⟩ <;> dsimp only at *
  · rwa [hreg]
  · rwa [hreg]
  · rw [ho]; exact h.stack
  · rw [ho]; exact h.heapMin
  · rw [ho]; exact h.heapMax
  · rw [ho] at h2 ⊢
    have hu := h.low v h1 h2
    exact hu.congr (hout v hu.low fun hm => (hres v hm).2 (.inl ⟨h1, h2⟩))
  · rw [ho]
    have hin : Reserved t.machine p v := .inr (by rw [h.stack]; omega)
    rw [hout v hv fun hm => (hres v hm).2 hin]
    exact h.high v hv htop
  · rw [ho]
    rcases hmapped v hv with ⟨-, hu⟩ | ⟨hm, hold⟩
    · exact hu
    · have hu := h.mapped v hold
      exact hu.congr (hout v hu.low hm)
  · rw [hsame]
    rcases hmapped v hv with ⟨hm, -⟩ | ⟨-, hold⟩
    · exact (hres v hm).2
    · exact h.notReserved v hold
  · rw [hreg]; exact hfree v hv

end MemInv

/-- `uvm_mmap` of pages that are not in use otherwise, from one region or beside all. -/
theorem wlp_uvmMmap_inv (h : MemInv L p t) (hn : 0 < n) (hn20 : n < 2 ^ 20) (ha : PGSIZE * a < 2 ^ 64)
    (huse : ∀ v ∈ List.range' a n,
      pteHas (leafPte t.machine.mem (t.machine.procs p).pgtbl (PGSIZE * v)) PTE_V = true →
        v ∈ t.mapped)
    (hpart : (∃ x ∈ regions t.machine p, x.Contains a n) ∨
      ∀ x ∈ regions t.machine p, a + n ≤ x.start ∨ x.stop ≤ a) :
    wlp (uvmMmap p (PGSIZE * a) n (PTE_R ||| PTE_W))
      (fun _ s' => MemInv L p ⟨s', List.range' a n ++ t.mapped⟩) t.machine := by
  have hsum : PGSIZE * a + PGSIZE * n = PGSIZE * (a + n) := by simp only [PGSIZE]; omega
  by_cases hmax : PGSIZE * (a + n) ≤ VA_MAX
  case neg =>
    -- it panics at `VA_MAX`
    obtain ⟨own, l, r, w, hr, hpg⟩ := h.space.table
    obtain ⟨cells, free, hl, -⟩ := h.space.lists
    refine wp_conseq (wp_uvmMmap (PGSIZE * a) n (PTE_R ||| PTE_W) (wlp_true _ _) w hr hpg
      (listFrom_iff.mpr hl.list) ha hn hn20 (by decide)) ?_ (fun _ _ _ => trivial)
    rintro - s' ⟨⟨-, hle, -⟩, -⟩
    exact absurd (by rwa [hsum] at hle) hmax
  refine wp_conseq (wp_uvmMmap_space h.space h.canonical hn hn20 hmax (by decide)) ?_
    (fun _ _ _ => trivial)
  rintro - s' ⟨hsp, honly, hun⟩
  have hlow : ∀ v ∈ List.range' a n, PGSIZE * v < VA_MAX := by
    intro v hv
    rw [List.mem_range'_1] at hv
    simp only [PGSIZE] at *
    omega
  refine h.pages honly hsp (h.canonical.remove hn) (fun v hv => ⟨hlow v hv, fun hr => ?_⟩)
    (fun v hv => ?_) fun v hv hmem => ?_
  · exact h.notReserved v (huse v hv (h.reserved_mapped (hlow v hv) hr)) hr
  · by_cases hm : v ∈ List.range' a n
    · obtain ⟨i, hi, rfl⟩ : ∃ i, i < n ∧ v = a + i := by
        rw [List.mem_range'_1] at hm
        exact ⟨v - a, by omega, by omega⟩
      exact .inl ⟨hm, hun i hi⟩
    · exact .inr ⟨hm, (List.mem_append.mp hv).resolve_left hm⟩
  · obtain ⟨hold, hout⟩ := h.canonical.separated.mem_points_remove hpart hmem
    rcases List.mem_append.mp hv with hv | hv
    · rw [List.mem_range'_1] at hv
      exact hout hv
    · exact h.notFree v hv hold

theorem MemInv.beside (h : MemInv L p t) (hn : 0 < n) (hin : ∀ v ∈ List.range' a n, v ∈ t.mapped) :
    ∀ x ∈ regions t.machine p, a + n ≤ x.start ∨ x.stop ≤ a :=
  h.canonical.separated.beside hn fun v hv hm =>
    h.notFree v (hin v (List.mem_range'_1.mpr hm)) hv

theorem wp_uvmMunmap_mapped (h : MemInv L p t) (hn : 0 < n) (hn20 : n < 2 ^ 20)
    (hin : ∀ v ∈ List.range' a n, v ∈ t.mapped) :
    wp (uvmMunmap p (PGSIZE * a) n)
      (fun _ s' => MmapSpace L p (adjoin ⟨a, n⟩ (regions t.machine p)) s' ∧
        PagesOnly p a n t.machine s' ∧
        s'.user.allocable = t.machine.user.allocable + n ∧
        ∀ v ∈ List.range' a n, leafPte s'.mem (t.machine.procs p).pgtbl (PGSIZE * v) = 0)
      (fun _ _ => (t.machine.nodes listHead).poolNext = none) t.machine := by
  have hun : ∀ i, i < n → Unmappable L t.machine.mem (t.machine.procs p).pgtbl (PGSIZE * (a + i)) :=
    fun i hi => h.mapped _ (hin _ (List.mem_range'_1.mpr ⟨by omega, by omega⟩))
  have hmax : PGSIZE * (a + n) ≤ VA_MAX := by
    have := (hun (n - 1) (by omega)).low
    simp only [PGSIZE, VA_MAX] at *
    omega
  refine wp_conseq
    (wp_uvmMunmap_space h.space h.canonical hn hn20 hmax (h.beside hn hin) hun) ?_ (fun _ _ h => h)
  rintro - s' ⟨hsp, honly, hfr, hgone⟩
  refine ⟨hsp, honly, hfr, fun v hv => ?_⟩
  rw [List.mem_range'_1] at hv
  have := hgone (v - a) (by omega)
  rwa [show a + (v - a) = v by omega] at this

/-! ## The heap -/

/-- The number of pages below an address. -/
def pagesBelow (a : Nat) : Nat := (a + (PGSIZE - 1)) / PGSIZE

variable {b : Nat} {start len : UInt64}

theorem pgRoundUp_eq (h : b ≤ VA_MAX) : pgRoundUp b = PGSIZE * pagesBelow b := by
  simp only [pgRoundUp, pagesBelow, PGSIZE, VA_MAX] at *
  omega

theorem lt_pagesBelow {v : Nat} : v < pagesBelow b ↔ PGSIZE * v < b := by
  simp only [pagesBelow, PGSIZE]
  omega

theorem wlp_uvmHeapGrow {r top len : Nat} (w : Owned L s own l) (hr : own r = .node p 3 0)
    (hmax : top + len ≤ VA_MAX) :
    wlp (uvmHeapGrow (PGSIZE * r) top len)
      (fun res s' => res = top + len ∧ ∃ own' l', FreshPages L p s own r (PGSIZE * pagesBelow top)
        (pagesBelow (top + len) - pagesBelow top) (PTE_R ||| PTE_W ||| PTE_U) s' own' l') s := by
  have hnew : (top + len) % 2 ^ 64 = top + len := by simp only [VA_MAX] at *; omega
  have hcount : (PGSIZE * pagesBelow (top + len) - PGSIZE * pagesBelow top + (PGSIZE - 1)) / PGSIZE =
      pagesBelow (top + len) - pagesBelow top := by
    simp only [PGSIZE]
    omega
  simp only [uvmHeapGrow, wp_bind, hnew, pgRoundUp_eq hmax, pgRoundUp_eq (b := top) (by omega),
    forPages, hcount]
  refine wp_conseq (wp_freshPages (PTE_R ||| PTE_W ||| PTE_U)
    (pagesBelow (top + len) - pagesBelow top) 0 (PGSIZE * pagesBelow top) true w rfl hr
    (Nat.mul_mod_right _ _) (.inl rfl) fun j s1 own1 l1 _ w1 _ hr1 => ?_) ?_ (fun _ _ _ => trivial)
  · rw [Nat.zero_add]
    exact wp_freshPage w1 hr1 (by simp only [PGSIZE]; omega) (by decide)
  · rintro - s' ⟨-, -, own', l', -, fp⟩
    exact ⟨rfl, own', l', fp⟩

theorem wlp_uvmHeapUngrow {r top len : Nat} (w : Owned L s own l) (hr : own r = .node p 3 0)
    (hmax : top ≤ VA_MAX) (hlen : len ≤ top)
    (hmapped : ∀ v, top - len ≤ PGSIZE * v → PGSIZE * v < top →
      Unmappable L s.mem (PGSIZE * r) (PGSIZE * v)) :
    wlp (uvmHeapUngrow (PGSIZE * r) top len)
      (fun res s' => res = top - len ∧ s'.rest = s.rest ∧
        (∃ own' l', Owned L s' own' l' ∧ own' r = .node p 3 0) ∧
        ∀ v, PGSIZE * v < VA_MAX → PGSIZE * v < top - len ∨ top ≤ PGSIZE * v →
          leafPte s'.mem (PGSIZE * r) (PGSIZE * v) = leafPte s.mem (PGSIZE * r) (PGSIZE * v)) s := by
  have hnew : sub64 top len = top - len := by simp only [sub64, VA_MAX] at *; omega
  simp only [uvmHeapUngrow, hnew, pgRoundUp_eq hmax, pgRoundUp_eq (b := top - len) (by omega)]
  split
  · rename_i hlt
    have hdiv : (PGSIZE * pagesBelow top - PGSIZE * pagesBelow (top - len)) / PGSIZE =
        pagesBelow top - pagesBelow (top - len) := by
      simp only [PGSIZE]
      omega
    have hend : PGSIZE * pagesBelow top ≤ VA_MAX := by
      simp only [pagesBelow, PGSIZE, VA_MAX] at *
      omega
    have hsum : pagesBelow (top - len) + (pagesBelow top - pagesBelow (top - len)) =
        pagesBelow top := by
      simp only [PGSIZE] at hlt
      omega
    simp only [wp_bind, hdiv]
    refine wp_conseq (wp_vmUnmappages w hr (by simp only [PGSIZE] at hlt; omega)
      (by rwa [hsum]) fun i hi => ?_) ?_ (fun _ _ _ => trivial)
    · refine hmapped _ ?_ (lt_pagesBelow.mp (by omega))
      have := mt lt_pagesBelow.mpr (Nat.not_lt.mpr (Nat.le_add_right (pagesBelow (top - len)) i))
      omega
    · rintro - s' ⟨own', u⟩
      refine ⟨rfl, u.rest, ⟨own', _, u.owned, u.keeps hr⟩, fun v hv hout => ?_⟩
      have hpage : PGSIZE * v / PGSIZE = v := by simp only [PGSIZE]; omega
      refine u.outside _ hv ?_
      rw [hpage, hsum, lt_pagesBelow]
      refine hout.imp id fun h => Nat.not_lt.mp fun hc => ?_
      have := lt_pagesBelow.mp hc
      omega
  · exact ⟨rfl, rfl, ⟨own, l, w, hr⟩, fun _ _ _ => rfl⟩

namespace MemInv

theorem setHeap (h : MemInv L p t) {s1 : Machine} {r top : Nat}
    (hpg : (t.machine.procs p).pgtbl = PGSIZE * r) (hrest : s1.rest = t.machine.rest)
    (hown : ∃ own l, Owned L s1 own l ∧ own r = .node p 3 0)
    (hmin : 2 * PGSIZE ≤ top) (hmax : top + 2 * PGSIZE ≤ TRAPFRAME)
    (hlow : ∀ v, 1 ≤ v → PGSIZE * v < top → Unmappable L s1.mem (PGSIZE * r) (PGSIZE * v))
    (hkeep : ∀ v, PGSIZE * v < VA_MAX →
      (v ∈ t.mapped ∨ TRAPFRAME ≤ PGSIZE * v + PGSIZE) →
      leafPte s1.mem (PGSIZE * r) (PGSIZE * v) = leafPte t.machine.mem (PGSIZE * r) (PGSIZE * v))
    (hheap : ∀ v ∈ t.mapped, ¬ (1 ≤ v ∧ PGSIZE * v < top)) :
    MemInv L p ⟨{ s1 with
      procs := Function.update s1.procs p { s1.procs p with heapTop := top } }, t.mapped⟩ := by
  obtain ⟨own, l, w, hr⟩ := hown
  have hprocs : s1.procs = t.machine.procs := congrArg Rest.procs hrest
  have hnodes : s1.nodes = t.machine.nodes := congrArg Rest.nodes hrest
  have hreg : regions { s1 with
      procs := Function.update s1.procs p { s1.procs p with heapTop := top } } p =
      regions t.machine p := by
    simp only [regions, mmapIds, hnodes, hprocs, Function.update_self]
  obtain ⟨cells, free, hl, hcells⟩ := h.space.lists
  refine ⟨⟨⟨own, l, r, w.ofRest rfl rfl, hr, by simp [hprocs, hpg]⟩, cells, free, ?_, ?_⟩, ?_, ?_, ?_,
    ?_, fun v h1 h2 => ?_, fun v hv htop => ?_, fun v hv => ?_, fun v hv hres => ?_, fun v hv => ?_⟩
  · simpa [hprocs, hnodes] using hl
  · rw [hreg]; exact hcells
  · rw [hreg]; exact h.canonical
  · simpa [hprocs] using h.stack
  · simpa using hmin
  · simpa using hmax
  · simp only [Function.update_self, hprocs, hpg] at h2 ⊢
    exact hlow v h1 h2
  · simp only [Function.update_self, hprocs, hpg]
    rw [hkeep v hv (.inr htop), ← hpg]
    exact h.high v hv htop
  · simp only [Function.update_self, hprocs, hpg]
    have hu := h.mapped v hv
    rw [hpg] at hu
    exact hu.congr (hkeep v hu.low (.inl hv))
  · simp only [Reserved, Function.update_self, hprocs] at hres
    exact hres.elim (hheap v hv) fun htop => h.notReserved v hv (.inr htop)
  · rw [hreg]; exact h.notFree v hv

end MemInv

/-! ## One call -/

theorem wlp_sysBrk_inv {top : UInt64} (h : MemInv L p t) (hfit : Fits p t (.brk top)) :
    wlp (sysBrk p top.toNat) (fun _ s' => MemInv L p ⟨s', t.mapped⟩) t.machine := by
  obtain ⟨own, l, r, w, hr, hpg⟩ := h.space.table
  have hlimit : heapLimit (t.machine.procs p) = TRAPFRAME - 2 * PGSIZE := by
    rw [heapLimit, h.stack]; decide
  have hmin := h.heapMin
  have hmax := h.heapMax
  simp only [Fits, hlimit] at hfit
  simp only [heapLimit] at hlimit
  generalize top.toNat = new at hfit ⊢
  simp only [sysBrk, wp_bind, wp_getProc, hlimit, hpg]
  split
  · exact h
  split
  · exact h
  split
  · exact h
  rename_i hnew hle
  split
  · -- the heap grows, into pages that are not on record
    rename_i hgrow
    have hout := hfit (by omega) hgrow
    generalize hk : (new - (t.machine.procs p).heapTop) % 2 ^ 32 = len at hout
    have hlen : len ≤ new - (t.machine.procs p).heapTop := by rw [← hk]; exact Nat.mod_le _ _
    simp only [wp_bind]
    refine wp_conseq (wlp_uvmHeapGrow w hr (by simp only [TRAPFRAME, TRAMPOLINE] at *; omega)) ?_
      (fun _ _ _ => trivial)
    rintro _ s1 ⟨rfl, own', l', fp⟩
    simp only [wp_setProc, wp_getProc, wp_pure]
    have houtside : ∀ v, PGSIZE * v < VA_MAX → PGSIZE * v < (t.machine.procs p).heapTop ∨
        (t.machine.procs p).heapTop + len ≤ PGSIZE * v →
        leafPte s1.mem (PGSIZE * r) (PGSIZE * v) =
          leafPte t.machine.mem (PGSIZE * r) (PGSIZE * v) := by
      intro v hv hcase
      refine fp.outside _ hv ?_
      simp only [pagesBelow, PGSIZE] at *
      omega
    refine h.setHeap hpg fp.rest ⟨own', l', fp.owned, fp.grows.keeps hr (by simp)⟩ (by omega)
      (by simp only [TRAPFRAME, TRAMPOLINE, PGSIZE] at *; omega) (fun v h1 h2 => ?_)
      (fun v hv hcase => ?_) fun v hv hin => ?_
    · rcases Nat.lt_or_ge (PGSIZE * v) (t.machine.procs p).heapTop with hold | hfresh
      · have hu := h.low v h1 hold
        rw [hpg] at hu
        exact hu.congr (houtside v hu.low (.inl hold))
      · refine unmappable_fresh w (by decide) fp ?_ ?_ ?_ <;>
          simp only [pagesBelow, PGSIZE, TRAPFRAME, TRAMPOLINE, VA_MAX] at * <;> omega
    · refine houtside v hv ?_
      rcases hcase with hm | htop
      · rcases Nat.lt_or_ge (PGSIZE * v) (t.machine.procs p).heapTop with hlt | hge
        · exact .inl hlt
        · exact .inr (hout v hm hge)
      · right
        simp only [TRAPFRAME, TRAMPOLINE, PGSIZE] at *
        omega
    · rcases Nat.lt_or_ge (PGSIZE * v) (t.machine.procs p).heapTop with hlt | hge
      · exact h.notReserved v hv (.inl ⟨hin.1, hlt⟩)
      · have := hout v hv hge
        omega
  split
  · -- it shrinks, and its own pages go
    rename_i hge hshrink
    generalize hk : ((t.machine.procs p).heapTop - new) % 2 ^ 32 = len
    have hlen : len ≤ (t.machine.procs p).heapTop - new := by rw [← hk]; exact Nat.mod_le _ _
    simp only [wp_bind]
    refine wp_conseq (wlp_uvmHeapUngrow w hr
      (by simp only [TRAPFRAME, TRAMPOLINE] at *; omega) (by omega) fun v h1 h2 => ?_) ?_
      (fun _ _ _ => trivial)
    · rw [← hpg]
      exact h.low v (by simp only [PGSIZE] at *; omega) h2
    rintro _ s1 ⟨rfl, hrest, hown, hout⟩
    simp only [wp_setProc, wp_getProc, wp_pure]
    refine h.setHeap hpg hrest hown (by omega) (by omega) (fun v h1 h2 => ?_)
      (fun v hv hcase => ?_) fun v hv hin => ?_
    · have hu := h.low v h1 (by omega)
      rw [hpg] at hu
      exact hu.congr (hout v hu.low (.inl h2))
    · refine hout v hv ?_
      rcases hcase with hm | htop
      · have := h.notReserved v hm
        simp only [Reserved, PGSIZE] at *
        omega
      · right
        simp only [TRAPFRAME, TRAMPOLINE, PGSIZE] at *
        omega
    · exact h.notReserved v hv (.inl ⟨hin.1, by omega⟩)
  · exact h

theorem wp_sysMmap {Q : Nat → Machine → Prop} {E : Stop → Machine → Prop}
    (hl : ListFrom s.nodes (s.procs p).mmap (mmapIds s p)) :
    wp (sysMmap p start.toNat len.toNat) Q E s ↔
      match mmapStart s p start len with
      | none => Q MINUS_ONE s
      | some b => wp (uvmMmap p b (npages len) (PTE_R ||| PTE_W)) (fun _ => Q b) E s := by
  have hlen : len.toNat % 2 ^ 32 / PGSIZE = npages len := rfl
  simp only [sysMmap, mmapStart, hlen]
  split
  · exact Iff.rfl
  split
  · simp only [wp_bind, wp_getProc, wp_firstFit hl]
    by_cases hfit : fitStart s.nodes (npages len) (mmapIds s p) = 0
    · rw [if_pos hfit, if_pos hfit]
      exact Iff.rfl
    · rw [if_neg hfit, if_neg hfit]
      simp only [wp_bind, wp_pure]
  split
  · exact Iff.rfl
  · simp only [wp_bind, wp_pure]

theorem mmapStart_some {cells : List Cell} {free : List NodeId}
    (hl : Lists s.nodes (s.procs p).mmap cells free) (hlow : ∀ c ∈ cells, c.2.start < 2 ^ 52)
    (hb : mmapStart s p start len = some b) :
    b % PGSIZE = 0 ∧ b < 2 ^ 64 ∧ 0 < npages len := by
  simp only [mmapStart] at hb
  split at hb
  · cases hb
  rename_i hlen
  have hn : 0 < npages len := by simp only [npages, PGSIZE] at *; omega
  split at hb
  · split at hb
    · cases hb
    rename_i hfit
    cases hb
    -- the start of a region
    unfold fitStart at hfit ⊢
    split
    · exact ⟨rfl, by decide, hn⟩
    · rename_i i hi
      have hm := List.mem_of_find?_eq_some hi
      rw [hl.mmapIds_eq] at hm
      obtain ⟨c, hc, rfl⟩ := List.mem_map.mp hm
      have := hlow c hc
      rw [(hl.holds c hc).1]
      simp only [PGSIZE] at *
      exact ⟨by omega, by omega, hn⟩
  · split at hb
    · cases hb
    · cases hb
      rename_i hal
      exact ⟨by omega, start.toNat_lt, hn⟩

theorem npages_lt (len : UInt64) : npages len < 2 ^ 20 := by
  simp only [npages, PGSIZE]
  omega

theorem MemInv.listFrom (h : MemInv L p t) :
    ListFrom t.machine.nodes (t.machine.procs p).mmap (mmapIds t.machine p) := by
  obtain ⟨cells, free, hl, -⟩ := h.space.lists
  rw [hl.mmapIds_eq]
  exact listFrom_iff.mpr hl.list

theorem wlp_sysMmap_inv (h : MemInv L p t) (hfit : Fits p t (.mmap start len)) :
    wlp (sysMmap p start.toNat len.toNat)
      (fun res s' => MemInv L p ⟨s', MemCall.note res t.mapped (.mmap start len)⟩) t.machine := by
  rw [wlp, wp_sysMmap h.listFrom]
  cases hb : mmapStart t.machine p start len with
  | none =>
    simp only [MemCall.note, if_true]
    exact h
  | some b =>
    obtain ⟨cells, free, hl, hcells⟩ := h.space.lists
    obtain ⟨hal, hb64, hn⟩ := mmapStart_some hl (fun c hc => by
      have := (h.canonical.small c.2 (by rw [← hcells]; exact List.mem_map_of_mem hc)).2
      simp only [Interval.stop, PGSIZE, VA_MAX] at *; omega) hb
    obtain ⟨huse, hpart⟩ := hfit b hb
    have hba : PGSIZE * (b / PGSIZE) = b := by simp only [PGSIZE] at *; omega
    have hres : b ≠ MINUS_ONE := by rintro rfl; exact absurd hal (by decide)
    have := wlp_uvmMmap_inv h hn (npages_lt len) (by rwa [hba]) huse hpart
    rw [hba] at this
    simpa only [MemCall.note, if_neg hres] using this

theorem wp_sysMunmap {Q : Nat → Machine → Prop} {E : Stop → Machine → Prop} :
    (Refused start len → (wp (sysMunmap p start.toNat len.toNat) Q E s ↔ Q MINUS_ONE s)) ∧
    (¬ Refused start len → 0 < npages len ∧
      (wp (sysMunmap p start.toNat len.toNat) Q E s ↔
        wp (uvmMunmap p (PGSIZE * (start.toNat / PGSIZE)) (npages len)) (fun _ => Q 0) E s)) := by
  simp only [Refused, sysMunmap]
  refine ⟨fun h => ?_, fun h => ⟨?_, ?_⟩⟩
  · rw [if_pos h]
    exact Iff.rfl
  · simp only [npages, PGSIZE] at *
    omega
  · have hal : PGSIZE * (start.toNat / PGSIZE) = start.toNat := by simp only [PGSIZE] at *; omega
    rw [if_neg h, hal]
    simp only [wp_bind, wp_pure, npages]

theorem wlp_sysMunmap_inv (h : MemInv L p t)
    (hfit : Fits p t (.munmap start len)) :
    wlp (sysMunmap p start.toNat len.toNat)
      (fun res s' => MemInv L p ⟨s', MemCall.note res t.mapped (.munmap start len)⟩) t.machine := by
  by_cases href : Refused start len
  · rw [wlp, wp_sysMunmap.1 href]
    simp only [MemCall.note, if_true]
    exact h
  obtain ⟨hn, heq⟩ := wp_sysMunmap.2 href
  obtain ⟨hin, hsize⟩ := hfit.resolve_left href
  rw [wlp, heq]
  refine wp_conseq (wp_uvmMunmap_mapped h hn (npages_lt len) hin) ?_ (fun _ _ _ => trivial)
  rintro - s' ⟨hsp, honly, -, -⟩
  have hlow := fun v hv => (h.mapped v (hin v hv)).low
  have hstop : PGSIZE * (start.toNat / PGSIZE + npages len) ≤ VA_MAX := by
    have := hlow (start.toNat / PGSIZE + (npages len - 1))
      (List.mem_range'_1.mpr ⟨by omega, by omega⟩)
    simp only [PGSIZE, VA_MAX] at *
    omega
  have hres : (0 : Nat) ≠ MINUS_ONE := by decide
  simp only [MemCall.note, if_neg hres]
  refine h.pages honly hsp (h.canonical.adjoin hn hstop (h.beside hn hin) hsize)
    (fun v hv => ⟨hlow v hv, h.notReserved v (hin v hv)⟩) (fun v hv => ?_) fun v hv hmem => ?_
  · obtain ⟨hm, hout⟩ := List.mem_filter.mp hv
    exact .inr ⟨of_decide_eq_true hout, hm⟩
  · obtain ⟨hm, hout⟩ := List.mem_filter.mp hv
    rw [points_adjoin] at hmem
    rcases hmem with hmem | hmem
    · exact h.notFree v hm hmem
    · exact of_decide_eq_true hout (List.mem_range'_1.mpr hmem)

theorem memInv_step {t' : Hist} {c : MemCall} (h : MemInv L p t) (hfit : Fits p t c)
    (hs : t.step p c = some t') : MemInv L p t' := by
  have hcall : wlp (c.run p) (fun res s' => MemInv L p ⟨s', c.note res t.mapped⟩) t.machine := by
    cases c with
    | brk top => exact wlp_sysBrk_inv h hfit
    | mmap start len => exact wlp_sysMmap_inv h hfit
    | munmap start len => exact wlp_sysMunmap_inv h hfit
  unfold Hist.step at hs
  split at hs
  · rename_i res s' hrun
    cases hs
    have := wp_ok hcall hrun
    exact this
  · cases hs

end Calls

/-! ## The runs from the first process on -/

theorem Booted.memInv {r t : Nat} (h : Booted L p r t s own l)
    (hpool : Pool s.nodes free) : MemInv L p ⟨s, []⟩ := by
  have hpg : (s.procs p).pgtbl = PGSIZE * r := by rw [h.proc]
  have hlists : Lists s.nodes (s.procs p).mmap [] free := by
    rw [h.proc]
    exact ⟨rfl, hpool.links, hpool.nodup, by simp⟩
  have hsp : MmapSpace L p [] s := ⟨⟨own, l, r, h.inv.owned, h.root, hpg⟩, [], free, hlists, rfl⟩
  have hreg := hsp.regions_eq
  refine ⟨by rwa [hreg], by rw [hreg]; exact ⟨.nil, by simp⟩, by rw [h.proc], by rw [h.proc],
    ?_, fun v h1 h2 => ?_, fun v hv htop => ?_, by simp, by simp, by simp⟩
  · rw [h.proc]
    show 2 * PGSIZE + 2 * PGSIZE ≤ TRAPFRAME
    decide
  · -- the code page
    obtain rfl : v = 1 := by
      rw [h.proc] at h2
      simp only [PGSIZE] at h2
      omega
    exact unmappable_of_mapped (a := 1) (n := 1) (i := 0) hsp (by decide) (by decide)
      h.leafMapped_code
  · -- the stack, the trapframe and the trampoline
    obtain ⟨k, hk⟩ := h.stack
    have hcases : PGSIZE * v = USTACK ∨ PGSIZE * v = TRAPFRAME ∨ PGSIZE * v = TRAMPOLINE := by
      simp only [USTACK, TRAPFRAME, TRAMPOLINE, VA_MAX, PGSIZE] at *
      omega
    rw [hpg, pteHas_V]
    rcases hcases with hv | hv | hv
    · rw [hv, hk]; omega
    · rw [hv, h.trapframe]; omega
    · rw [hv, h.trampoline]; omega

theorem memInv_boot {hartid : Nat} {mem : Bytes} (hboot : boot L hartid (reset mem) = .ok () s) :
    MemInv L 0 ⟨s, []⟩ := by
  obtain ⟨⟨free, hpool, -⟩, r, t, own, l, hb, -⟩ := wp_ok (wp_boot hartid mem) hboot
  exact hb.memInv hpool

theorem uvmMunmap_full {b n : Nat} {Q : Unit → Machine → Prop} (hn : n ≠ 0)
    (hpool : (s.nodes listHead).poolNext = none) :
    ¬ wp (uvmMunmap p b n) Q (fun _ _ => False) s := by
  rw [uvmMunmap_eq p b n hn]
  simp only [wp_bind, wp_assert, insertRegion, mmapRegionAlloc, wp_getNode, hpool]
  split <;> exact id

/-- In the runs whose calls keep to their part of the address space, `sys_munmap` keeps its contract
exactly for the arguments it refuses, and for pages on record while there is a node. -/
theorem munmap_releases_iff {hartid : Nat} {mem : Bytes} {s0 : Machine}
    (hboot : boot L hartid (reset mem) = .ok () s0) (cs : List MemCall) (t : Hist)
    (hok : RunOk (Hist.step 0) (Fits 0) ⟨s0, []⟩ cs)
    (hrun : run (Hist.step 0) ⟨s0, []⟩ cs = some t) (start len : UInt64) :
    ReleasesMapped 0 t start len ↔ Releasable t start len := by
  have h : MemInv L 0 t := run_inv (I := MemInv L 0) (fun _ _ _ hi hf hs => memInv_step hi hf hs) cs
    (memInv_boot hboot) hok hrun
  unfold ReleasesMapped Releasable
  by_cases href : Refused start len
  · rw [wp_sysMunmap.1 href]
    exact ⟨fun _ => .inl href, fun _ => .inl ⟨rfl, rfl⟩⟩
  obtain ⟨hn, heq⟩ := wp_sysMunmap.2 href
  have hzero : (0 : Nat) ≠ MINUS_ONE := by decide
  rw [heq]
  constructor
  · intro hwp
    refine .inr ⟨?_, fun hpool => uvmMunmap_full (Nat.pos_iff_ne_zero.mp hn) hpool hwp⟩
    obtain ⟨-, s', -, hs'⟩ := wp_returns hwp (fun _ _ h => h)
    rcases hs' with ⟨h0, -⟩ | ⟨-, hrel⟩
    · exact absurd h0 hzero
    · exact hrel.mapped
  · intro hrel
    obtain ⟨hin, hpool⟩ := hrel.resolve_left href
    refine wp_conseq (wp_uvmMunmap_mapped h hn (npages_lt len) hin) ?_ (fun _ _ h => hpool h)
    rintro - s' ⟨hsp, honly, hframes, hgone⟩
    have hbeside := h.beside hn hin
    refine .inr ⟨rfl, hin, fun v hv => h.notReserved v (hin v hv), hgone, fun va hva hout => ?_,
      hframes, ?_, ?_, fun i hi => ?_⟩
    · rw [List.mem_range'_1] at hout
      exact honly.leaf va hva (by omega)
    · rw [hsp.regions_eq, points_adjoin]
      rfl
    · rw [hsp.regions_eq]
      have hsep := h.canonical.separated.adjoin (x := ⟨start.toNat / PGSIZE, npages len⟩) hn hbeside
      exact hsep.apart.imp fun hlt => Nat.le_of_lt hlt
    · obtain ⟨cells, free, hl, -⟩ := hsp.lists
      rw [hl.mmapIds_eq] at hi
      obtain ⟨c, hc, rfl⟩ := List.mem_map.mp hi
      rw [(hl.holds c hc).1]
      exact Nat.mul_mod_right _ _

theorem boot_small_pool : ∃ s r t own l free, boot smallLayout 0 (reset fun _ => 0) = .ok () s ∧
    Booted smallLayout 0 r t s own l ∧ Pool s.nodes free ∧ (s.nodes listHead).poolNext ≠ none ∧
    31000 ≤ l.length := by
  have hpages : 31008 ≤ userPages smallLayout := by decide
  obtain ⟨s, -, -, -, -, hs, -⟩ := boot_small
  obtain ⟨⟨free, hpool, hlen⟩, r, t, own, l, hb, -, hl⟩ := wp_ok (wp_boot 0 fun _ => 0) hs
  refine ⟨s, r, t, own, l, free, hs, hb, hpool, fun hnone => ?_, by omega⟩
  have := hpool.links
  rw [hnone] at this
  cases free with
  | nil => cases hlen
  | cons i free => cases this.1

theorem mmap_first : ∃ s t, boot smallLayout 0 (reset fun _ => 0) = .ok () s ∧
    Fits 0 ⟨s, []⟩ (.mmap 0x10000 0x1000) ∧
    run (Hist.step 0) ⟨s, []⟩ [.mmap 0x10000 0x1000] = some t ∧ t.mapped = [16] ∧
    (t.machine.nodes listHead).poolNext ≠ none := by
  obtain ⟨s, r, f, own, l, free, hs, hb, hpool, hne, hl⟩ := boot_small_pool
  have h := hb.memInv hpool
  have hpg : (s.procs 0).pgtbl = PGSIZE * r := by rw [hb.proc]
  have hmmap : (s.procs 0).mmap = none := by rw [hb.proc]
  have hids : mmapIds s 0 = [] := by rw [mmapIds, hmmap]; rfl
  have hreg : regions s 0 = [] := by rw [regions, hids]; rfl
  have hstart : mmapStart s 0 0x10000 0x1000 = some 0x10000 := rfl
  have hfit : Fits 0 ⟨s, []⟩ (.mmap 0x10000 0x1000) := by
    rintro a ha
    obtain rfl : a = 0x10000 := by
      have := hstart.symm.trans ha
      exact (Option.some.inj this).symm
    refine ⟨fun v hv hval => ?_, .inr (by rw [hreg]; simp)⟩
    obtain rfl : v = 16 := by
      have : v ∈ List.range' 16 1 := hv
      simpa using this
    rw [hpg, hb.low (PGSIZE * 16) (by decide) (by decide) (by decide)] at hval
    cases hval
  -- the list is empty, so that the nodes stay as they are
  have hR : wlp (takeRegion 0 0x10000 1 N_MMAP none (s.procs 0).mmap)
      (fun _ s1 => s1.nodes = s.nodes) s := by
    rw [hmmap]
    exact rfl
  have hlist : ListFrom s.nodes (s.procs 0).mmap [] := by rw [hmmap]; rfl
  have hneed : need own 0 true 0x10000 1 ≤ l.length := by
    rw [need_eq hb.inv.owned hb.root 1 0x10000 true (by decide)]
    have := pagesNeeded_le s.mem (PGSIZE * r) 1 0x10000 true
    omega
  have hspec := wp_uvmMmap 0x10000 1 (PTE_R ||| PTE_W) hR hb.inv.owned hb.root hpg hlist (by decide)
    (by decide) (by decide) (by decide)
  obtain ⟨⟨⟩, s', hrun, -, s1, own', l', -, hnodes, -, fp⟩ := wp_returns hspec
    (fun _ _ hstop => hstop ⟨by decide, by decide, hneed, by simp [splits]⟩)
  have hsys : sysMmap 0 0x10000 0x1000 s = .ok 0x10000 s' := by
    have h1 : ¬ ((0x1000 : Nat) % 2 ^ 32 = 0 ∨ (0x1000 : Nat) % 2 ^ 32 % PGSIZE ≠ 0) := by decide
    have h2 : ¬ (0x10000 : Nat) = 0 := by decide
    have h3 : ¬ (0x10000 : Nat) % PGSIZE ≠ 0 := by decide
    have h4 : (0x1000 : Nat) % 2 ^ 32 / PGSIZE = 1 := by decide
    simp only [sysMmap, if_neg h1, if_neg h2, if_neg h3, h4, bind_of_ok hrun]
    rfl
  have hstep : Hist.step 0 ⟨s, []⟩ (.mmap 0x10000 0x1000) = some ⟨s', [16]⟩ := by
    have hcall : MemCall.run 0 (.mmap 0x10000 0x1000) s = .ok 0x10000 s' := hsys
    simp only [Hist.step, hcall]
    rfl
  refine ⟨s, ⟨s', [16]⟩, hs, hfit, by simp only [run, hstep], rfl, ?_⟩
  rw [show s'.nodes = s1.nodes from congrArg Rest.nodes fp.rest, hnodes]
  exact hne

/-- After it `munmap(0x10000, 0x1000)` keeps the contract. -/
theorem munmap_releases_first : ∃ s t, boot smallLayout 0 (reset fun _ => 0) = .ok () s ∧
    run (Hist.step 0) ⟨s, []⟩ [.mmap 0x10000 0x1000] = some t ∧
    ReleasesMapped 0 t 0x10000 0x1000 := by
  obtain ⟨s, t, hs, hfit, hrun, hmapped, hpool⟩ := mmap_first
  have hok : RunOk (Hist.step 0) (Fits 0) ⟨s, []⟩ [.mmap 0x10000 0x1000] := by
    refine ⟨hfit, ?_⟩
    split <;> trivial
  refine ⟨s, t, hs, hrun, (munmap_releases_iff hs _ t hok hrun 0x10000 0x1000).mpr (.inr ⟨?_, hpool⟩)⟩
  rw [hmapped]
  exact fun v hv => hv

/-- `munmap(PGSIZE, PGSIZE)` as the first call returns 0, and the code page is gone. -/
theorem munmap_takes_code : ∃ s s', boot smallLayout 0 (reset fun _ => 0) = .ok () s ∧
    sysMunmap 0 PGSIZE PGSIZE s = .ok 0 s' ∧ Reserved s 0 1 ∧
    pteHas (leafPte s.mem (s.procs 0).pgtbl PGSIZE) PTE_V = true ∧
    leafPte s'.mem (s.procs 0).pgtbl PGSIZE = 0 ∧ ¬ ReleasesMapped 0 ⟨s, []⟩ 0x1000 0x1000 := by
  obtain ⟨s, r, f, own, l, free, hs, hb, hpool, hne, -⟩ := boot_small_pool
  have h := hb.memInv hpool
  have hheap : PGSIZE * 1 < (s.procs 0).heapTop := by
    rw [show (s.procs 0).heapTop = 2 * PGSIZE by rw [hb.proc]]
    decide
  have hres : Reserved s 0 1 := .inl ⟨Nat.le_refl 1, hheap⟩
  have hreg : ∀ x ∈ regions s 0, 1 + 1 ≤ x.start ∨ x.stop ≤ 1 := by
    have hnone : (s.procs 0).mmap = none := by rw [hb.proc]
    rw [regions, mmapIds, hnone]
    simp [listIds]
  have hcode : Unmappable smallLayout s.mem (s.procs 0).pgtbl (PGSIZE * 1) :=
    h.low 1 (Nat.le_refl 1) hheap
  obtain ⟨⟨⟩, s', hrun, -, -, -, hgone⟩ := wp_returns
    (wp_uvmMunmap_space (a := 1) (n := 1) h.space h.canonical (by decide) (by decide) (by decide) hreg
      fun i hi => by
        obtain rfl : i = 0 := by omega
        exact hcode) (fun _ _ hstop => hne hstop)
  have hsys : sysMunmap 0 PGSIZE PGSIZE s = .ok 0 s' := by
    have h1 : ¬ (PGSIZE % PGSIZE ≠ 0 ∨ PGSIZE % 2 ^ 32 = 0 ∨ PGSIZE % 2 ^ 32 % PGSIZE ≠ 0) := by
      decide
    have h2 : PGSIZE % 2 ^ 32 / PGSIZE = 1 := by decide
    have hrun' : uvmMunmap 0 PGSIZE 1 s = .ok () s' := hrun
    simp only [sysMunmap, if_neg h1, h2, bind_of_ok hrun']
    rfl
  refine ⟨s, s', hs, hsys, hres, hcode.valid, hgone 0 (by decide), fun hrel => ?_⟩
  have hcall : sysMunmap 0 (0x1000 : UInt64).toNat (0x1000 : UInt64).toNat s = .ok 0 s' := hsys
  rcases wp_ok hrel hcall with ⟨h0, -⟩ | ⟨-, hr⟩
  · exact absurd h0 (by decide)
  · have := hr.mapped 1 (by decide)
    cases this

end Proc
end WhuOS
