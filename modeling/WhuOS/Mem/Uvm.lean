import WhuOS.Mem.Vmem

/-!
# WhuOS.Mem.Uvm

The pool of `kernel/mem/mmap.c` and the user address spaces of `kernel/mem/uvm.c`. A process's
`mmap` list is singly linked; a walk along it that takes more steps than there are nodes never
ends.
-/

namespace WhuOS
namespace Mem

open Lib Kern Sched

/-! ## `mmap.c` -/

def getNode (i : NodeId) : MemM MmapNode := return (← get).nodes i

def setNode (i : NodeId) (f : MmapNode → MmapNode) : MemM Unit :=
  modify fun s => { s with nodes := Function.update s.nodes i (f (s.nodes i)) }

@[simp] theorem wp_getNode {i : NodeId} {s : Machine} {Q : MmapNode → Machine → Prop}
    {E : Stop → Machine → Prop} : wp (getNode i) Q E s ↔ Q (s.nodes i) s := Iff.rfl

@[simp] theorem wp_setNode {i : NodeId} {f : MmapNode → MmapNode} {s : Machine}
    {Q : Unit → Machine → Prop} {E : Stop → Machine → Prop} :
    wp (setNode i f) Q E s ↔
      Q () { s with nodes := Function.update s.nodes i (f (s.nodes i)) } := Iff.rfl

/-- `list_head`, the node that is never handed out. -/
def listHead : NodeId := 0

/-- `mmap_init`: the nodes `1 .. N_MMAP - 1` in turn go to the front of the pool. -/
@[irreducible] def mmapInit : MemM Unit := do
  setNode listHead fun n => { n with poolNext := none }
  Kern.forFrom (fun k => do
    let h ← getNode listHead
    let i : NodeId := Fin.ofNat N_MMAP k
    setNode i fun n => { n with poolNext := h.poolNext }
    setNode listHead fun n => { n with poolNext := some i }) 1 (N_MMAP - 1)

def mmapRegionAlloc : MemM NodeId := do
  match (← getNode listHead).poolNext with
  | none => Kern.panic "mmap_region_alloc: no available mmap_region"
  | some i =>
    let node ← getNode i
    setNode listHead fun n => { n with poolNext := node.poolNext }
    setNode i fun n => { n with beginAddr := 0, npages := 0, next := none }
    return i

def mmapRegionFree (i : NodeId) : MemM Unit := do
  let h ← getNode listHead
  setNode i fun n => { n with poolNext := h.poolNext }
  setNode listHead fun n => { n with poolNext := some i }

/-- `npages * PGSIZE` on `uint32`. -/
def regionBytes (npages : Nat) : Nat := PGSIZE * npages % 2 ^ 32

/-- `begin + npages * PGSIZE` on `uint64`, the product on `uint32`. -/
def regionEnd (n : MmapNode) : Nat := (n.beginAddr + regionBytes n.npages) % 2 ^ 64

/-! ## `uvm.c`: copying and destroying a page table -/

/-- The copy of one page into the table `new`, in `copy_range` and `uvm_copy_pgtbl`. -/
def copyPage (L : Layout) (new va pte page : Nat) : MemM Unit := do
  touch (kernelWrites L) page
  touch (kernelReads L) (pteToPa pte)
  memmove page (pteToPa pte) PGSIZE
  vmMappages new va page PGSIZE (pteFlags pte)

def copyRange (L : Layout) (old new beginVa endVa : Nat) : MemM Unit :=
  forPages beginVa endVa fun va => do
    match ← vmGetpte old va false with
    | none => Kern.panic "uvm_copy_pgtbl: pte == NULL"
    | some a =>
      let pte ← load64 a
      Kern.assert (pteHas pte PTE_V) "uvm_copy_pgtbl: pte not valid"
      let page ← pmemAlloc false
      copyPage L new va pte page

abbrev MMAP_END : Nat := VA_MAX - 34 * PGSIZE
abbrev MMAP_BEGIN : Nat := MMAP_END - 8096 * PGSIZE

def uvmCopyPgtbl (L : Layout) (old new heapTop ustackPages : Nat) : MemM Unit := do
  copyRange L old new PGSIZE heapTop
  copyRange L old new (TRAPFRAME - regionBytes ustackPages) TRAPFRAME
  forPages MMAP_BEGIN MMAP_END fun va => do
    match ← vmGetpte old va false with
    | none => return ()
    | some a =>
      let pte ← load64 a
      if pteHas pte PTE_V then
        let page ← pmemAlloc false
        if page = 0 then Kern.panic "uvm_copy_pgtbl: out of memory for mmap"
        copyPage L new va pte page

def destroyPgtbl : Nat → Nat → MemM Unit
  | 0, pgtbl => do
    Kern.forFrom (fun i => do
      let pte ← load64 (pgtbl + 8 * i)
      if pteHas pte PTE_V then pmemFree (pteToPa pte) false) 0 512
    pmemFree pgtbl false
  | level + 1, pgtbl => do
    Kern.forFrom (fun i => do
      let pte ← load64 (pgtbl + 8 * i)
      if pteHas pte PTE_V then
        if pteCheck pte then destroyPgtbl level (pteToPa pte)
        else pmemFree (pteToPa pte) false) 0 512
    pmemFree pgtbl false

def uvmDestroyPgtbl (pgtbl : Nat) : MemM Unit := do
  vmUnmappages pgtbl TRAMPOLINE PGSIZE false
  vmUnmappages pgtbl TRAPFRAME PGSIZE true
  destroyPgtbl 2 pgtbl

/-! ## `uvm.c`: the mmap list -/

/-- The split in `uvm_mmap` of the free region `curr`, which contains `[begin, begin + len)`. -/
def splitRegion (p : Slot) (prev : Option NodeId) (curr : NodeId) (beginVa npages : Nat) :
    MemM Unit := do
  let len := regionBytes npages
  let c ← getNode curr
  if beginVa = c.beginAddr ∧ len = regionBytes c.npages then
    match prev with
    | none => setProc p fun q => { q with mmap := c.next }
    | some i => setNode i fun n => { n with next := c.next }
    mmapRegionFree curr
  else if beginVa = c.beginAddr then
    setNode curr fun n =>
      { n with beginAddr := (n.beginAddr + len) % 2 ^ 64, npages := sub32 n.npages npages }
  else if (beginVa + len) % 2 ^ 64 = regionEnd c then
    setNode curr fun n => { n with npages := sub32 n.npages npages }
  else
    let i ← mmapRegionAlloc
    let above := sub64 (sub64 (regionEnd c) beginVa) len / PGSIZE % 2 ^ 32
    let below := sub64 beginVa c.beginAddr / PGSIZE % 2 ^ 32
    setNode i fun n =>
      { n with beginAddr := (beginVa + len) % 2 ^ 64, npages := above, next := c.next }
    setNode curr fun n => { n with npages := below, next := some i }

/-- The search of `uvm_mmap` along the list for a region that contains the range. -/
def takeRegion (p : Slot) (beginVa npages : Nat) : Nat → Option NodeId → Option NodeId → MemM Unit
  | _, _, none => return ()
  | 0, _, some _ => throw .hang
  | fuel + 1, prev, some curr => do
    let c ← getNode curr
    if beginVa ≥ c.beginAddr ∧ (beginVa + regionBytes npages) % 2 ^ 64 ≤ regionEnd c then
      splitRegion p prev curr beginVa npages
    else
      takeRegion p beginVa npages fuel (some curr) c.next

def uvmMmap (p : Slot) (beginVa npages perm : Nat) : MemM Unit := do
  if npages = 0 then return ()
  Kern.assert (beginVa % PGSIZE = 0) "uvm_mmap: begin not aligned"
  takeRegion p beginVa npages N_MMAP none (← getProc p).mmap
  Kern.forFrom (fun i => do
    let va := (beginVa + regionBytes i) % 2 ^ 64
    let pa ← pmemAlloc false
    if pa = 0 then Kern.panic "uvm_mmap: out of memory"
    memset pa 0 PGSIZE
    vmMappages (← getProc p).pgtbl va pa PGSIZE (perm ||| PTE_U)) 0 npages

/-- `mmap_merge(mmap_1, mmap_2, true)`, the only way it is called. -/
def mmapMerge (i j : NodeId) : MemM Unit := do
  let n1 ← getNode i
  let n2 ← getNode j
  Kern.assert (regionEnd n1 = n2.beginAddr) "mmap_merge: check fail"
  setNode i fun n => { n with npages := (n.npages + n2.npages) % 2 ^ 32 }
  mmapRegionFree j

/-- The search of `uvm_munmap` for the node after which a region at `beginVa` goes. -/
def insertAfter (beginVa : Nat) : Nat → NodeId → MemM NodeId
  | 0, _ => throw .hang
  | fuel + 1, curr => do
    match (← getNode curr).next with
    | none => return curr
    | some i =>
      if (← getNode i).beginAddr < beginVa then insertAfter beginVa fuel i else return curr

/-- The search of `uvm_munmap` for the predecessor of `new`. -/
def findPrev (new : NodeId) : Nat → Option NodeId → Option NodeId → MemM (Option NodeId)
  | _, prev, none => return prev
  | 0, _, some _ => throw .hang
  | fuel + 1, prev, some curr => do
    if curr = new then return prev
    else findPrev new fuel (some curr) (← getNode curr).next

def uvmMunmap (p : Slot) (beginVa npages : Nat) : MemM Unit := do
  if npages = 0 then return ()
  Kern.assert (beginVa % PGSIZE = 0) "uvm_munmap: begin not aligned"
  let new ← mmapRegionAlloc
  setNode new fun n => { n with beginAddr := beginVa, npages := npages, next := none }
  match (← getProc p).mmap with
  | none => setProc p fun q => { q with mmap := some new }
  | some first =>
    if beginVa < (← getNode first).beginAddr then
      setNode new fun n => { n with next := some first }
      setProc p fun q => { q with mmap := some new }
    else
      let curr ← insertAfter beginVa N_MMAP first
      let c ← getNode curr
      setNode new fun n => { n with next := c.next }
      setNode curr fun n => { n with next := some new }
  let n ← getNode new
  match n.next with
  | none => pure ()
  | some j =>
    let toMerge ← getNode j
    if regionEnd n = toMerge.beginAddr then
      setNode new fun n => { n with next := toMerge.next }
      mmapMerge new j
  match ← findPrev new N_MMAP none (← getProc p).mmap with
  | none => pure ()
  | some i =>
    let n ← getNode new
    if regionEnd (← getNode i) = n.beginAddr then
      setNode i fun m => { m with next := n.next }
      mmapMerge i new
  vmUnmappages (← getProc p).pgtbl beginVa (regionBytes npages) true

/-! ## `uvm.c`: the heap -/

def uvmHeapGrow (pgtbl heapTop len : Nat) : MemM Nat := do
  let newHeapTop := (heapTop + len) % 2 ^ 64
  forPages (pgRoundUp heapTop) (pgRoundUp newHeapTop) fun va => do
    let pa ← pmemAlloc false
    if pa = 0 then Kern.panic "uvm_heap_grow: out of memory"
    memset pa 0 PGSIZE
    vmMappages pgtbl va pa PGSIZE (PTE_R ||| PTE_W ||| PTE_U)
  return newHeapTop

def uvmHeapUngrow (pgtbl heapTop len : Nat) : MemM Nat := do
  let newHeapTop := sub64 heapTop len
  let oldAligned := pgRoundUp heapTop
  let newAligned := pgRoundUp newHeapTop
  if newAligned < oldAligned then
    vmUnmappages pgtbl newAligned (PGSIZE * ((oldAligned - newAligned) / PGSIZE)) true
  return newHeapTop

end Mem
end WhuOS
