import WhuOS.Mem.PageFree
import WhuOS.Proc.Heap

/-!
# WhuOS.Proc.Brk

`sys_brk` takes an address of 64 bits and hands a length of 32 bits on. It does what it should exactly
for the arguments whose distance to the old top fits in 32 bits, and for those where the truncated
growth stops for lack of memory.

* `brk_exact_iff`  — when `sys_brk` does what it should.
* `brk_truncates`  — the top 4 GiB further up is refused by nothing, and not reached either.
-/

namespace WhuOS
namespace Proc

open Lib Kern Mem

variable {sh : Nat → Prop} {s s' : Machine} {tab : Nat → Nat → Option Nat} {l : List Nat}
  {r k top newTop : Nat} {p : Sched.Slot}

instance : PageFree Machine.procs :=
  ⟨fun _ _ => rfl, fun _ _ => rfl, fun _ _ => rfl, fun _ _ => rfl, fun _ _ => rfl⟩

/-- Where the stack of a process begins. -/
def stackBottom (q : Mem.Proc) : Nat := TRAPFRAME - PGSIZE * q.ustackPages

/-- A process with a tight heap that ends a page below the stack at the latest. -/
structure BrkProc (sh : Nat → Prop) (p : Sched.Slot) (s : Machine) (tab : Nat → Nat → Option Nat)
    (l : List Nat) (r k : Nat) : Prop where
  heap : Heap sh s tab l r k (s.procs p).heapTop
  pgtbl : (s.procs p).pgtbl = PGSIZE * r
  stack : PGSIZE * k + PGSIZE * (s.procs p).ustackPages = TRAPFRAME
  room : PGSIZE + (s.procs p).heapTop ≤ PGSIZE * k

def withTop (p : Sched.Slot) (s : Machine) (top : Nat) : Machine :=
  { s with procs := Function.update s.procs p { s.procs p with heapTop := top } }

def setTop (p : Sched.Slot) (top : Nat) : MemM Nat := do
  setProc p fun q => { q with heapTop := top }
  return (← getProc p).heapTop

theorem setTop_run : setTop p top s = .ok top (withTop p s top) := by
  have h : (withTop p s top).procs p = { s.procs p with heapTop := top } := Function.update_self ..
  show EStateM.Result.ok ((withTop p s top).procs p).heapTop (withTop p s top) = _
  rw [h]

/-- The top that is left of `newTop` when the length has been cut to 32 bits. -/
def brkReached (heapTop newTop : Nat) : Nat :=
  if heapTop < newTop then heapTop + (newTop - heapTop) % 2 ^ 32
  else heapTop - (heapTop - newTop) % 2 ^ 32

/-- What `sys_brk` should do. -/
structure BrkExact (p : Sched.Slot) (s : Machine) (newTop : Nat) : Prop where
  query : newTop = 0 → sysBrk p newTop s = .ok (s.procs p).heapTop s
  refused : newTop ≠ 0 → newTop < 2 * PGSIZE ∨ stackBottom (s.procs p) < PGSIZE + newTop →
    sysBrk p newTop s = .ok MINUS_ONE s
  moved : 2 * PGSIZE ≤ newTop → PGSIZE + newTop ≤ stackBottom (s.procs p) → ∀ res s',
    sysBrk p newTop s = .ok res s' → (res = MINUS_ONE ∧ s' = s) ∨
      (res = newTop ∧
        s'.procs = Function.update s.procs p { s.procs p with heapTop := newTop } ∧
        HeapMapped s' (s.procs p).pgtbl (stackBottom (s.procs p)) newTop)

/-- An argument in range is less than 4 GiB away from the old top, or the rest of its distance above
whole multiples of 4 GiB takes more free pages than there are. -/
def BrkFits (p : Sched.Slot) (s : Machine) (l : List Nat) (newTop : Nat) : Prop :=
  let q := s.procs p
  2 * PGSIZE ≤ newTop → PGSIZE + newTop ≤ stackBottom q →
    (newTop < q.heapTop + 2 ^ 32 ∧ q.heapTop < newTop + 2 ^ 32) ∨
    (q.heapTop < newTop ∧ l.length < growDemand s.mem q.pgtbl q.heapTop ((newTop - q.heapTop) % 2 ^ 32))

namespace BrkProc

theorem bottom (h : BrkProc sh p s tab l r k) : stackBottom (s.procs p) = PGSIZE * k := by
  have := h.stack
  rw [stackBottom]; omega

theorem limit_eq (h : BrkProc sh p s tab l r k) :
    sub64 (sub64 TRAPFRAME (PGSIZE * (s.procs p).ustackPages % 2 ^ 64)) PGSIZE + PGSIZE = PGSIZE * k := by
  have h1 := h.stack
  have h2 := h.room
  simp only [sub64, TRAPFRAME, TRAMPOLINE, VA_MAX, PGSIZE] at *; omega

theorem run_eq (h : BrkProc sh p s tab l r k) (h2 : 2 * PGSIZE ≤ newTop)
    (hk : PGSIZE + newTop ≤ PGSIZE * k) : sysBrk p newTop s =
      (if newTop > (s.procs p).heapTop then
        uvmHeapGrow (PGSIZE * r) (s.procs p).heapTop ((newTop - (s.procs p).heapTop) % 2 ^ 32) >>= setTop p
      else if newTop < (s.procs p).heapTop then
        uvmHeapUngrow (PGSIZE * r) (s.procs p).heapTop (((s.procs p).heapTop - newTop) % 2 ^ 32) >>= setTop p
      else return (s.procs p).heapTop) s := by
  have h0 : newTop ≠ 0 := by simp only [PGSIZE] at *; omega
  have hlim := h.limit_eq
  rw [sysBrk, bind_of_ok (show getProc p s = .ok (s.procs p) s from rfl), if_neg h0,
    if_neg (by omega), if_neg (by omega), ← h.pgtbl]
  split
  · rfl
  · split <;> rfl

/-- An argument in range: the heap ends at the top that is left of it, or the growth there stops. -/
theorem run_spec (h : BrkProc sh p s tab l r k) (h2 : 2 * PGSIZE ≤ newTop)
    (hk : PGSIZE + newTop ≤ PGSIZE * k) :
    (∃ s', sysBrk p newTop s = .ok (brkReached (s.procs p).heapTop newTop) s' ∧
      s'.procs = Function.update s.procs p
        { s.procs p with heapTop := brkReached (s.procs p).heapTop newTop } ∧
      HeapMapped s' (PGSIZE * r) (PGSIZE * k) (brkReached (s.procs p).heapTop newTop) ∧
      ((s.procs p).heapTop < newTop → growDemand s.mem (PGSIZE * r) (s.procs p).heapTop
        ((newTop - (s.procs p).heapTop) % 2 ^ 32) ≤ l.length)) ∨
    (∃ e s', sysBrk p newTop s = .error e s' ∧ (s.procs p).heapTop < newTop ∧
      l.length < growDemand s.mem (PGSIZE * r) (s.procs p).heapTop
        ((newTop - (s.procs p).heapTop) % 2 ^ 32)) := by
  have hold := h.room
  have hva := h.heap.limit
  rw [h.run_eq h2 hk]
  rcases Nat.lt_trichotomy (s.procs p).heapTop newTop with hlt | heq | hgt
  · rw [if_pos hlt, brkReached, if_pos hlt]
    have hmod := Nat.mod_le (newTop - (s.procs p).heapTop) (2 ^ 32)
    have hret := heapGrow_returns_iff h.heap.frames h.heap.root (by omega) fun w hw =>
      h.heap.own w (Nat.lt_of_lt_of_le hw (pagesFor_le_iff.mpr
        (show (s.procs p).heapTop + (newTop - (s.procs p).heapTop) % 2 ^ 32 ≤ PGSIZE * k by omega)))
    rcases h.heap.grow ((newTop - (s.procs p).heapTop) % 2 ^ 32) (by omega) with
      ⟨new, s', tab', l', hrun, -, h'⟩ | ⟨msg, s', hrun, -⟩
    · refine .inl ⟨_, (bind_of_ok hrun).trans setTop_run, ?_, (h'.withProcs _).mapped, fun _ => hret.mp ⟨s', hrun⟩⟩
      have hprocs : s'.procs = s.procs := Keeps.of_ok (keeps_uvmHeapGrow _ _ _) hrun
      rw [withTop, hprocs]
    · refine .inr ⟨_, s', bind_of_error hrun, hlt, ?_⟩
      by_contra hle
      obtain ⟨s1, h1⟩ := hret.mpr (by omega)
      rw [hrun] at h1; cases h1
  · rw [if_neg (by omega), if_neg (by omega), brkReached, if_neg (by omega), heq, Nat.sub_self,
      Nat.zero_mod, Nat.sub_zero]
    refine .inl ⟨s, by rw [← heq]; rfl, ?_, ?_, fun hlt => absurd hlt (Nat.lt_irrefl _)⟩
    · rw [← heq]; exact (Function.update_eq_self p s.procs).symm
    · rw [← heq]; exact h.heap.mapped
  · rw [if_neg (by omega), if_pos hgt, brkReached, if_neg (by omega)]
    have hmod := Nat.mod_le ((s.procs p).heapTop - newTop) (2 ^ 32)
    obtain ⟨s', hrun, -, h'⟩ := h.heap.ungrow (((s.procs p).heapTop - newTop) % 2 ^ 32) (by omega)
    refine .inl ⟨_, (bind_of_ok hrun).trans setTop_run, ?_, (h'.withProcs _).mapped, fun hlt => by omega⟩
    have hprocs : s'.procs = s.procs := Keeps.of_ok (keeps_uvmHeapUngrow _ _ _) hrun
    rw [withTop, hprocs]

end BrkProc

/-- `sys_brk` does what it should if and only if the length fits or the memory does not suffice. -/
theorem brk_exact_iff (h : BrkProc sh p s tab l r k) : BrkExact p s newTop ↔ BrkFits p s l newTop := by
  have hold := h.room
  have hva := h.heap.limit
  constructor
  · -- an argument too far away is answered with another top
    intro he h2 hk
    have hmoved := he.moved h2 hk
    rw [h.bottom] at hk
    by_contra hfits
    rw [not_or, h.pgtbl] at hfits
    rcases h.run_spec h2 hk with ⟨s', hrun, -⟩ | ⟨e, s', -, hshort⟩
    · have hres := hmoved _ _ hrun
      simp only [brkReached, MINUS_ONE, VA_MAX, PGSIZE] at *
      rcases hres with ⟨hres, -⟩ | ⟨hres, -⟩ <;> split at hres <;> omega
    · exact hfits.2 hshort
  · intro hfits
    refine ⟨fun h0 => ?_, fun h0 hout => ?_, fun h2 hk res s' hrun => .inr ?_⟩
    · rw [sysBrk, bind_of_ok (show getProc p s = .ok (s.procs p) s from rfl), if_pos h0]
      rfl
    · have hlim := h.limit_eq
      rw [h.bottom] at hout
      rw [sysBrk, bind_of_ok (show getProc p s = .ok (s.procs p) s from rfl), if_neg h0]
      by_cases hlow : newTop < 2 * PGSIZE
      · rw [if_pos hlow]; rfl
      · rw [if_neg hlow, if_pos (by omega)]; rfl
    · have hf := hfits h2 hk
      rw [h.bottom] at hk ⊢
      rw [h.pgtbl] at hf ⊢
      rcases h.run_spec h2 hk with ⟨s1, h1, hprocs, hm, hdem⟩ | ⟨e, s1, h1, -⟩
      · have hreach : brkReached (s.procs p).heapTop newTop = newTop := by
          unfold brkReached
          rcases hf with hf | ⟨hlt, hshort⟩
          · split <;> omega
          · have := hdem hlt; omega
        rw [h1] at hrun
        cases hrun
        rw [hreach] at hprocs hm ⊢
        exact ⟨rfl, hprocs, hm⟩
      · rw [h1] at hrun; cases hrun

/-- A process with an empty heap and a stack of two pages. -/
def emptyHeap : Machine :=
  { taken fourPages false 1 with
    procs := fun _ => ⟨1, .running, none, none, PGSIZE * 1, 2 * PGSIZE, 2, none, 0⟩ }

theorem brkProc_emptyHeap : ∃ tab, BrkProc (fun _ => False) 0 emptyHeap tab [2, 3, 4] 1 0x3fffffc := by
  obtain ⟨tab, h⟩ := heap_root (fun _ => False) 0x3fffffc freeList_fourPages
    inUser_fourPages (by decide) (by decide) fun _ _ => id
  exact ⟨tab, h.withProcs _, rfl, by decide, by decide⟩

/-- 4 GiB further up: `sys_brk` returns the old top and moves nothing. -/
theorem brk_truncates : (∃ tab, BrkProc (fun _ => False) 0 emptyHeap tab [2, 3, 4] 1 0x3fffffc) ∧
    (∃ s', sysBrk 0 (2 * PGSIZE + 2 ^ 32) emptyHeap = .ok (2 * PGSIZE) s') ∧
    ¬ BrkExact 0 emptyHeap (2 * PGSIZE + 2 ^ 32) := by
  obtain ⟨res, s', hrun, hres⟩ := exists_of_returns (p := fun res => decide (res = 2 * PGSIZE))
    (r := sysBrk 0 (2 * PGSIZE + 2 ^ 32) emptyHeap) (by decide +kernel)
  rw [of_decide_eq_true hres] at hrun
  refine ⟨brkProc_emptyHeap, ⟨s', hrun⟩, fun he => ?_⟩
  rcases he.moved (by decide) (by decide) _ _ hrun with ⟨hres, -⟩ | ⟨hres, -⟩
  · exact absurd hres (by decide)
  · exact absurd hres (by decide)

theorem brk_exact_iff_page : BrkExact 0 emptyHeap (2 * PGSIZE + 1) := by
  obtain ⟨tab, h⟩ := brkProc_emptyHeap
  exact (brk_exact_iff h).mpr fun _ _ => .inl (by decide)

end Proc
end WhuOS
