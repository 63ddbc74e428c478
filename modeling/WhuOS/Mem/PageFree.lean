import WhuOS.Mem.Copy
import WhuOS.Mem.Uvm

/-!
# WhuOS.Mem.PageFree

What the page code leaves alone: everything but the memory, the two regions of the allocator and the
history variables. It is said for any function of the state that does not look at these (`PageFree`), so
that the process table and the mmap lists each get it from here.
-/

namespace WhuOS
namespace Mem

open Lib Sched Kern

/-- `f` does not look at what the page code changes. -/
class PageFree {γ : Type} (f : Machine → γ) : Prop where
  mem : ∀ s m, f { s with mem := m } = f s
  kern : ∀ s r, f { s with kern := r } = f s
  user : ∀ s r, f { s with user := r } = f s
  accesses : ∀ s l, f { s with accesses := l } = f s
  starved : ∀ s b, f { s with starved := b } = f s

variable {γ : Type} {f : Machine → γ}

theorem keeps_getProc (p : Slot) : Keeps f (getProc p) := fun _ => rfl

theorem keeps_getNode (i : NodeId) : Keeps f (getNode i) := fun _ => rfl

theorem keeps_load64 (a : Nat) : Keeps f (load64 a) := fun _ => rfl

theorem keeps_touch (ok : Nat → Bool) (page : Nat) : Keeps f (touch ok page) :=
  .ite (.pure _) (.throw _)

theorem keeps_getRegion (k : Bool) : Keeps f (getRegion k) := fun _ => rfl

theorem keeps_forPages (b e : Nat) {body : Nat → MemM Unit} (h : ∀ va, Keeps f (body va)) :
    Keeps f (forPages b e body) := .forFrom (fun _ => h _) _ _

variable [PageFree f]

theorem keeps_store64 (a v : Nat) : Keeps f (store64 a v) := fun s => PageFree.mem s _

theorem keeps_memset (dst : Nat) (c : UInt8) (n : Nat) : Keeps f (memset dst c n) :=
  fun s => PageFree.mem s _

theorem keeps_memmove (dst src n : Nat) : Keeps f (memmove dst src n) :=
  fun s => PageFree.mem s _

theorem keeps_setRegion (k : Bool) (r : Region) : Keeps f (setRegion k r) := by
  cases k with
  | true => exact fun s => PageFree.kern s r
  | false => exact fun s => PageFree.user s r

theorem keeps_pushPage (k : Bool) (page : Nat) : Keeps f (pushPage k page) :=
  .bind (keeps_getRegion k) fun _ => .bind (keeps_store64 _ _) fun _ => keeps_setRegion k _

theorem keeps_pmemAlloc (k : Bool) : Keeps f (pmemAlloc k) :=
  .bind (keeps_getRegion k) fun _ =>
    .ite (.bind (keeps_load64 _) fun _ => .bind (keeps_setRegion k _) fun _ =>
      .bind (keeps_memset _ _ _) fun _ => .pure _) (.bind (fun s => PageFree.starved s _) fun _ => .pure _)

theorem keeps_pmemFree (page : Nat) (k : Bool) : Keeps f (pmemFree page k) := by
  have hrest : Keeps f (do memset page 1 PGSIZE; pushPage k page) :=
    .bind (keeps_memset _ _ _) fun _ => keeps_pushPage k page
  refine .bind (keeps_getRegion k) fun r => .ite (.bind (.panic _) fun _ => ?_) ?_ <;>
    exact .ite (.bind (.panic _) fun _ => hrest) hrest

theorem keeps_walkLevel (pgtbl va level : Nat) (alloc : Bool) :
    Keeps f (walkLevel pgtbl va level alloc) :=
  .bind (keeps_load64 _) fun _ => .ite (.pure _) (.ite (.pure _) (.bind (keeps_pmemAlloc false)
    fun _ => .ite (.pure _) (.bind (keeps_memset _ _ _) fun _ =>
      .bind (keeps_store64 _ _) fun _ => .pure _)))

theorem keeps_vmGetpte (pgtbl va : Nat) (alloc : Bool) : Keeps f (vmGetpte pgtbl va alloc) := by
  refine .ite (.bind (.panic _) fun _ => ?_) ?_
  all_goals
    refine .bind (keeps_walkLevel _ _ _ _) fun r => ?_
    cases r with
    | none => exact .pure _
    | some t =>
      refine .bind (keeps_walkLevel _ _ _ _) fun r => ?_
      cases r with
      | none => exact .pure _
      | some t => exact .pure _

theorem keeps_mapLoop (pgtbl endVa perm : Nat) :
    ∀ fuel va pa, Keeps f (mapLoop pgtbl endVa perm fuel va pa) := by
  intro fuel
  induction fuel with
  | zero => intro va pa; exact .throw _
  | succ fuel ih =>
    intro va pa
    refine .bind (keeps_vmGetpte _ _ _) fun r => ?_
    cases r with
    | none => exact .panic _
    | some a => exact .bind (keeps_store64 _ _) fun _ => .ite (.pure _) (ih _ _)

theorem keeps_vmMappages (pgtbl va pa len perm : Nat) :
    Keeps f (vmMappages pgtbl va pa len perm) :=
  .ite (.bind (.panic _) fun _ => keeps_mapLoop _ _ _ _ _ _) (keeps_mapLoop _ _ _ _ _ _)

theorem keeps_unmapPage (pgtbl va : Nat) (freeit : Bool) :
    Keeps f (unmapPage pgtbl va freeit) := by
  refine .bind (keeps_vmGetpte _ _ _) fun r => ?_
  cases r with
  | none => exact .panic _
  | some a =>
    refine .bind (keeps_load64 _) fun v => ?_
    have hfree : Keeps f (do
        if freeit then pmemFree (pteToPa v) false
        store64 a 0) :=
      .ite (.bind (keeps_pmemFree _ _) fun _ => keeps_store64 _ _) (keeps_store64 _ _)
    refine .ite (.bind (.panic _) fun _ => ?_) ?_ <;> exact .ite (.bind (.panic _) fun _ => hfree) hfree

theorem keeps_vmUnmappages (pgtbl va len : Nat) (freeit : Bool) :
    Keeps f (vmUnmappages pgtbl va len freeit) := by
  have hloop : Keeps f (forPages va ((va + PGSIZE * max (pgRoundUp len / PGSIZE) 1) % 2 ^ 64)
      fun va => unmapPage pgtbl va freeit) := keeps_forPages _ _ fun va => keeps_unmapPage pgtbl va freeit
  exact .ite (.bind (.panic _) fun _ => hloop) hloop

theorem keeps_copyPage (L : Layout) (new va pte page : Nat) :
    Keeps f (copyPage L new va pte page) :=
  .bind (keeps_touch _ _) fun _ => .bind (keeps_touch _ _) fun _ =>
    .bind (keeps_memmove _ _ _) fun _ => keeps_vmMappages _ _ _ _ _

theorem keeps_copyRange (L : Layout) (old new b e : Nat) :
    Keeps f (copyRange L old new b e) := by
  refine keeps_forPages b e fun va => .bind (keeps_vmGetpte _ _ _) fun r => ?_
  cases r with
  | none => exact .panic _
  | some a =>
    exact .bind (keeps_load64 _) fun _ => .bind (.assert _ _) fun _ =>
      .bind (keeps_pmemAlloc false) fun _ => keeps_copyPage L _ _ _ _

theorem keeps_uvmCopyPgtbl (L : Layout) (old new heapTop ustackPages : Nat) :
    Keeps f (uvmCopyPgtbl L old new heapTop ustackPages) := by
  refine .bind (keeps_copyRange L _ _ _ _) fun _ => .bind (keeps_copyRange L _ _ _ _) fun _ =>
    keeps_forPages _ _ fun va => .bind (keeps_vmGetpte _ _ _) fun r => ?_
  cases r with
  | none => exact .pure _
  | some a =>
    exact .bind (keeps_load64 _) fun _ => .ite (.bind (keeps_pmemAlloc false) fun _ =>
      .ite (.bind (.panic _) fun _ => keeps_copyPage L _ _ _ _) (keeps_copyPage L _ _ _ _)) (.pure _)

theorem keeps_destroyPgtbl : ∀ level pgtbl, Keeps f (destroyPgtbl level pgtbl) := by
  intro level
  induction level with
  | zero =>
    intro pgtbl
    exact .bind (.forFrom (fun i => .bind (keeps_load64 _) fun _ =>
      .ite (keeps_pmemFree _ _) (.pure _)) _ _) fun _ => keeps_pmemFree _ _
  | succ level ih =>
    intro pgtbl
    exact .bind (.forFrom (fun i => .bind (keeps_load64 _) fun _ =>
      .ite (.ite (ih _) (keeps_pmemFree _ _)) (.pure _)) _ _) fun _ => keeps_pmemFree _ _

theorem keeps_uvmDestroyPgtbl (pgtbl : Nat) : Keeps f (uvmDestroyPgtbl pgtbl) :=
  .bind (keeps_vmUnmappages _ _ _ _) fun _ => .bind (keeps_vmUnmappages _ _ _ _) fun _ =>
    keeps_destroyPgtbl _ _

theorem keeps_uvmHeapGrow (pgtbl heapTop len : Nat) : Keeps f (uvmHeapGrow pgtbl heapTop len) := by
  refine .bind (keeps_forPages _ _ fun va => .bind (keeps_pmemAlloc false) fun _ => ?_) fun _ => .pure _
  exact .ite (.bind (.panic _) fun _ => .bind (keeps_memset _ _ _) fun _ => keeps_vmMappages _ _ _ _ _)
    (.bind (keeps_memset _ _ _) fun _ => keeps_vmMappages _ _ _ _ _)

theorem keeps_uvmHeapUngrow (pgtbl heapTop len : Nat) :
    Keeps f (uvmHeapUngrow pgtbl heapTop len) :=
  .ite (.bind (keeps_vmUnmappages _ _ _ _) fun _ => .pure _) (.pure _)

theorem keeps_mmapPages (p : Slot) (beginVa n perm : Nat) : Keeps f (Kern.forFrom (fun i => do
    let va := (beginVa + regionBytes i) % 2 ^ 64
    let pa ← pmemAlloc false
    if pa = 0 then Kern.panic "uvm_mmap: out of memory"
    memset pa 0 PGSIZE
    vmMappages (← getProc p).pgtbl va pa PGSIZE perm) 0 n) :=
  .forFrom (fun _ => .bind (keeps_pmemAlloc false) fun _ => .ite
    (.bind (.panic _) fun _ => .bind (keeps_memset _ _ _) fun _ => .bind (keeps_getProc p)
      fun _ => keeps_vmMappages _ _ _ _ _)
    (.bind (keeps_memset _ _ _) fun _ => .bind (keeps_getProc p)
      fun _ => keeps_vmMappages _ _ _ _ _)) _ _

theorem keeps_userMove (L : Layout) (write : Bool) (pte pa k n : Nat) :
    Keeps f (userMove L write pte pa k n) :=
  .bind (keeps_touch _ _) fun _ => .bind (fun s => PageFree.accesses s _) fun _ =>
    .ite (keeps_memmove _ _ _) (keeps_memmove _ _ _)

theorem keeps_copyLoop (L : Layout) (write : Bool) (msg : String) (pgtbl : Nat) :
    ∀ fuel u k len, Keeps f (copyLoop L write msg pgtbl fuel u k len) := by
  intro fuel
  induction fuel with
  | zero => intro u k len; exact .ite (.pure _) (.throw _)
  | succ fuel ih =>
    intro u k len
    refine .ite (.pure _) (.bind (keeps_vmGetpte _ _ _) fun r => ?_)
    cases r with
    | none => exact .panic _
    | some a =>
      exact .bind (keeps_load64 _) fun _ => .ite
        (.bind (.panic _) fun _ => .bind (keeps_userMove _ _ _ _ _ _) fun _ => ih _ _ _)
        (.bind (keeps_userMove _ _ _ _ _ _) fun _ => ih _ _ _)

end Mem
end WhuOS
