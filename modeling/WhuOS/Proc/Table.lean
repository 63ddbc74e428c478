import Mathlib.Tactic.ByCases
import WhuOS.Lib.Update
import WhuOS.Mem.PageFree
import WhuOS.Proc.Model

/-!
# WhuOS.Proc.Table

The process table by itself: what `proc_fork`, `proc_exit` and `proc_wait` do to `pid`, `state`,
`parent` and `sleep_space`, whatever the memory code does. All that the table sees of the memory is
how a fork ends.

`step_table` is the connection: every call of `WhuOS.Proc.Model` that returns is the step of its own
kind here.
-/

namespace WhuOS
namespace Proc

open Lib Mem Sched Kern

structure Entry where
  pid : Int
  state : PState
  parent : Option Slot
  sleepSpace : Option Slot
  deriving DecidableEq

structure Table where
  procs : Slot → Entry
  proczero : Option Slot
  globalPid : Int

/-- How `proc_fork` ends once it has found a slot: no page for the trapframe, none for the stack,
or a child. -/
inductive ForkEnd where
  | noTrapframe
  | noStack
  | child

namespace Table

def set (t : Table) (p : Slot) (e : Entry) : Table := { t with procs := upd t.procs p e }

/-- What `proc_free` leaves of an entry. -/
def freed : Entry := ⟨0, .unused, none, none⟩

def findUnused (t : Table) : Option Slot :=
  (List.finRange NPROC).find? fun i => (t.procs i).state = .unused

def fork (t : Table) (p : Slot) (e : ForkEnd) : Option Table :=
  match t.findUnused with
  | none => some t
  | some np =>
    if 0 ≤ t.globalPid then
      let t' := { t with globalPid := incInt t.globalPid }
      match e with
      | .noTrapframe => some (t'.set np { t.procs np with pid := t.globalPid })
      | .noStack => some (t'.set np freed)
      | .child => some (t'.set np ⟨t.globalPid, .runnable, some p, none⟩)
    else none

def reparent (t : Table) (parent : Slot) : Table :=
  { t with
    procs := fun i =>
      if (t.procs i).parent = some parent then { t.procs i with parent := t.proczero }
      else t.procs i }

def wakeupOne (t : Table) (p : Slot) : Table :=
  t.set p (if (t.procs p).state = .sleeping ∧ (t.procs p).sleepSpace = some p then
    { t.procs p with state := .runnable } else t.procs p)

def exit (t : Table) (p : Slot) : Option Table :=
  if t.proczero = some p then none
  else
    let t1 := t.reparent p
    match (t1.procs p).parent with
    | none => none
    | some parent =>
      let t2 := t1.wakeupOne parent
      some (t2.set p { t2.procs p with state := .zombie })

def findZombie (t : Table) (p : Slot) : Option Slot :=
  (List.finRange NPROC).find? fun i => (t.procs i).parent = some p ∧ (t.procs i).state = .zombie

def haveKids (t : Table) (p : Slot) : Bool :=
  (List.finRange NPROC).any fun i => (t.procs i).parent = some p

def wait (t : Table) (p : Slot) : Table :=
  let t := t.set p { t.procs p with sleepSpace := none }
  match t.findZombie p with
  | some pp => t.set pp freed
  | none =>
    if t.haveKids p then t.set p { t.procs p with sleepSpace := some p, state := .sleeping } else t

inductive Action where
  | fork (p : Slot) (e : ForkEnd)
  | exit (p : Slot)
  | wait (p : Slot)
  /-- A call that leaves the table alone. -/
  | other (p : Slot)

def Action.caller : Action → Slot
  | .fork p _ | .exit p | .wait p | .other p => p

def act (t : Table) : Action → Option Table
  | .fork p e => t.fork p e
  | .exit p => t.exit p
  | .wait p => some (t.wait p)
  | .other _ => some t

def step (t : Table) (a : Action) : Option Table :=
  if (t.procs a.caller).state = .runnable then t.act a else none

@[simp] theorem set_procs (t : Table) (p : Slot) (e : Entry) : (t.set p e).procs = upd t.procs p e :=
  rfl

@[simp] theorem set_proczero (t : Table) (p : Slot) (e : Entry) :
    (t.set p e).proczero = t.proczero := rfl

@[simp] theorem set_set (t : Table) (p : Slot) (e e' : Entry) : (t.set p e).set p e' = t.set p e' := by
  simp [set]

end Table

section PageFree

variable {γ : Type} {f : Machine → γ} [PageFree f]

theorem keeps_setExitState (L : Layout) (p : Slot) (v : Nat) : Keeps f (setExitState L p v) :=
  fun s => PageFree.mem s _

theorem keeps_procPgtblInit (L : Layout) (tf : Nat) : Keeps f (procPgtblInit L tf) := by
  have hrest : ∀ pgtbl, Keeps f (do
      memset pgtbl 0 PGSIZE
      vmMappages pgtbl TRAMPOLINE L.trampoline PGSIZE (PTE_R ||| PTE_X)
      vmMappages pgtbl TRAPFRAME tf PGSIZE (PTE_R ||| PTE_W)
      return pgtbl) := fun pgtbl =>
    .bind (keeps_memset _ _ _) fun _ => .bind (keeps_vmMappages _ _ _ _ _) fun _ =>
      .bind (keeps_vmMappages _ _ _ _ _) fun _ => .pure _
  exact .bind (keeps_pmemAlloc false) fun pgtbl => .ite (.bind (.panic _) fun _ => hrest pgtbl)
    (hrest pgtbl)

end PageFree

/-! ## The table of a machine -/

def entry (q : Mem.Proc) : Entry := ⟨q.pid, q.state, q.parent, q.sleepSpace⟩

def table (s : Machine) : Table where
  procs := fun i => entry (s.procs i)
  proczero := s.proczero
  globalPid := s.globalPid

instance : PageFree table :=
  ⟨fun _ _ => rfl, fun _ _ => rfl, fun _ _ => rfl, fun _ _ => rfl, fun _ _ => rfl⟩

@[simp] theorem table_procs (s : Machine) (p : Slot) : (table s).procs p = entry (s.procs p) := rfl

theorem wlp_setProc (p : Slot) (f : Mem.Proc → Mem.Proc) (s : Machine) :
    wlp (setProc p f) (fun _ s' => table s' = (table s).set p (entry (f (s.procs p))) ∧
      s'.procs p = f (s.procs p)) s := by
  refine ⟨?_, ?_⟩
  · simp only [table, Table.set]
    congr 1
    funext i
    simp only [upd, Function.update]
    split
    · rename_i h; subst h; rfl
    · rfl
  · exact Function.update_self p _ _

theorem keeps_setProc (p : Slot) {f : Mem.Proc → Mem.Proc} (h : ∀ q, entry (f q) = entry q) :
    Keeps table (setProc p f) := by
  intro s
  refine wlp_conseq (wlp_setProc p f s) fun _ s' hs => ?_
  rw [hs.1, h, ← table_procs, Table.set, upd_self]

theorem keeps_setNode (i : NodeId) (f : MmapNode → MmapNode) : Keeps table (setNode i f) :=
  fun _ => rfl

theorem keeps_mmapRegionAlloc : Keeps table mmapRegionAlloc := by
  refine .bind (keeps_getNode _) fun n => ?_
  cases n.poolNext with
  | none => exact .panic _
  | some i =>
    exact .bind (keeps_getNode _) fun _ => .bind (keeps_setNode _ _) fun _ =>
      .bind (keeps_setNode _ _) fun _ => .pure _

theorem keeps_mmapRegionFree (i : NodeId) : Keeps table (mmapRegionFree i) :=
  .bind (keeps_getNode _) fun _ => .bind (keeps_setNode _ _) fun _ => keeps_setNode _ _

theorem keeps_splitRegion (p : Slot) (prev : Option NodeId) (curr : NodeId) (b n : Nat) :
    Keeps table (splitRegion p prev curr b n) := by
  refine .bind (keeps_getNode _) fun c => .ite ?_ (.ite (keeps_setNode _ _) (.ite (keeps_setNode _ _) ?_))
  · cases prev with
    | none => exact .bind (keeps_setProc p fun _ => rfl) fun _ => keeps_mmapRegionFree _
    | some i => exact .bind (keeps_setNode _ _) fun _ => keeps_mmapRegionFree _
  · exact .bind keeps_mmapRegionAlloc fun _ => .bind (keeps_setNode _ _) fun _ => keeps_setNode _ _

theorem keeps_takeRegion (p : Slot) (b n : Nat) :
    ∀ fuel prev curr, Keeps table (takeRegion p b n fuel prev curr) := by
  intro fuel
  induction fuel with
  | zero =>
    intro prev curr
    cases curr with
    | none => exact .pure _
    | some i => exact .throw _
  | succ fuel ih =>
    intro prev curr
    cases curr with
    | none => exact .pure _
    | some i => exact .bind (keeps_getNode _) fun _ => .ite (keeps_splitRegion _ _ _ _ _) (ih _ _)

theorem keeps_uvmMmap (p : Slot) (b n perm : Nat) : Keeps table (uvmMmap p b n perm) :=
  .ite (.pure _) (.bind (.assert _ _) fun _ => .bind (keeps_getProc p) fun _ =>
    .bind (keeps_takeRegion _ _ _ _ _ _) fun _ => .forFrom (fun _ =>
      .bind (keeps_pmemAlloc false) fun _ => .ite
        (.bind (.panic _) fun _ => .bind (keeps_memset _ _ _) fun _ => .bind (keeps_getProc p)
          fun _ => keeps_vmMappages _ _ _ _ _)
        (.bind (keeps_memset _ _ _) fun _ => .bind (keeps_getProc p)
          fun _ => keeps_vmMappages _ _ _ _ _)) _ _)

theorem keeps_mmapMerge (i j : NodeId) : Keeps table (mmapMerge i j) :=
  .bind (keeps_getNode _) fun _ => .bind (keeps_getNode _) fun _ => .bind (.assert _ _) fun _ =>
    .bind (keeps_setNode _ _) fun _ => keeps_mmapRegionFree _

theorem keeps_insertAfter (b : Nat) : ∀ fuel curr, Keeps table (insertAfter b fuel curr) := by
  intro fuel
  induction fuel with
  | zero => intro curr; exact .throw _
  | succ fuel ih =>
    intro curr
    refine .bind (keeps_getNode _) fun n => ?_
    cases n.next with
    | none => exact .pure _
    | some i => exact .bind (keeps_getNode _) fun _ => .ite (ih _) (.pure _)

theorem keeps_findPrev (new : NodeId) :
    ∀ fuel prev curr, Keeps table (findPrev new fuel prev curr) := by
  intro fuel
  induction fuel with
  | zero =>
    intro prev curr
    cases curr with
    | none => exact .pure _
    | some i => exact .throw _
  | succ fuel ih =>
    intro prev curr
    cases curr with
    | none => exact .pure _
    | some i => exact .ite (.pure _) (.bind (keeps_getNode _) fun _ => ih _ _)

theorem keeps_uvmMunmap (p : Slot) (b n : Nat) : Keeps table (uvmMunmap p b n) := by
  refine .ite (.pure _) (.bind (.assert _ _) fun _ => .bind keeps_mmapRegionAlloc fun new =>
    .bind (keeps_setNode _ _) fun _ => .bind (keeps_getProc p) fun q => ?_)
  have hunmap : Keeps table (do vmUnmappages (← getProc p).pgtbl b (regionBytes n) true) :=
    .bind (keeps_getProc p) fun _ => keeps_vmUnmappages _ _ _ _
  -- however the new node was entered, it may be joined to the next one and to the one before it
  rcases q.mmap with _ | first
  on_goal 1 => refine .bind (keeps_setProc p fun _ => rfl) fun _ => .bind (keeps_getNode _) fun n' => ?_
  on_goal 2 =>
    refine .bind (keeps_getNode _) fun _ => .ite
      (.bind (keeps_setNode _ _) fun _ => .bind (keeps_setProc p fun _ => rfl) fun _ =>
        .bind (keeps_getNode _) fun n' => ?_)
      (.bind (keeps_insertAfter _ _ _) fun _ => .bind (keeps_getNode _) fun _ =>
        .bind (keeps_setNode _ _) fun _ => .bind (keeps_setNode _ _) fun _ =>
          .bind (keeps_getNode _) fun n' => ?_)
  all_goals
    rcases n'.next with _ | j
    on_goal 2 =>
      refine .bind (keeps_getNode _) fun _ => .ite
        (.bind (keeps_setNode _ _) fun _ => .bind (keeps_mmapMerge _ _) fun _ => ?_) ?_
    all_goals
      refine .bind (keeps_getProc p) fun _ => .bind (keeps_findPrev _ _ _ _) fun r => ?_
      cases r with
      | none => exact hunmap
      | some i =>
        exact .bind (keeps_getNode _) fun _ => .bind (keeps_getNode _) fun _ =>
          .ite (.bind (keeps_setNode _ _) fun _ => .bind (keeps_mmapMerge _ _) fun _ => hunmap) hunmap

theorem keeps_freeMmapList : ∀ fuel i, Keeps table (freeMmapList fuel i) := by
  intro fuel
  induction fuel with
  | zero =>
    intro i
    cases i with
    | none => exact .pure _
    | some i => exact .throw _
  | succ fuel ih =>
    intro i
    cases i with
    | none => exact .pure _
    | some i => exact .bind (keeps_getNode _) fun _ => .bind (keeps_mmapRegionFree _) fun _ => ih _

theorem keeps_firstFit (npages : Nat) : ∀ fuel i, Keeps table (firstFit npages fuel i) := by
  intro fuel
  induction fuel with
  | zero =>
    intro i
    cases i with
    | none => exact .pure _
    | some i => exact .throw _
  | succ fuel ih =>
    intro i
    cases i with
    | none => exact .pure _
    | some i => exact .bind (keeps_getNode _) fun _ => .ite (.pure _) (ih _)

theorem keeps_copyMmapList (np : Slot) : ∀ fuel dst src, Keeps table (copyMmapList np fuel dst src) := by
  intro fuel
  induction fuel with
  | zero =>
    intro dst src
    cases src with
    | none => exact .pure _
    | some i => exact .throw _
  | succ fuel ih =>
    intro dst src
    cases src with
    | none => exact .pure _
    | some i =>
      refine .bind keeps_mmapRegionAlloc fun j => .bind (keeps_getNode _) fun _ =>
        .bind (keeps_setNode _ _) fun _ => ?_
      cases dst with
      | none =>
        exact .bind (keeps_setProc np fun _ => rfl) fun _ => .bind (keeps_getNode _) fun _ => ih _ _
      | some k => exact .bind (keeps_setNode _ _) fun _ => .bind (keeps_getNode _) fun _ => ih _ _

/-! ## The process functions -/

theorem wlp_setEntry (p : Slot) {f : Mem.Proc → Mem.Proc} {g : Entry → Entry}
    (h : ∀ q, entry (f q) = g (entry q)) (s : Machine) :
    wlp (setProc p f) (fun _ s' => table s' = (table s).set p (g ((table s).procs p))) s :=
  wlp_conseq (wlp_setProc p f s) fun _ _ hs => by rw [hs.1, h]; rfl

/-- `alloc_pid` takes the next number. -/
def Table.nextPid (t : Table) : Table := { t with globalPid := incInt t.globalPid }

theorem wlp_allocPid (s : Machine) :
    wlp allocPid (fun pid s' => 0 ≤ (table s).globalPid ∧ pid = (table s).globalPid ∧
      table s' = (table s).nextPid) s := by
  simp only [allocPid, wp_bind, wp_get, wp_assert]
  split
  · rename_i h
    have hpos : 0 ≤ s.globalPid := by simpa using h
    exact ⟨hpos, rfl, rfl⟩
  · trivial

theorem wlp_procAlloc (L : Layout) (s : Machine) :
    wlp (procAlloc L) (fun r s' => match (table s).findUnused with
      | none => r = none ∧ table s' = table s
      | some np => 0 ≤ (table s).globalPid ∧ match r with
        | none => table s' = (table s).nextPid.set np
            { (table s).procs np with pid := (table s).globalPid }
        | some p => p = np ∧ table s' = (table s).nextPid.set np
            ⟨(table s).globalPid, .unused, none, none⟩) s := by
  simp only [procAlloc, wp_bind, wp_get]
  have hfind : findUnused s = (table s).findUnused := rfl
  rw [hfind]
  cases h : (table s).findUnused with
  | none => exact ⟨rfl, rfl⟩
  | some np =>
    have hunused : ((table s).procs np).state = .unused := by
      have := List.find?_some h
      exact of_decide_eq_true this
    refine wlp_bind (wlp_allocPid s) fun pid s1 h1 => ?_
    obtain ⟨hpos, rfl, h1⟩ := h1
    refine wlp_bind (wlp_setEntry np (g := fun e => { e with pid := (table s).globalPid })
      (fun _ => rfl) s1) fun _ s2 h2 => ?_
    rw [h1] at h2
    refine wlp_bind (keeps_pmemAlloc (f := table) false s2) fun tf s3 h3 => ?_
    refine wlp_bind (keeps_setProc np (by intro; rfl) s3) fun _ s4 h4 => ?_
    have h4 := h4.trans (h3.trans h2)
    split
    · exact ⟨hpos, h4⟩
    refine wlp_bind (keeps_memset (f := table) _ _ _ s4) fun _ s5 h5 => ?_
    refine wlp_bind (keeps_procPgtblInit (f := table) L tf s5) fun pgtbl s6 h6 => ?_
    refine wlp_bind (keeps_setProc np (by intro; rfl) s6) fun _ s7 h7 => ?_
    have h7 := h7.trans (h6.trans (h5.trans h4))
    split
    · refine wlp_bind (keeps_pmemFree (f := table) _ _ s7) fun _ s8 h8 => ?_
      refine wlp_bind (keeps_setProc np (by intro; rfl) s8) fun _ s9 h9 => ?_
      exact ⟨hpos, h9.trans (h8.trans h7)⟩
    refine wlp_bind (wlp_setEntry np (g := fun e => { e with parent := none, sleepSpace := none })
      (fun _ => rfl) s7) fun _ s8 h8 => ?_
    refine wlp_bind (keeps_setExitState (f := table) L np 0 s8) fun _ s9 h9 => ⟨hpos, rfl, ?_⟩
    rw [h9, h8, h7, Table.set_set]
    simp only [Table.set_procs, upd_same]
    show Table.set _ np ⟨_, ((table s).procs np).state, none, none⟩ = _
    rw [hunused]

theorem wlp_procFree (L : Layout) (p : Slot) (s : Machine) :
    wlp (procFree L p) (fun _ s' => table s' = (table s).set p Table.freed) s := by
  refine wlp_bind (keeps_getProc (f := table) p s) fun q s0 h0 => ?_
  have hlast : ∀ s1, table s1 = table s → wlp (do
      freeMmapList N_MMAP q.mmap
      setProc p fun q =>
        { q with mmap := none, pid := 0, state := .unused, parent := none, sleepSpace := none }
      setProc p fun q => { q with heapTop := 0, ustackPages := 0 }
      setExitState L p 0) (fun _ s' => table s' = (table s).set p Table.freed) s1 := by
    intro s1 h1
    refine wlp_bind (keeps_freeMmapList _ _ s1) fun _ s2 h2 => ?_
    refine wlp_bind (wlp_setEntry p (g := fun _ => Table.freed) (fun _ => rfl) s2) fun _ s3 h3 => ?_
    refine wlp_bind (keeps_setProc p (by intro; rfl) s3) fun _ s4 h4 => ?_
    refine wlp_conseq (keeps_setExitState (f := table) L p 0 s4) fun _ s5 h5 => ?_
    rw [h5, h4, h3, h2, h1]
  have hpgtbl : ∀ s1, table s1 = table s → wlp (do
      if q.pgtbl ≠ 0 then
        uvmDestroyPgtbl q.pgtbl
        setProc p fun q => { q with pgtbl := 0 }
      freeMmapList N_MMAP q.mmap
      setProc p fun q =>
        { q with mmap := none, pid := 0, state := .unused, parent := none, sleepSpace := none }
      setProc p fun q => { q with heapTop := 0, ustackPages := 0 }
      setExitState L p 0) (fun _ s' => table s' = (table s).set p Table.freed) s1 := by
    intro s1 h1
    refine wlp_ite (fun _ => ?_) fun _ => hlast s1 h1
    refine wlp_bind (keeps_uvmDestroyPgtbl (f := table) _ s1) fun _ s2 h2 => ?_
    refine wlp_bind (keeps_setProc p (by intro; rfl) s2) fun _ s3 h3 => ?_
    exact hlast s3 (h3.trans (h2.trans h1))
  refine wlp_ite (fun _ => ?_) fun _ => hpgtbl s0 h0
  refine wlp_bind (keeps_pmemFree (f := table) _ _ s0) fun _ s1 h1 => ?_
  refine wlp_bind (keeps_setProc p (by intro; rfl) s1) fun _ s2 h2 => ?_
  exact hpgtbl s2 (h2.trans (h1.trans h0))

theorem wlp_procFork (L : Layout) (p : Slot) (s : Machine) :
    wlp (procFork L p) (fun _ s' => ∃ e, (table s).fork p e = some (table s')) s := by
  refine wlp_bind (wlp_procAlloc L s) fun r s1 h1 => ?_
  cases hfind : (table s).findUnused with
  | none =>
    rw [hfind] at h1
    obtain ⟨rfl, h1⟩ := h1
    exact ⟨.child, by simp only [Table.fork, hfind]; rw [h1]⟩
  | some np =>
    rw [hfind] at h1
    obtain ⟨hpos, h1⟩ := h1
    cases r with
    | none =>
      refine ⟨.noTrapframe, ?_⟩
      simp only [Table.fork, hfind, if_pos hpos]
      rw [h1]; rfl
    | some np' =>
      obtain ⟨rfl, h1⟩ := h1
      refine Keeps.seq (f := table) (keeps_pmemAlloc false) (fun page s2 h2 => ?_) s1 h1
      split
      · refine wlp_bind (wlp_procFree L np' s2) fun _ s3 h3 => ⟨.noStack, ?_⟩
        simp only [Table.fork, hfind, if_pos hpos]
        rw [h3, h2, Table.set_set]; rfl
      refine Keeps.seq (f := table) (keeps_memset _ _ _) (fun _ => Keeps.seq (keeps_getProc p) fun q =>
        Keeps.seq (keeps_setProc np' (by intro; rfl)) fun _ => Keeps.seq (keeps_getProc np') fun n =>
        Keeps.seq (keeps_vmMappages _ _ _ _ _) fun _ => Keeps.seq (keeps_uvmCopyPgtbl L _ _ _ _) fun _ =>
        Keeps.seq (keeps_setProc np' (by intro; rfl)) fun _ =>
        Keeps.seq (keeps_copyMmapList np' _ _ _) fun _ => Keeps.seq (keeps_memmove _ _ _) fun _ =>
        Keeps.seq (keeps_store64 _ _) fun _ => Keeps.seq (keeps_store64 _ _) fun _ =>
        Keeps.seq (keeps_store64 _ _) fun _ => Keeps.seq (keeps_store64 _ _) fun _ s15 h15 => ?_) s2 h2
      refine wlp_bind (wlp_setEntry np' (g := fun e => { e with parent := some p }) (fun _ => rfl) s15)
        fun _ s16 h16 => ?_
      refine wlp_bind (keeps_getProc (f := table) np' s16) fun n' s17 h17 => ?_
      refine wlp_bind (wlp_setEntry np' (g := fun e => { e with state := .runnable }) (fun _ => rfl) s17)
        fun _ s18 h18 => ⟨.child, ?_⟩
      simp only [Table.fork, hfind, if_pos hpos]
      rw [h18, h17, h16, h15]
      simp only [Table.set_set, Table.set_procs, upd_same]
      rfl

theorem wlp_procWait (L : Layout) (p : Slot) (addr : Nat) (s : Machine) :
    wlp (do
      setProc p fun q => { q with sleepSpace := none }
      let _ ← procWait L p addr) (fun _ s' => table s' = (table s).wait p) s := by
  refine wlp_bind (wlp_setEntry p (g := fun e => { e with sleepSpace := none }) (fun _ => rfl) s)
    fun _ s1 h1 => ?_
  simp only [Table.wait, ← h1]
  refine wlp_bind (Q := fun _ s' => table s' = _) ?_ fun _ _ h => h
  simp only [procWait, wp_bind, wp_get]
  have hfind : findZombie s1 p = (table s1).findZombie p := rfl
  rw [hfind]
  cases (table s1).findZombie p with
  | some pp =>
    refine wlp_ite (fun _ => ?_) fun _ => ?_
    · refine wlp_bind (keeps_copyLoop (f := table) L _ _ _ _ _ _ _ s1) fun _ s2 h2 => ?_
      exact wlp_bind (wlp_procFree L pp s2) fun _ s3 h3 => h3.trans (by rw [h2])
    · exact wlp_bind (wlp_procFree L pp s1) fun _ s3 h3 => h3
  | none =>
    show wlp (if (table s1).haveKids p = true then _ else _) _ s1
    split
    · exact wlp_bind (wlp_setEntry p (g := fun e => { e with sleepSpace := some p, state := .sleeping })
        (fun _ => rfl) s1) fun _ s2 h2 => h2
    · rfl

theorem wlp_procReparent (p : Slot) (s : Machine) :
    wlp (procReparent p) (fun _ s' => table s' = (table s).reparent p) s := by
  show table _ = _
  simp only [table, Table.reparent]
  congr 1
  funext i
  show entry (if (s.procs i).parent = some p then _ else _) =
    if (s.procs i).parent = some p then _ else _
  split <;> rfl

theorem wlp_procWakeupOne (p : Slot) (s : Machine) :
    wlp (procWakeupOne p) (fun _ s' => table s' = (table s).wakeupOne p) s := by
  refine wlp_conseq (wlp_setEntry p (g := fun e => if e.state = .sleeping ∧ e.sleepSpace = some p then
    { e with state := .runnable } else e) (fun q => ?_) s) fun _ _ h => h
  show entry (if q.state = .sleeping ∧ q.sleepSpace = some p then _ else _) =
    if q.state = .sleeping ∧ q.sleepSpace = some p then _ else _
  split <;> rfl

theorem wlp_procExit (L : Layout) (p : Slot) (v : Nat) (s : Machine) :
    wlp (procExit L p v) (fun _ s' => (table s).exit p = some (table s')) s := by
  simp only [procExit, wp_bind, wp_get]
  have hrest : ∀ h : (table s).proczero ≠ some p, wlp (do
      procReparent p
      match (← getProc p).parent with
      | none => throw .fault
      | some parent => procWakeupOne parent
      setExitState L p (v % 2 ^ 32)
      setProc p fun q => { q with state := .zombie })
      (fun _ s' => (table s).exit p = some (table s')) s := by
    intro hzero
    refine wlp_bind (wlp_procReparent p s) fun _ s1 h1 => ?_
    refine wlp_bind (Q := fun q s' => q = s1.procs p ∧ s' = s1) ⟨rfl, rfl⟩ fun q s2 h2 => ?_
    obtain ⟨rfl, rfl⟩ := h2
    have hparent : (((table s).reparent p).procs p).parent = (s2.procs p).parent := by rw [← h1]; rfl
    cases hq : (s2.procs p).parent with
    | none => trivial
    | some parent =>
      rw [hq] at hparent
      refine wlp_bind (wlp_procWakeupOne parent s2) fun _ s3 h3 => ?_
      refine wlp_bind (keeps_setExitState (f := table) L p _ s3) fun _ s4 h4 => ?_
      refine wlp_conseq (wlp_setEntry p (g := fun e => { e with state := .zombie }) (fun _ => rfl) s4)
        fun _ s5 h5 => ?_
      simp only [Table.exit, if_neg hzero, hparent]
      rw [h5, h4, h3, h1]
  exact wlp_ite (fun _ => trivial) fun h => hrest h

theorem keeps_sysBrk (p : Slot) (top : Nat) : Keeps table (sysBrk p top) := by
  have hlast : Keeps table (do return (← getProc p).heapTop) :=
    .bind (keeps_getProc p) fun _ => .pure _
  refine .bind (keeps_getProc p) fun q => .ite (.pure _) (.ite (.pure _) (.ite (.pure _)
    (.ite ?_ (.ite ?_ hlast))))
  · exact .bind (keeps_uvmHeapGrow _ _ _) fun _ => .bind (keeps_setProc p fun _ => rfl) fun _ => hlast
  · exact .bind (keeps_uvmHeapUngrow _ _ _) fun _ => .bind (keeps_setProc p fun _ => rfl) fun _ => hlast

theorem keeps_sysMmap (p : Slot) (start len : Nat) : Keeps table (sysMmap p start len) :=
  .ite (.pure _) (.ite (.bind (keeps_getProc p) fun _ => .bind (keeps_firstFit _ _ _) fun _ =>
    .ite (.pure _) (.bind (keeps_uvmMmap _ _ _ _) fun _ => .pure _))
    (.ite (.pure _) (.bind (keeps_uvmMmap _ _ _ _) fun _ => .pure _)))

theorem keeps_sysMunmap (p : Slot) (start len : Nat) : Keeps table (sysMunmap p start len) :=
  .ite (.pure _) (.bind (keeps_uvmMunmap _ _ _) fun _ => .pure _)

/-- What a call is to the table; `e` is how it ends if it is a fork. -/
def Call.action (e : ForkEnd) : Call → Table.Action
  | .fork p => .fork p e
  | .exit p _ => .exit p
  | .wait p _ => .wait p
  | .brk p _ | .mmap p _ _ | .munmap p _ _ => .other p

theorem Call.action_caller (e : ForkEnd) (c : Call) : (c.action e).caller = c.caller := by
  cases c <;> rfl

theorem wlp_call (L : Layout) (c : Call) (s : Machine) :
    wlp (c.run L) (fun _ s' => ∃ e, (table s).act (c.action e) = some (table s')) s := by
  have other : ∀ (α : Type) (x : MemM α) (p : Slot), Keeps table x → wlp (do let _ ← x)
      (fun _ s' => ∃ _ : ForkEnd, (table s).act (.other p) = some (table s')) s :=
    fun α x p hx => wlp_bind (hx s) fun _ s' h => ⟨.child, congrArg some h.symm⟩
  cases c with
  | fork p => exact wlp_bind (wlp_procFork L p s) fun _ s' h => h
  | brk p top => exact other _ _ p (keeps_sysBrk p top)
  | mmap p start len => exact other _ _ p (keeps_sysMmap p start len)
  | munmap p start len => exact other _ _ p (keeps_sysMunmap p start len)
  | exit p v => exact wlp_conseq (wlp_procExit L p v s) fun _ s' h => ⟨.child, h⟩
  | wait p addr => exact wlp_conseq (wlp_procWait L p addr s) fun _ s' h => ⟨.child, congrArg some h.symm⟩

theorem step_table {L : Layout} {s s' : Machine} {c : Call} (h : step L s c = some s') :
    ∃ e, (table s).step (c.action e) = some (table s') := by
  unfold step at h
  split at h
  · rename_i hrun
    split at h
    · rename_i hx
      cases h
      obtain ⟨e, hact⟩ := wp_ok (wlp_call L c s) hx
      have hrun' : ((table s).procs (c.action e).caller).state = .runnable := by
        rw [c.action_caller]; exact hrun
      exact ⟨e, by rw [Table.step, if_pos hrun', hact]⟩
    · cases h
  · cases h

/-! ## The first process -/

/-- After `proc_make_first`: `proczero` in the first slot. -/
def Table.boot : Table where
  procs := fun i => if i = Sched.proczero then ⟨0, .runnable, none, none⟩ else Table.freed
  proczero := some Sched.proczero
  globalPid := 2

theorem keeps_regionLoop (k : Bool) (stop : Nat) : ∀ fuel p, Keeps table (regionLoop k stop fuel p) := by
  intro fuel
  induction fuel with
  | zero => intro p; exact .throw _
  | succ fuel ih => intro p; exact .ite (.bind (keeps_pushPage k p) fun _ => ih _) (.pure _)

theorem keeps_regionInit (k : Bool) (start stop : Nat) : Keeps table (regionInit k start stop) :=
  .bind (keeps_setRegion k _) fun _ => keeps_regionLoop k stop _ _

theorem keeps_pmemInit (b e : Nat) : Keeps table (pmemInit b e) :=
  .bind (keeps_regionInit true _ _) fun _ => keeps_regionInit false _ _

theorem keeps_mmapInit : Keeps table mmapInit := by
  unfold mmapInit
  generalize N_MMAP - 1 = n
  exact .bind (keeps_setNode _ _) fun _ => .forFrom (fun k => .bind (keeps_getNode _) fun _ =>
    .bind (keeps_setNode _ _) fun _ => keeps_setNode _ _) n 1

/-- The static data: every slot is unused. -/
def Table.empty : Table := ⟨fun _ => Table.freed, none, 1⟩

theorem Table.empty_findUnused : Table.empty.findUnused = some Sched.proczero := by decide +kernel

theorem wlp_procMakeFirst (L : Layout) (hartid : Nat) {s : Machine} (hs : table s = Table.empty) :
    wlp (procMakeFirst L hartid) (fun _ s' => table s' = Table.boot) s := by
  have hfind : (table s).findUnused = some Sched.proczero := by rw [hs, Table.empty_findUnused]
  refine wlp_bind (wlp_procAlloc L s) fun r s1 h1 => ?_
  rw [hfind] at h1
  obtain ⟨-, h1⟩ := h1
  cases r with
  | none => trivial
  | some p =>
    obtain ⟨rfl, h1⟩ := h1
    refine wlp_bind (Q := fun _ s' => table s' = { table s1 with proczero := some Sched.proczero }) rfl
      fun _ s2 h2 => ?_
    refine wlp_bind (wlp_setEntry _ (g := fun e => { e with pid := 0 }) (fun _ => rfl) s2)
      fun _ s3 h3 => ?_
    refine Keeps.seq (f := table) (keeps_pmemAlloc false) (fun page s4 h4 => ?_) s3 rfl
    refine wlp_ite (fun _ => trivial) fun _ => ?_
    refine Keeps.seq (f := table) (keeps_memset _ _ _) (fun _ =>
      Keeps.seq (keeps_setProc _ (by intro; rfl)) fun _ => Keeps.seq (keeps_getProc _) fun q =>
      Keeps.seq (keeps_vmMappages _ _ _ _ _) fun _ => Keeps.seq (.assert _ _) fun _ =>
      Keeps.seq (keeps_pmemAlloc false) fun code s10 h10 => ?_) s4 h4
    refine wlp_ite (fun _ => trivial) fun _ => ?_
    refine Keeps.seq (f := table) (keeps_memset _ _ _) (fun _ s11 h11 => ?_) s10 h10
    refine wlp_bind (Q := fun _ s' => table s' = table s11) rfl fun _ s12 h12 => ?_
    refine Keeps.seq (f := table) (keeps_vmMappages _ _ _ _ _) (fun _ =>
      Keeps.seq (keeps_setProc _ (by intro; rfl)) fun _ => Keeps.seq (keeps_store64 _ _) fun _ =>
      Keeps.seq (keeps_store64 _ _) fun _ => Keeps.seq (keeps_store64 _ _) fun _ =>
      Keeps.seq (keeps_store64 _ _) fun _ => Keeps.seq (keeps_store64 _ _) fun _ =>
      Keeps.seq (keeps_store64 _ _) fun _ s20 h20 => ?_) s12 (h12.trans h11)
    refine wlp_conseq (wlp_setEntry _ (g := fun e => { e with state := .runnable }) (fun _ => rfl) s20)
      fun _ s21 h21 => ?_
    rw [h21, h20, h3, h2, h1, hs]
    simp only [Table.set, Table.boot, upd_same, upd_upd]
    rfl

theorem wlp_boot (L : Layout) (hartid : Nat) (mem : Bytes) :
    wlp (boot L hartid) (fun _ s' => table s' = Table.boot) (reset mem) := by
  unfold boot
  refine wlp_bind (keeps_pmemInit L.allocBegin ALLOC_END (reset mem)) fun _ s1 h1 => ?_
  refine wlp_bind (keeps_mmapInit s1) fun _ s2 h2 => ?_
  have hempty : table s2 = Table.empty := h2.trans h1
  refine wlp_bind (Q := fun _ s' => table s' = Table.empty) ?_ fun _ s3 h3 =>
    wlp_procMakeFirst L hartid h3
  show table _ = _
  have hentry : ∀ i, entry (s2.procs i) = Table.freed := fun i => congrFun (congrArg Table.procs hempty) i
  have hproc : ∀ i, entry { s2.procs i with state := .unused } = Table.freed := fun i => by
    rw [← hentry i]
    simp only [entry, Entry.mk.injEq, true_and, and_true]
    exact (congrArg Entry.state (hentry i)).symm
  simp only [table, hproc]
  exact congr_arg₂ _ (congrArg Table.proczero hempty) (congrArg Table.globalPid hempty)

end Proc
end WhuOS
