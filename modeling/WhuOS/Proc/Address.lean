import WhuOS.Lib.Run
import WhuOS.Proc.Leak
import WhuOS.Proc.Munmap

/-!
# WhuOS.Proc.Address

`fork` and the address spaces that `sys_brk`, `sys_mmap` and `sys_munmap` can make.

The user chooses the arguments of these calls, so nothing is known of what is mapped where. What is
left is that every process has its own page table (`Inv`). `uvm_copy_pgtbl` looks at three ranges of
the address space (`Covered`): `fork_copies_iff` says that it makes a copy of the address space
exactly if everything that is mapped lies in them.
-/

namespace WhuOS
namespace Proc

open Lib Mem Sched Kern

variable {L : Layout} {p np : Slot} {s s' : Machine} {own own' : Nat → Owner} {l l' : List Nat}
  {r n : Nat}

/-! ## Code on the mmap list -/

section List

variable {I : Machine → Prop} (hnode : ∀ i f, Preserves I (setNode i f))
  (hmmap : ∀ o, Preserves I (setProc p fun q => { q with mmap := o }))

include hnode

theorem preserves_mmapRegionAlloc : Preserves I mmapRegionAlloc := by
  refine .bind (fun _ h => h) fun h => ?_
  cases h.poolNext with
  | none => exact .panic _
  | some i => exact .bind (fun _ h => h) fun _ => .bind (hnode _ _) fun _ => .bind (hnode _ _) fun _ => .pure _

theorem preserves_mmapRegionFree (i : NodeId) : Preserves I (mmapRegionFree i) :=
  .bind (fun _ h => h) fun _ => .bind (hnode _ _) fun _ => hnode _ _

theorem preserves_mmapMerge (i j : NodeId) : Preserves I (mmapMerge i j) :=
  .bind (fun _ h => h) fun _ => .bind (fun _ h => h) fun _ => .bind (.assert _ _) fun _ =>
    .bind (hnode _ _) fun _ => preserves_mmapRegionFree hnode _

include hmmap

theorem preserves_splitRegion (prev : Option NodeId) (curr : NodeId) (b n : Nat) :
    Preserves I (splitRegion p prev curr b n) := by
  refine .bind (fun _ h => h) fun c => .ite ?_ (.ite (hnode _ _) (.ite (hnode _ _) ?_))
  · cases prev with
    | none => exact .bind (hmmap _) fun _ => preserves_mmapRegionFree hnode _
    | some i => exact .bind (hnode _ _) fun _ => preserves_mmapRegionFree hnode _
  · exact .bind (preserves_mmapRegionAlloc hnode) fun _ => .bind (hnode _ _) fun _ => hnode _ _

theorem preserves_takeRegion (b n : Nat) :
    ∀ fuel prev curr, Preserves I (takeRegion p b n fuel prev curr) := by
  intro fuel
  induction fuel with
  | zero =>
    intro prev curr
    cases curr with
    | none => exact .pure _
    | some i => exact .throw _
  | succ fuel ih =>
    intro prev curr
    cases curr with
    | none => exact .pure _
    | some i => exact .bind (fun _ h => h) fun _ => .ite (preserves_splitRegion hnode hmmap _ _ _ _) (ih _ _)

omit hnode hmmap in
theorem preserves_insertAfter (b : Nat) : ∀ fuel curr, Preserves I (insertAfter b fuel curr) := by
  intro fuel
  induction fuel with
  | zero => intro curr; exact .throw _
  | succ fuel ih =>
    intro curr
    refine .bind (fun _ h => h) fun n => ?_
    cases n.next with
    | none => exact .pure _
    | some i => exact .bind (fun _ h => h) fun _ => .ite (ih _) (.pure _)

omit hnode hmmap in
theorem preserves_findPrev (new : NodeId) :
    ∀ fuel prev curr, Preserves I (findPrev new fuel prev curr) := by
  intro fuel
  induction fuel with
  | zero =>
    intro prev curr
    cases curr with
    | none => exact .pure _
    | some i => exact .throw _
  | succ fuel ih =>
    intro prev curr
    cases curr with
    | none => exact .pure _
    | some i => exact .ite (.pure _) (.bind (fun _ h => h) fun _ => ih _ _)

theorem preserves_insertRegion (b n : Nat) : Preserves I (insertRegion p b n) := by
  refine .bind (preserves_mmapRegionAlloc hnode) fun new => .bind (hnode _ _) fun _ =>
    .bind (fun _ h => h) fun q => ?_
  cases q.mmap with
  | none => exact .bind (hmmap _) fun _ => .pure _
  | some first =>
    refine .bind (fun _ h => h) fun _ => .ite ?_ ?_
    · exact .bind (hnode _ _) fun _ => .bind (hmmap _) fun _ => .pure _
    · exact .bind (preserves_insertAfter _ _ _) fun _ => .bind (fun _ h => h) fun _ =>
        .bind (hnode _ _) fun _ => .bind (hnode _ _) fun _ => .pure _

omit hmmap in
theorem preserves_joinNext (new : NodeId) : Preserves I (joinNext new) := by
  refine .bind (fun _ h => h) fun n => ?_
  cases n.next with
  | none => exact .pure _
  | some j =>
    exact .bind (fun _ h => h) fun _ =>
      .ite (.bind (hnode _ _) fun _ => preserves_mmapMerge hnode _ _) (.pure _)

omit hmmap in
theorem preserves_joinPrev (new : NodeId) : Preserves I (joinPrev p new) := by
  refine .bind (fun _ h => h) fun q => .bind (preserves_findPrev _ _ _ _) fun o => ?_
  cases o with
  | none => exact .pure _
  | some i =>
    exact .bind (fun _ h => h) fun _ => .bind (fun _ h => h) fun _ =>
      .ite (.bind (hnode _ _) fun _ => preserves_mmapMerge hnode _ _) (.pure _)

end List

/-! ## Address spaces -/

/-- The process `p` is in use and has the page table `pgtbl`. -/
structure SpaceAt (L : Layout) (p : Slot) (pgtbl : Nat) (s : Machine) : Prop where
  inv : ∃ own l, Inv L s own l
  live : (s.procs p).state ≠ .unused
  pgtbl : (s.procs p).pgtbl = pgtbl

theorem Inv.pages (h : Inv L s own l) (hlive : (s.procs p).state ≠ .unused) (w : Owned L s' own' l')
    (hprocs : s'.procs = s.procs) (hroot : ∀ n q, own n = .node q 3 0 → own' n = .node q 3 0)
    (hold : ∀ n q h v, own' n = .node q h v → q = p ∨ own n = .node q h v) : Inv L s' own' l' := by
  refine ⟨w, fun q hq => ?_, fun q hq n k v hn => ?_⟩
  · rw [hprocs] at hq ⊢
    obtain ⟨⟨r, hr, hown⟩, hst⟩ := h.live q hq
    exact ⟨⟨r, hr, hroot r q hown⟩, hst⟩
  · rw [hprocs] at hq
    rcases hold n q k v hn with rfl | hn
    · exact hlive hq
    · exact h.unused q hq n k v hn

variable {pgtbl : Nat}

theorem SpaceAt.elim (h : SpaceAt L p pgtbl s) :
    ∃ own l r, Inv L s own l ∧ pgtbl = PGSIZE * r ∧ own r = .node p 3 0 := by
  obtain ⟨own, l, hi⟩ := h.inv
  obtain ⟨⟨r, hr, hown⟩, -⟩ := hi.live p h.live
  exact ⟨own, l, r, hi, h.pgtbl.symm.trans hr, hown⟩

theorem SpaceAt.congr (h : SpaceAt L p pgtbl s) (hm : s'.mem = s.mem) (hu : s'.user = s.user)
    (hs : ∀ q, (s'.procs q).state = (s.procs q).state)
    (hpg : ∀ q, (s'.procs q).pgtbl = (s.procs q).pgtbl)
    (hst : ∀ q, (s'.procs q).ustackPages = (s.procs q).ustackPages) : SpaceAt L p pgtbl s' := by
  obtain ⟨⟨own, l, hi⟩, hlive, hp⟩ := h
  refine ⟨⟨own, l, hi.owned.ofRest hm hu, fun q hq => ?_, fun q hq => ?_⟩, by rwa [hs], by rwa [hpg]⟩
  · rw [hs] at hq
    rw [hpg, hst]
    exact hi.live q hq
  · rw [hs] at hq
    exact hi.unused q hq

theorem space_setNode (i : NodeId) (f : MmapNode → MmapNode) :
    Preserves (SpaceAt L p pgtbl) (setNode i f) := fun _ h =>
  h.congr rfl rfl (fun _ => rfl) (fun _ => rfl) fun _ => rfl

theorem space_setProc {f : Mem.Proc → Mem.Proc} (q : Slot) (hs : ∀ c, (f c).state = c.state)
    (hpg : ∀ c, (f c).pgtbl = c.pgtbl) (hst : ∀ c, (f c).ustackPages = c.ustackPages) :
    Preserves (SpaceAt L p pgtbl) (setProc q f) := by
  intro s h
  refine h.congr rfl rfl (fun c => ?_) (fun c => ?_) (fun c => ?_)
  all_goals
    by_cases hc : c = q
    · subst hc; simp [hs, hpg, hst]
    · simp [hc]

theorem space_mmap (o : Option NodeId) :
    Preserves (SpaceAt L p pgtbl) (setProc p fun q => { q with mmap := o }) :=
  space_setProc p (fun _ => rfl) (fun _ => rfl) fun _ => rfl

theorem Inv.fresh {va perm : Nat} (h : Inv L s own l) (hlive : (s.procs p).state ≠ .unused)
    (f : FreshPage L p s own l r va perm s' own' l') : Inv L s' own' l' := by
  obtain ⟨k, -, mp⟩ := f.mapped
  refine h.pages hlive mp.owned (congrArg Rest.procs mp.rest)
    (fun n q hn => mp.grows.keeps hn (by simp)) fun n q k v hn => ?_
  by_cases hq : q = p
  · exact .inl hq
  · exact .inr ((mp.grows.others hq).mp hn)

theorem SpaceAt.fresh {va perm : Nat} (h : SpaceAt L p (PGSIZE * r) s) (hi : Inv L s own l)
    (f : FreshPage L p s own l r va perm s' own' l') : SpaceAt L p (PGSIZE * r) s' := by
  obtain ⟨k, -, mp⟩ := f.mapped
  have hprocs : s'.procs = s.procs := congrArg Rest.procs mp.rest
  exact ⟨⟨own', l', hi.fresh h.live f⟩, by rw [hprocs]; exact h.live, by rw [hprocs]; exact h.pgtbl⟩

theorem space_unmapPage (va : Nat) :
    Preserves (SpaceAt L p pgtbl) (unmapPage pgtbl va true) := by
  intro s h
  obtain ⟨own, l, r, hi, rfl, hr⟩ := h.elim
  refine wp_conseq (wp_unmapPage hi.owned hr) ?_ (fun _ _ _ => trivial)
  rintro - s' ⟨-, k, -, u⟩
  have hprocs : s'.procs = s.procs := congrArg Rest.procs u.rest
  refine ⟨⟨_, _, hi.pages h.live u.owned hprocs (fun n q hn => ?_) fun n q k v hn => .inr ?_⟩,
    by rw [hprocs]; exact h.live, by rw [hprocs]; exact h.pgtbl⟩
  · have : n ≠ k := by rintro rfl; rw [u.frame] at hn; cases hn
    rwa [Function.update_of_ne this]
  · rename_i k'
    by_cases hnk : n = k'
    · subst hnk; simp at hn
    · rwa [Function.update_of_ne hnk] at hn

theorem space_vmUnmappages (va len : Nat) :
    Preserves (SpaceAt L p pgtbl) (vmUnmappages pgtbl va len true) := by
  have hloop : ∀ e, Preserves (SpaceAt L p pgtbl) (forPages va e fun va => unmapPage pgtbl va true) :=
    fun e => .forFrom (fun _ => space_unmapPage _) _ _
  exact .ite (.bind (.panic _) fun _ => hloop _) (hloop _)

theorem space_uvmHeapGrow (top len : Nat) : Preserves (SpaceAt L p pgtbl) (uvmHeapGrow pgtbl top len) := by
  refine .bind (.forFrom (fun k s h => ?_) _ _) fun _ => .pure _
  obtain ⟨own, l, r, hi, rfl, hr⟩ := h.elim
  refine wp_conseq (wp_freshPage hi.owned hr ?_ (by decide)) ?_ (fun _ _ _ => trivial)
  · simp only [pgRoundUp, PGSIZE]; omega
  · rintro - s' ⟨own', l', f⟩
    exact h.fresh hi f

theorem space_uvmHeapUngrow (top len : Nat) :
    Preserves (SpaceAt L p pgtbl) (uvmHeapUngrow pgtbl top len) :=
  .ite (.bind (space_vmUnmappages _ _) fun _ => .pure _) (.pure _)

/-! ## The calls -/

theorem space_getProc {α : Type} {x : Mem.Proc → MemM α}
    (h : ∀ q : Mem.Proc, q.pgtbl = pgtbl → Preserves (SpaceAt L p pgtbl) (x q)) :
    Preserves (SpaceAt L p pgtbl) (getProc p >>= x) := fun s hs =>
  (wp_bind _ _).mpr (h _ hs.pgtbl s hs)

theorem space_sysBrk (top : Nat) : Preserves (SpaceAt L p pgtbl) (sysBrk p top) := by
  refine space_getProc fun q hq => .ite (.pure _) (.ite (.pure _) (.ite (.pure _) ?_))
  have hread : Preserves (SpaceAt L p pgtbl) (do return (← getProc p).heapTop) :=
    .bind (fun _ h => h) fun _ => .pure _
  have hset : ∀ x, Preserves (SpaceAt L p pgtbl) (do
      setProc p fun q => { q with heapTop := x }
      return (← getProc p).heapTop) := fun x =>
    .bind (space_setProc p (fun _ => rfl) (fun _ => rfl) fun _ => rfl) fun _ => hread
  subst hq
  exact .ite (.bind (space_uvmHeapGrow _ _) hset) (.ite (.bind (space_uvmHeapUngrow _ _) hset) hread)

theorem space_uvmMmap (b n perm : Nat) (hperm : perm ||| PTE_U < 1024) :
    Preserves (SpaceAt L p pgtbl) (uvmMmap p b n perm) := by
  refine .ite (.pure _) ?_
  by_cases hal : b % PGSIZE = 0
  · refine .bind (.assert _ _) fun _ => .bind (fun _ h => h) fun q =>
      .bind (preserves_takeRegion space_setNode space_mmap _ _ _ _ _) fun _ => .forFrom (fun i s h => ?_) _ _
    obtain ⟨own, l, r, hi, rfl, hr⟩ := h.elim
    refine wp_conseq (wp_freshPage_proc hi.owned hr h.pgtbl ?_ hperm) ?_ (fun _ _ _ => trivial)
    · simp only [regionBytes, PGSIZE] at *; omega
    · rintro - s' ⟨own', l', f⟩
      exact h.fresh hi f
  · rw [decide_eq_false hal]
    exact fun _ _ => trivial

theorem space_firstFit (n : Nat) : ∀ fuel o, Preserves (SpaceAt L p pgtbl) (firstFit n fuel o) := by
  intro fuel
  induction fuel with
  | zero =>
    intro o
    cases o with
    | none => exact .pure _
    | some i => exact .throw _
  | succ fuel ih =>
    intro o
    cases o with
    | none => exact .pure _
    | some i => exact .bind (fun _ h => h) fun _ => .ite (.pure _) (ih _)

theorem space_sysMmap (start len : Nat) : Preserves (SpaceAt L p pgtbl) (sysMmap p start len) := by
  refine .ite (.pure _) (.ite ?_ (.ite (.pure _) (.bind (space_uvmMmap _ _ _ (by decide)) fun _ => .pure _)))
  exact .bind (fun _ h => h) fun _ => .bind (space_firstFit _ _ _) fun _ =>
    .ite (.pure _) (.bind (space_uvmMmap _ _ _ (by decide)) fun _ => .pure _)

theorem space_uvmMunmap (b n : Nat) : Preserves (SpaceAt L p pgtbl) (uvmMunmap p b n) := by
  by_cases hn : n = 0
  · rw [uvmMunmap, if_pos hn]; exact .pure _
  · rw [uvmMunmap_eq p b n hn]
    refine .bind (.assert _ _) fun _ => .bind (preserves_insertRegion space_setNode space_mmap _ _)
      fun new => .bind (preserves_joinNext space_setNode _) fun _ =>
      .bind (preserves_joinPrev space_setNode _) fun _ => space_getProc fun q hq => ?_
    rw [hq]
    exact space_vmUnmappages _ _

theorem space_sysMunmap (start len : Nat) : Preserves (SpaceAt L p pgtbl) (sysMunmap p start len) :=
  .ite (.pure _) (.bind (space_uvmMunmap _ _) fun _ => .pure _)

theorem space_memCall (c : MemCall) : Preserves (SpaceAt L p pgtbl) (c.run p) := by
  cases c with
  | brk top => exact space_sysBrk _
  | mmap start len => exact space_sysMmap _ _
  | munmap start len => exact space_sysMunmap _ _

/-- The state after a memory call that returns. -/
def memStep (p : Slot) (s : Machine) (c : MemCall) : Option Machine :=
  match c.run p s with
  | .ok _ s' => some s'
  | .error _ _ => none

theorem space_run (h : SpaceAt L p pgtbl s) (cs : List MemCall) (hrun : run (memStep p) s cs = some s') :
    SpaceAt L p pgtbl s' := by
  have hstep : ∀ s c s', SpaceAt L p pgtbl s → True → memStep p s c = some s' →
      SpaceAt L p pgtbl s' := by
    intro s c s' h _ hs
    unfold memStep at hs
    split at hs
    · rename_i res s1 hok
      cases hs
      have := wp_ok (space_memCall c s h) hok
      exact this
    · cases hs
  exact run_inv hstep cs h (runOk_true _ _) hrun

/-! ## `fork` -/

/-- The page is in one of the ranges that `uvm_copy_pgtbl` goes through. -/
def Covered (q : Mem.Proc) (v : Nat) : Prop :=
  (1 ≤ v ∧ PGSIZE * v < q.heapTop) ∨
  (TRAPFRAME ≤ PGSIZE * v + regionBytes q.ustackPages ∧ PGSIZE * v < TRAPFRAME) ∨
  (MMAP_BEGIN ≤ PGSIZE * v ∧ PGSIZE * v < MMAP_END)

/-- The child `np` has at page `v` what the parent `p` had, in a frame of its own. -/
structure SamePage (s s' : Machine) (p np : Slot) (v : Nat) : Prop where
  valid : validPage s'.mem (s'.procs np).pgtbl v = validPage s.mem (s.procs p).pgtbl v
  flags : validPage s.mem (s.procs p).pgtbl v = true →
    pteFlags (leafPte s'.mem (s'.procs np).pgtbl (PGSIZE * v)) =
      pteFlags (leafPte s.mem (s.procs p).pgtbl (PGSIZE * v))
  contents : validPage s.mem (s.procs p).pgtbl v = true → ∀ i, i < PGSIZE →
    s'.mem (pteToPa (leafPte s'.mem (s'.procs np).pgtbl (PGSIZE * v)) + i) =
      s.mem (pteToPa (leafPte s.mem (s.procs p).pgtbl (PGSIZE * v)) + i)
  apart : validPage s.mem (s.procs p).pgtbl v = true → ∀ u, ¬ FrameOf s'.mem (s'.procs p).pgtbl u
    (pteToPa (leafPte s'.mem (s'.procs np).pgtbl (PGSIZE * v)))
  parent : leafPte s'.mem (s'.procs p).pgtbl (PGSIZE * v) =
    leafPte s.mem (s.procs p).pgtbl (PGSIZE * v)

/-- The child's address space below the trapframe is a copy of the parent's. -/
def ForkCopies (s s' : Machine) (p np : Slot) : Prop :=
  ∀ v, v < TRAPFRAME_VPN → SamePage s s' p np v

theorem mem_copySteps (heapTop ustackPages v : Nat) :
    v ∈ (copySteps heapTop ustackPages).map Prod.snd ↔
      (1 ≤ v ∧ PGSIZE * v < heapTop) ∨
      (TRAPFRAME ≤ PGSIZE * v + regionBytes ustackPages ∧ PGSIZE * v < TRAPFRAME) ∨
      (MMAP_BEGIN ≤ PGSIZE * v ∧ PGSIZE * v < MMAP_END) := by
  have hb : regionBytes ustackPages % PGSIZE = 0 ∧ regionBytes ustackPages < 2 ^ 32 := by
    simp only [regionBytes, PGSIZE]; omega
  rw [copySteps, List.map_append, List.map_append, Duplicates.map_range, Duplicates.map_range,
    Duplicates.map_range, List.mem_append, List.mem_append, List.mem_range'_1, List.mem_range'_1,
    List.mem_range'_1]
  generalize regionBytes ustackPages = b at *
  refine or_congr ?_ (or_congr ?_ ?_)
  · simp only [Duplicates.passes, PGSIZE]; omega
  · simp only [TRAPFRAME_VPN, TRAPFRAME, TRAMPOLINE, VA_MAX, PGSIZE] at *; omega
  · simp only [MMAP_BEGIN, MMAP_END, VA_MAX, PGSIZE]; omega

namespace Forked

variable {rn t k : Nat} {gs : List Frame}

theorem mem_plan_iff (f : Forked L p np s own l r s' own' l' rn t k gs) {v : Nat} :
    v ∈ forkPlan s p ↔ Covered (s.procs p) v ∧ validPage s.mem (s.procs p).pgtbl v = true := by
  rw [forkPlan, plan_eq_filter f.clear, List.mem_filter, mem_copySteps]
  rfl

theorem frameAt_of_mem (f : Forked L p np s own l r s' own' l' rn t k gs) {v : Nat}
    (hv : v ∈ forkPlan s p) : ∃ c ∈ gs, c.page = v ∧ frameAt (gs ++ [stackFrame k]) v = some c := by
  rw [← List.mem_reverse, ← f.pages] at hv
  obtain ⟨c, hc, rfl⟩ := List.mem_map.mp hv
  cases hat : gs.find? fun d => d.page = c.page with
  | none =>
    have := List.find?_eq_none.mp hat c hc
    simp at this
  | some d =>
    refine ⟨d, List.mem_of_find?_eq_some hat, by simpa using List.find?_some hat, ?_⟩
    rw [frameAt, List.find?_append, hat]
    rfl

theorem invalid_of_not_mem (f : Forked L p np s own l r s' own' l' rn t k gs) {v : Nat}
    (hlow : v < TRAPFRAME_VPN) (hv : v ∉ forkPlan s p) (hst : v ≠ USTACK_VPN) :
    validPage s'.mem (s'.procs np).pgtbl v = false := by
  have hnone : frameAt (gs ++ [stackFrame k]) v = none := by
    refine frameAt_none fun c hc => ?_
    rintro rfl
    have hm : c.page ∈ (gs ++ [stackFrame k]).map Frame.page := List.mem_map_of_mem hc
    rw [f.pages_eq, List.mem_reverse] at hm
    rcases List.mem_cons.mp hm with h | h
    · exact hst h
    · exact hv h
  have hmax : PGSIZE * v < VA_MAX := by simp only [TRAPFRAME_VPN, VA_MAX, PGSIZE] at *; omega
  rw [validPage, f.pgtbl_eq, f.leaf v hmax, hnone]
  have h1 : v ≠ TRAMPOLINE_VPN := by simp only [TRAPFRAME_VPN, TRAMPOLINE_VPN] at *; omega
  simp [newLeaf, h1, Nat.ne_of_lt hlow, pteHas_zero]

theorem parent_pgtbl (f : Forked L p np s own l r s' own' l' rn t k gs) (hpn : p ≠ np) :
    (s'.procs p).pgtbl = (s.procs p).pgtbl := by
  obtain ⟨o, ho⟩ := f.procs
  rw [ho, Function.update_of_ne hpn]

theorem samePage (f : Forked L p np s own l r s' own' l' rn t k gs) (h : Ready L p s own l r)
    (hpn : p ≠ np) {v : Nat} (hlow : v < TRAPFRAME_VPN) (hv : v ∈ forkPlan s p) :
    SamePage s s' p np v := by
  obtain ⟨c, hc, rfl, hat⟩ := f.frameAt_of_mem hv
  have hmem : c ∈ gs ++ [stackFrame k] := by simp [hc]
  have hcopy := f.copies c hc
  have hval := (f.mem_plan_iff.mp hv).2
  have hmax := f.page_lt hmem
  obtain ⟨hfl, hodd⟩ := f.flags_ok hmem
  have hleaf : leafPte s'.mem (s'.procs np).pgtbl (PGSIZE * c.page) = 1024 * c.frame + c.flags := by
    rw [f.pgtbl_eq, f.leaf _ hmax, hat]
  have hpa : pteToPa (1024 * c.frame + c.flags) = PGSIZE * c.frame :=
    pteToPa_page hfl (f.frame_lt hmem)
  have hvalid : validPage s'.mem (s'.procs np).pgtbl c.page = true := by
    rw [validPage_iff, hleaf]; exact ⟨hmax, by omega⟩
  refine ⟨hvalid.trans hval.symm, fun _ => ?_, fun _ i hi => ?_, fun _ u hu => ?_, ?_⟩
  · rw [hleaf, h.pgtbl, ← hcopy.flags, pteFlags]; omega
  · rw [hleaf, hpa, h.pgtbl]
    exact hcopy.contents (by simp only [TRAPFRAME_VPN, TRAMPOLINE_VPN] at *; omega) i hi
  · -- the frame belongs to the child
    rw [hleaf, hpa, f.parent_pgtbl hpn, h.pgtbl] at hu
    obtain ⟨hu1, hu2⟩ := validPage_iff.mp hu.1
    have hown := (f.fresh c hmem).2
    rcases f.owned.tree.leaf_target (f.grows.keeps h.root (by simp)) hu1 hu2 with ⟨d, hd, hd'⟩ | ⟨-, htr⟩
    · obtain rfl : c.frame = d := by
        have := hu.2.symm.trans hd
        simp only [PGSIZE] at this; omega
      rw [hown] at hd'
      injection hd' with hq
      exact hpn hq.symm
    · exact f.owned.ne_trampoline (by simp [hown]) (hu.2.symm.trans htr)
  · rw [f.parent_pgtbl hpn, h.pgtbl]
    exact f.grows.leaf_others h.owned.tree f.owned.tree hpn h.root hmax

end Forked

theorem forkCopies_iff_covered {rn t k : Nat} {gs : List Frame}
    (f : Forked L p np s own l r s' own' l' rn t k gs) (h : Ready L p s own l r) (hpn : p ≠ np)
    (hst : (s.procs p).ustackPages = 1) :
    ForkCopies s s' p np ↔ ∀ v, v < TRAPFRAME_VPN →
      validPage s.mem (s.procs p).pgtbl v = true → Covered (s.procs p) v := by
  have hstack : USTACK_VPN ∈ forkPlan s p := by
    have hcov : Covered (s.procs p) USTACK_VPN := by
      refine .inr (.inl ?_)
      rw [hst]; decide
    refine f.mem_plan_iff.mpr ⟨hcov, ?_⟩
    have hstep : (true, USTACK_VPN) ∈
        copySteps (s.procs p).heapTop (s.procs p).ustackPages := by
      rw [hst]
      exact List.mem_append_right _ (List.mem_append_left _ (by decide))
    have := List.any_eq_false.mp f.clear _ hstep
    simpa using this
  constructor
  · intro hall v hlow hval
    by_contra hcov
    have hno : v ∉ forkPlan s p := fun hm => hcov (f.mem_plan_iff.mp hm).1
    have := (hall v hlow).valid
    rw [hval, f.invalid_of_not_mem hlow hno (by rintro rfl; exact hno hstack)] at this
    cases this
  · intro hall v hlow
    by_cases hv : v ∈ forkPlan s p
    · exact f.samePage h hpn hlow hv
    · have hinv : validPage s.mem (s.procs p).pgtbl v = false := by
        rw [Bool.eq_false_iff]
        exact fun hval => hv (f.mem_plan_iff.mpr ⟨hall v hlow hval, hval⟩)
      have hchild := f.invalid_of_not_mem hlow hv (by rintro rfl; exact hv hstack)
      have hmax : PGSIZE * v < VA_MAX := by simp only [TRAPFRAME_VPN, VA_MAX, PGSIZE] at *; omega
      refine ⟨hchild.trans hinv.symm, ?_, ?_, ?_, ?_⟩
      · intro hval; rw [hinv] at hval; cases hval
      · intro hval; rw [hinv] at hval; cases hval
      · intro hval; rw [hinv] at hval; cases hval
      · rw [f.parent_pgtbl hpn, h.pgtbl]
        exact f.grows.leaf_others h.owned.tree f.owned.tree hpn h.root hmax

theorem findUnused_state (h : findUnused s = some np) : (s.procs np).state = .unused := by
  have := List.find?_some h
  simpa using this

/-- After any calls of `sys_brk`, `sys_mmap` and `sys_munmap` that return, a successful `proc_fork`
copies the address space exactly if everything mapped below the trapframe is in the code and heap,
in the stack or in the mmap window. -/
theorem fork_copies_iff {s0 : Machine} {own0 : Nat → Owner} {l0 : List Nat} (h0 : Inv L s0 own0 l0)
    (hp : (s0.procs p).state ≠ .unused) (cs : List MemCall)
    (hcs : run (memStep p) s0 cs = some s) {res : Int} (hrun : procFork L p s = .ok res s')
    (hres : res ≠ -1) (hnp : findUnused s = some np) :
    ForkCopies s s' p np ↔ ∀ v, v < TRAPFRAME_VPN →
      validPage s.mem (s.procs p).pgtbl v = true → Covered (s.procs p) v := by
  have hsp : SpaceAt L p (s0.procs p).pgtbl s := space_run ⟨⟨own0, l0, h0⟩, hp, rfl⟩ cs hcs
  obtain ⟨own, l, r, hi, hr, hroot⟩ := hsp.elim
  have h : Ready L p s own l r := ⟨hi.owned, hsp.live, hsp.pgtbl.trans hr, hroot, hi.unused⟩
  obtain ⟨own', l', rn, t, k, gs, f⟩ := forked_of_run h hrun hres hnp
  refine forkCopies_iff_covered f h ?_ (hi.live p hsp.live).2
  rintro rfl
  exact hsp.live (findUnused_state hnp)

theorem fork_copies_iff_boot : ∃ s s' np, boot smallLayout 0 (reset fun _ => 0) = .ok () s ∧
    procFork smallLayout 0 s = .ok 2 s' ∧ ForkCopies s s' 0 np := by
  obtain ⟨s, s', r, t, own, l, np, hs, hb, hnp, hrun⟩ := fork_small
  refine ⟨s, s', np, hs, hrun, (fork_copies_iff hb.inv hb.ready.live [] rfl hrun (by decide) hnp).mpr
    fun v hv hval => ?_⟩
  rw [hb.proc] at hval ⊢
  rw [hb.validPage_eq hv, decide_eq_true_iff] at hval
  rcases hval with rfl | rfl
  · exact .inl ⟨Nat.le_refl 1, show PGSIZE * 1 < 2 * PGSIZE by decide⟩
  · exact .inr (.inl ⟨show TRAPFRAME ≤ PGSIZE * USTACK_VPN + regionBytes 1 by decide, by decide⟩)

/-! ## A page outside of the ranges -/

theorem plan_congr {valid valid' : Nat → Bool} {steps : List Step}
    (h : ∀ c ∈ steps, valid' c.2 = valid c.2) :
    plan valid' steps = plan valid steps ∧ stuck valid' steps = stuck valid steps := by
  induction steps with
  | nil => exact ⟨rfl, rfl⟩
  | cons c steps ih =>
    obtain ⟨strict, v⟩ := c
    obtain ⟨h1, h2⟩ := ih fun d hd => h d (List.mem_cons_of_mem _ hd)
    have hv : valid' v = valid v := h (strict, v) List.mem_cons_self
    unfold stuck at h2 ⊢
    simp only [plan, List.any_cons, hv, h1, h2, and_self]

theorem wp_uvmMmap_one {va perm : Nat} (w : Owned L s own l) (hr : own r = .node p 3 0)
    (hpg : (s.procs p).pgtbl = PGSIZE * r) (hnone : (s.procs p).mmap = none) (hva : va < 2 ^ 64)
    (hal : va % PGSIZE = 0) (hperm : perm ||| PTE_U < 1024) :
    wp (uvmMmap p va 1 perm)
      (fun _ s' => ∃ own' l', FreshPage L p s own l r va (perm ||| PTE_U) s' own' l')
      (fun _ _ => VA_MAX ≤ va ∨ l.length < 1 + missing own p va) s := by
  have h0 : (va + regionBytes 0) % 2 ^ 64 = va := by
    rw [show regionBytes 0 = 0 by decide, Nat.add_zero, Nat.mod_eq_of_lt hva]
  have htake : takeRegion p va 1 N_MMAP none none = pure () := rfl
  rw [uvmMmap, if_neg (by decide), wp_bind, wp_assert, if_pos (by simpa using hal), wp_bind,
    wp_getProc, hnone, htake, wp_bind, wp_pure, Kern.forFrom, Kern.forFrom, wp_bind, h0]
  exact wp_conseq (wp_freshPage_proc w hr hpg hal hperm) (fun _ _ h => h) (fun _ _ h => h)

/-- The pages between the code and the mmap window do not matter for the copy. -/
theorem Booted.copy_of_leaf {t : Nat} {o : Option NodeId} (hb : Booted L p r t s own l)
    (hproc : s'.procs p = { s.procs p with mmap := o })
    (hleaf : ∀ v, PGSIZE * v < VA_MAX → v < 16 ∨ MMAP_BEGIN / PGSIZE ≤ v →
      leafPte s'.mem (PGSIZE * r) (PGSIZE * v) = leafPte s.mem (PGSIZE * r) (PGSIZE * v)) :
    forkDemand s' p = 9 ∧ stuck (validPage s'.mem (s'.procs p).pgtbl)
      (copySteps (s'.procs p).heapTop (s'.procs p).ustackPages) = false := by
  have hsame : ∀ c ∈ copySteps (2 * PGSIZE) 1,
      validPage s'.mem (PGSIZE * r) c.2 = validPage s.mem (PGSIZE * r) c.2 := by
    intro c hc
    refine validPage_congr fun hmax => hleaf _ hmax ?_
    have := (mem_copySteps _ _ _).mp (List.mem_map_of_mem hc)
    rw [show regionBytes 1 = PGSIZE by decide] at this
    simp only [TRAPFRAME, TRAMPOLINE, MMAP_BEGIN, MMAP_END, VA_MAX, PGSIZE] at this ⊢
    omega
  obtain ⟨hplan, hstuck⟩ := plan_congr hsame
  constructor
  · rw [← hb.forkDemand_eq, forkDemand, forkDemand, forkPlan, forkPlan, hproc, hb.proc]
    exact congrArg (fun x => 4 + cost [TRAMPOLINE_VPN] (USTACK_VPN :: x)) hplan
  · have := hb.forkClear.1
    rw [hb.proc] at this
    rw [hproc, hb.proc]
    exact hstuck.trans this

/-- The first process maps the page at `0x10000`, which changes nothing for the copy. -/
theorem mmap_low : ∃ s s1 np own l r, boot smallLayout 0 (reset fun _ => 0) = .ok () s ∧
    run (memStep 0) s [.mmap 0x10000 0x1000] = some s1 ∧ findUnused s1 = some np ∧
    Ready smallLayout 0 s1 own l r ∧ ForkClear s1 0 ∧ forkDemand s1 0 ≤ l.length ∧
    s1.globalPid = 2 ∧ (s1.procs 0).heapTop = 2 * PGSIZE ∧ (s1.procs 0).ustackPages = 1 ∧
    validPage s1.mem (s1.procs 0).pgtbl 16 = true := by
  obtain ⟨s, r, t, own, l, hs, hb, hpid, hl⟩ := boot_small
  obtain ⟨np, hnp⟩ := Option.ne_none_iff_exists'.mp hb.findUnused_ne
  have hpg : (s.procs 0).pgtbl = PGSIZE * r := by rw [hb.proc]
  have hmiss := missing_le own 0 0x10000
  obtain ⟨⟨⟩, s1, hmap, own1, l1, f⟩ := wp_returns
    (wp_uvmMmap_one hb.inv.owned hb.root hpg (by rw [hb.proc]) (show 0x10000 < 2 ^ 64 by decide)
      (by decide) (show PTE_R ||| PTE_W ||| PTE_U < 1024 by decide)) (by
    rintro - - (h | h)
    · exact absurd h (by decide)
    · omega)
  have hsys : sysMmap 0 0x10000 0x1000 s = .ok 0x10000 s1 := by
    have h1 : ¬ ((0x1000 : Nat) % 2 ^ 32 = 0 ∨ (0x1000 : Nat) % 2 ^ 32 % PGSIZE ≠ 0) := by decide
    have h2 : ¬ (0x10000 : Nat) = 0 := by decide
    have h3 : ¬ (0x10000 : Nat) % PGSIZE ≠ 0 := by decide
    have h4 : (0x1000 : Nat) % 2 ^ 32 / PGSIZE = 1 := by decide
    simp only [sysMmap, if_neg h1, if_neg h2, if_neg h3, h4, bind_of_ok hmap]
    rfl
  have hcs : run (memStep 0) s [.mmap 0x10000 0x1000] = some s1 := by
    have hcall : MemCall.run 0 (.mmap 0x10000 0x1000) s = .ok 0x10000 s1 := hsys
    simp only [run, memStep, hcall]
  obtain ⟨k, -, mp⟩ := f.mapped
  have hprocs : s1.procs = s.procs := congrArg Rest.procs mp.rest
  have hproc : s1.procs 0 = s.procs 0 := congrFun hprocs 0
  have hready : Ready smallLayout 0 s1 own1 l1 r := by
    refine ⟨mp.owned, ?_, hproc ▸ hpg, mp.grows.keeps hb.root (by simp),
      (hb.inv.fresh hb.ready.live f).unused⟩
    rw [hproc]; exact hb.ready.live
  obtain ⟨hdemand, hstuck⟩ := hb.copy_of_leaf (o := none) (by rw [hproc, hb.proc])
    fun v hmax hv => mp.leaf.other _ hmax (by simp only [MMAP_BEGIN, MMAP_END, VA_MAX, PGSIZE] at *; omega)
  have hclear : ForkClear s1 0 := ⟨hstuck, by rw [hproc, hb.proc]; exact .none _⟩
  have hlen := f.length
  refine ⟨s, s1, np, own1, l1, r, hs, hcs, by rw [findUnused, hprocs]; exact hnp, hready, hclear,
    by omega, (congrArg Rest.globalPid mp.rest).trans hpid, by rw [hproc, hb.proc],
    by rw [hproc, hb.proc], ?_⟩
  rw [hproc, hpg, validPage_iff, show PGSIZE * 16 = 0x10000 by decide, mp.leaf.here]
  refine ⟨by decide, ?_⟩
  rw [show PTE_R ||| PTE_W ||| PTE_U ||| 1 = 23 by decide]
  omega

/-- The page that `mmap(0x10000, PGSIZE)` maps is not copied to the child. -/
theorem fork_misses_page : ∃ s s1 s' np, boot smallLayout 0 (reset fun _ => 0) = .ok () s ∧
    run (memStep 0) s [.mmap 0x10000 0x1000] = some s1 ∧ findUnused s1 = some np ∧
    procFork smallLayout 0 s1 = .ok 2 s' ∧ ¬ ForkCopies s1 s' 0 np := by
  obtain ⟨s, s1, np, own, l, r, hs, hcs, hnp, hready, hclear, hlen, hpid, hheap, hst, hval⟩ := mmap_low
  obtain ⟨s', hrun⟩ := hready.fork_returns hclear hnp (by omega) hlen
  rw [hpid] at hrun
  refine ⟨s, s1, s', np, hs, hcs, hnp, hrun, fun hcopy => ?_⟩
  obtain ⟨own', l', rn, t, k, gs, g⟩ := forked_of_run hready hrun (by decide) hnp
  have hpn : 0 ≠ np := by
    rintro rfl
    exact hready.live (findUnused_state hnp)
  have := (forkCopies_iff_covered g hready hpn hst).mp hcopy 16 (by decide) hval
  rw [Covered, hheap, hst] at this
  exact absurd this (by decide)

end Proc
end WhuOS
