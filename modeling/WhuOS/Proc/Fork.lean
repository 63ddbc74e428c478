import WhuOS.Mem.Cycle
import WhuOS.Mem.Dup
import WhuOS.Proc.Boot

/-!
# WhuOS.Proc.Fork

`proc_fork` on a well-formed memory, and `proc_free`.

* `wp_procFree`  — `proc_free` frees the trapframe page, and again when it unmaps it: the free list
  has no end afterwards.
* `forkDemand`   — the pages that `proc_fork` takes, known from the parent's page table.
* `Forked`       — the child that it makes.
* `wp_procFork`  — how it ends, for each number of free pages.
-/

namespace WhuOS
namespace Proc

open Lib Kern Mem Sched

variable {L : Layout} {p np : Slot} {s : Machine} {own : Nat → Owner} {l : List Nat} {r t : Nat}

/-! ## `proc_free` -/

theorem cyclic_freeMmapList {b : Bool} :
    ∀ fuel o, Stays (Cyclic L b) (freeMmapList fuel o) := by
  intro fuel
  induction fuel with
  | zero =>
    intro o
    cases o with
    | none => exact .pure _
    | some i => exact .throw _
  | succ fuel ih =>
    intro o
    cases o with
    | none => exact .pure _
    | some i =>
      exact .bind (cyclic_getNode _) fun _ => .bind (cyclic_mmapRegionFree _) fun _ => ih _

theorem cyclic_setExitState {b : Bool} (q : Slot) (v : Nat) :
    Stays (Cyclic L b) (setExitState L q v) := by
  rintro s ⟨⟨S, h⟩, hs⟩
  refine ⟨⟨S, h.congr rfl fun n hn a ha => ?_⟩, hs⟩
  have h1 := h.region n hn
  have h2 := h.above
  have h3 := (L.exitState_data q).2
  refine Bytes.write_outside (.inr ?_)
  simp only [PGSIZE] at *; omega

/-- The top of the address space of `q`: the trampoline and, in page `t`, the trapframe. -/
structure TopMapped (L : Layout) (q : Slot) (s : Machine) (own : Nat → Owner) (r t : Nat) : Prop where
  pgtbl : (s.procs q).pgtbl = PGSIZE * r
  tf : (s.procs q).tf = PGSIZE * t
  root : own r = .node q 3 0
  frame : own t = .node q 0 TRAPFRAME_VPN
  trampoline : leafPte s.mem (PGSIZE * r) TRAMPOLINE = 1024 * (L.trampoline / PGSIZE) + 11
  trapframe : leafPte s.mem (PGSIZE * r) TRAPFRAME = 1024 * t + 7

/-- The frame of the trapframe is unmapped and freed while it is the head of the list. -/
theorem wp_unmapHead {E : Stop → Machine → Prop} (tr : Tree L s.mem own)
    (hr : own r = .node np 3 0) (ht : own t = .node np 0 TRAPFRAME_VPN)
    (hleaf : leafPte s.mem (PGSIZE * r) TRAPFRAME = 1024 * t + 7)
    (hhead : s.user.listHead = PGSIZE * t)
    (htin : s.user.beginAddr ≤ PGSIZE * t ∧ PGSIZE * t < s.user.endAddr)
    (habove : L.allocBegin ≤ s.user.beginAddr) (hbelow : s.user.endAddr ≤ PHYSTOP) :
    wp (vmUnmappages (PGSIZE * r) TRAPFRAME PGSIZE true)
      (fun _ s' => Cyclic L s.starved s') E s := by
  obtain ⟨k, hk⟩ := tr.table_of_leaf hr (show TRAPFRAME < VA_MAX by decide) (by rw [hleaf]; omega)
  have hkt : k ≠ t := by rintro rfl; rw [ht] at hk; cases hk
  have hpage : pteToPa (1024 * t + 7) = PGSIZE * t :=
    pteToPa_page (by decide) (by simp only [PHYSTOP] at hbelow; omega)
  rw [vmUnmappages_one (by decide) (by decide)]
  refine wp_unmapPage_leaf tr hr (by decide) hk (by rw [hleaf]; omega)
    (by rw [hleaf]; simp only [pteFlags, PTE_V]; omega) ?_
  rw [hleaf, hpage]
  simp only [if_true, wp_bind]
  refine wp_pmemFree htin ?_
  have hself := endless_of_head hhead htin habove hbelow
  refine ⟨⟨_, hself.congr rfl ?_⟩, rfl⟩
  rintro _ rfl a ha
  exact store_outside (vaToVpn_lt TRAPFRAME 0) (by rw [ha]; exact hkt.symm)

theorem wp_procFree (w : Owned L s own l) (h : TopMapped L np s own r t) :
    wp (procFree L np) (fun _ s' => Cyclic L s.starved s') (fun _ s' => Cyclic L s.starved s')
      s := by
  have ht := h.frame
  have htin := w.region t (by simp [ht])
  have ht0 : PGSIZE * t ≠ 0 := by
    have := w.page_pos (n := t) (by simp [ht]); simp only [PGSIZE]; omega
  have hr0 : PGSIZE * r ≠ 0 := by
    have := w.page_pos (n := r) (by simp [h.root]); simp only [PGSIZE]; omega
  simp only [procFree, wp_bind, wp_getProc, h.tf, h.pgtbl, ne_eq, ht0, hr0, not_false_eq_true,
    if_true]
  refine wp_pmemFree htin ?_
  simp only [wp_setProc, uvmDestroyPgtbl, wp_bind]
  -- the given page false is not a table
  have htree : Tree L (given s false t).mem own := w.tree.congr fun n q h v hn hpos a ha =>
    given_outside (by rw [ha]; rintro rfl; rw [ht] at hn; cases hn; omega)
  have hleaf : ∀ va, va < VA_MAX →
      leafPte (given s false t).mem (PGSIZE * r) va = leafPte s.mem (PGSIZE * r) va := fun va hva =>
    w.tree.leaf_writeFrame ht (fun a ha => given_outside ha) h.root hva
  obtain ⟨k, hk⟩ := htree.table_of_leaf h.root (show TRAPFRAME < VA_MAX by decide)
    (by rw [hleaf _ (by decide), h.trapframe]; omega)
  have hk' : own k = .node np 1 (vpn TRAMPOLINE 1) := hk
  rw [vmUnmappages_one (by decide) (by decide)]
  refine wp_unmapPage_leaf htree h.root (by decide) hk' ?_ ?_ ?_
  · rw [hleaf _ (by decide), h.trampoline]; omega
  · rw [hleaf _ (by decide), h.trampoline]; simp only [pteFlags, PTE_V]; omega
  simp only [Bool.false_eq_true, if_false, wp_store64]
  -- then the trapframe, whose page is still the head of the list
  have hi := vaToVpn_lt TRAMPOLINE 0
  have htree2 : Tree L (Bytes.store 8 (given s false t).mem (PGSIZE * k + 8 * vaToVpn TRAMPOLINE 0) 0) own :=
    htree.setLeaf hk' hi (by decide) (by omega)
  have hls := leafSet_store htree h.root (by decide) hk' (by decide) htree2
  have htf2 := (hls.other TRAPFRAME (by decide) (by decide)).trans
    ((hleaf TRAPFRAME (by decide)).trans h.trapframe)
  refine wp_conseq (wp_unmapHead (L := L) htree2 h.root ht htf2 rfl htin w.above
    w.below) ?_ (fun _ _ h => h)
  rintro - s2 h2
  refine wp_conseq (cyclic_destroyPgtbl 2 _ _ h2) ?_ (fun _ _ h => h)
  rintro - s3 h3
  refine wp_conseq (cyclic_freeMmapList _ _ _ (h3.congr rfl rfl rfl)) ?_ (fun _ _ h => h)
  rintro - s4 h4
  exact cyclic_setExitState _ _ _ (h4.congr rfl rfl rfl)

/-! ## The copy of the mmap list -/

/-- Only the nodes and the child's list have changed. -/
def ListCopied (np : Slot) (s s' : Machine) : Prop := ∃ nodes o,
  s' = { s with
    nodes := nodes, procs := Function.update s.procs np { s.procs np with mmap := o } }

theorem ListCopied.refl (np : Slot) (s : Machine) : ListCopied np s s :=
  ⟨s.nodes, (s.procs np).mmap, by rw [Function.update_eq_self]⟩

theorem listCopied_setNode (i : NodeId) (f : MmapNode → MmapNode) :
    Stays (ListCopied np s) (setNode i f) := by
  rintro _ ⟨nodes, o, rfl⟩
  exact ⟨_, o, rfl⟩

theorem listCopied_mmapRegionAlloc : Stays (ListCopied np s) mmapRegionAlloc := by
  refine .bind (fun _ h => h) fun h => ?_
  cases h.poolNext with
  | none => exact .panic _
  | some i =>
    exact .bind (fun _ h => h) fun _ => .bind (listCopied_setNode _ _) fun _ =>
      .bind (listCopied_setNode _ _) fun _ => .pure _

theorem listCopied_copyMmapList :
    ∀ fuel dst src, Stays (ListCopied np s) (copyMmapList np fuel dst src) := by
  intro fuel
  induction fuel with
  | zero =>
    intro dst src
    cases src with
    | none => exact .pure _
    | some i => exact .throw _
  | succ fuel ih =>
    intro dst src
    cases src with
    | none => exact .pure _
    | some i =>
      refine .bind listCopied_mmapRegionAlloc fun c => .bind (fun _ h => h) fun n =>
        .bind (listCopied_setNode _ _) fun _ => ?_
      cases dst with
      | none =>
        refine .bind ?_ fun _ => .bind (fun _ h => h) fun _ => ih _ _
        rintro _ ⟨nodes, o, rfl⟩
        exact ⟨nodes, some c, by simp⟩
      | some j => exact .bind (listCopied_setNode _ _) fun _ => .bind (fun _ h => h) fun _ => ih _ _

/-- The list from `o` ends, and the pool has a node for each of its nodes. -/
def Copyable (nodes : NodeId → MmapNode) (o : Option NodeId) : Prop := ∃ ids free e,
  Linked (fun i => (nodes i).next) o ids none ∧
  Linked (fun i => (nodes i).poolNext) (nodes listHead).poolNext free e ∧
  (listHead :: (ids ++ free)).Nodup ∧ ids.length ≤ free.length ∧ ids.length ≤ N_MMAP

theorem Copyable.none (nodes : NodeId → MmapNode) : Copyable nodes none :=
  ⟨[], [], _, rfl, rfl, by simp, le_rfl, Nat.zero_le _⟩

/-- The copy takes one node of the pool for each node of the list, and none that it still has to
read. -/
theorem copyMmapList_returns (np : Slot) : ∀ (ids free : List NodeId) (e : Option NodeId) (fuel : Nat)
    (dst o : Option NodeId) (s : Machine), Linked (fun i => (s.nodes i).next) o ids none →
    Linked (fun i => (s.nodes i).poolNext) (s.nodes listHead).poolNext free e →
    (listHead :: (ids ++ free)).Nodup → (∀ j, dst = some j → j ∉ listHead :: (ids ++ free)) →
    ids.length ≤ free.length → ids.length ≤ fuel →
    wp (copyMmapList np fuel dst o) (fun _ _ => True) (fun _ _ => False) s := by
  intro ids
  induction ids with
  | nil =>
    intro free e fuel dst o s hsrc _ _ _ _ _
    obtain rfl : o = none := hsrc
    cases fuel <;> trivial
  | cons i ids ih =>
    intro free e fuel dst o s hsrc hpool hnd hdst hlen hfuel
    obtain ⟨rfl, hsrc⟩ := hsrc
    obtain _ | ⟨k, free⟩ := free
    · simp at hlen
    obtain ⟨hk, hpool⟩ := hpool
    obtain _ | fuel := fuel
    · simp at hfuel
    simp only [List.length_cons, Nat.add_le_add_iff_right] at hlen hfuel
    rw [copyMmapList, mmapRegionAlloc]
    simp only [wp_bind, wp_getNode, hk, wp_setNode, wp_pure]
    have hnd' : (listHead :: (ids ++ free)).Nodup := by grind
    have hk' : k ∉ listHead :: (ids ++ free) := by grind
    have hlk : listHead ≠ k := by grind
    -- what is still to be read is as before
    have hrest : ∀ t : Machine,
        (∀ x, x ≠ listHead → x ≠ k → dst ≠ some x → t.nodes x = s.nodes x) →
        (t.nodes listHead).poolNext = (s.nodes k).poolNext →
        wp (copyMmapList np fuel (some k) (t.nodes i).next) (fun _ _ => True) (fun _ _ => False) t := by
      intro t ht hhead
      have hsame : ∀ x ∈ i :: (ids ++ free), t.nodes x = s.nodes x := by
        intro x hx
        exact ht x (by grind) (by grind) fun hd => hdst x hd (by grind)
      refine ih free e fuel (some k) _ t ?_ ?_ hnd' (by rintro _ ⟨⟩; exact hk') hlen hfuel
      · rw [hsame i (by simp)]
        exact hsrc.congr fun x hx => by rw [hsame x (by simp [hx])]
      · rw [hhead]
        exact hpool.congr fun x hx => by rw [hsame x (by simp [hx])]
    cases dst with
    | none => exact hrest _ (fun x hx hxk _ => by simp [hx, hxk]) (by simp [hlk])
    | some j =>
      have hj : listHead ≠ j := fun h => hdst j rfl (by simp [h])
      refine hrest _ (fun x hx hxk hxj => ?_) (by simp [hlk, hj])
      have hxj' : x ≠ j := fun h => hxj (by rw [h])
      simp [hx, hxk, hxj']

theorem wp_copyMmapList {src : Option NodeId} :
    wp (copyMmapList np N_MMAP none src) (fun _ s' => ListCopied np s s')
      (fun _ s' => ¬ Copyable s.nodes src ∧ ListCopied np s s') s := by
  have hcopied := listCopied_copyMmapList N_MMAP none src _ (.refl np s)
  by_cases hc : Copyable s.nodes src
  · obtain ⟨ids, free, e, hsrc, hpool, hnd, hlen, hfuel⟩ := hc
    have hret := copyMmapList_returns np ids free e N_MMAP none src s hsrc hpool hnd (by simp) hlen hfuel
    exact wp_conseq (wp_and hcopied hret) (fun _ _ h => h.1) fun _ _ h => h.2.elim
  · exact wp_conseq hcopied (fun _ _ h => h) fun _ _ h => ⟨hc, h⟩

/-- Does `proc_fork` get through the copies, given memory? -/
def ForkClear (s : Machine) (p : Slot) : Prop :=
  stuck (validPage s.mem (s.procs p).pgtbl)
      (copySteps (s.procs p).heapTop (s.procs p).ustackPages) = false ∧
    Copyable s.nodes (s.procs p).mmap

/-! ## What `proc_fork` needs -/

/-- The process `p` has the page table `r`, and the unused slots have no page. -/
structure Ready (L : Layout) (p : Slot) (s : Machine) (own : Nat → Owner) (l : List Nat) (r : Nat) :
    Prop where
  owned : Owned L s own l
  live : (s.procs p).state ≠ .unused
  pgtbl : (s.procs p).pgtbl = PGSIZE * r
  root : own r = .node p 3 0
  unused : ∀ q, (s.procs q).state = .unused → ∀ n h v, own n ≠ .node q h v

abbrev USTACK_VPN : Nat := TRAPFRAME_VPN - 1

/-- The pages of `p` that `uvm_copy_pgtbl` copies. -/
def forkPlan (s : Machine) (p : Slot) : List Nat :=
  plan (validPage s.mem (s.procs p).pgtbl)
    (copySteps (s.procs p).heapTop (s.procs p).ustackPages)

/-- The pages that `proc_fork` takes: trapframe, root and two tables, then the stack page and the
copies with their tables. -/
def forkDemand (s : Machine) (p : Slot) : Nat :=
  4 + cost [TRAMPOLINE_VPN] (USTACK_VPN :: forkPlan s p)

theorem NewSpace.tables_trampoline {m : Bytes} (h : NewSpace L np m own r t) (tr : Tree L m own) :
    Tables own np [TRAMPOLINE_VPN] := by
  have hvpn : ∀ k, vpn TRAMPOLINE k = TRAMPOLINE_VPN / 512 ^ k := vpn_page TRAMPOLINE_VPN
  obtain ⟨c, hc⟩ := tr.table_of_leaf h.root (show TRAMPOLINE < VA_MAX by decide)
    (by rw [h.trampoline]; omega)
  intro k h0 h3 w
  simp only [List.mem_singleton, exists_eq_left]
  constructor
  · rintro ⟨n, hn⟩
    rw [← hvpn]
    exact (h.tables n k w hn h0).symm
  · rintro rfl
    obtain rfl | rfl : k = 1 ∨ k = 2 := by omega
    · exact ⟨c, by rw [hc, hvpn]⟩
    · obtain ⟨d, hd, -⟩ := tr.up hc (by decide) (by decide)
      exact ⟨d, by rw [hd, vpn_div, hvpn]⟩

/-! ## The child -/

/-- The stack page that `proc_fork` maps before the copies. -/
def stackFrame (k : Nat) : Frame := ⟨USTACK_VPN, k, 23⟩

/-- The leaf entries of a new page table with the trapframe `t`. -/
def newLeaf (L : Layout) (t v : Nat) : Nat :=
  if v = TRAMPOLINE_VPN then 1024 * (L.trampoline / PGSIZE) + 11
  else if v = TRAPFRAME_VPN then 1024 * t + 7
  else 0

theorem NewSpace.leaf_eq {m : Bytes} {v : Nat} (h : NewSpace L np m own r t) (hv : PGSIZE * v < VA_MAX) :
    leafPte m (PGSIZE * r) (PGSIZE * v) = newLeaf L t v := by
  unfold newLeaf
  split
  · rename_i hv'; subst hv'; exact h.trampoline
  · split
    · rename_i hv'; subst hv'; exact h.trapframe
    · refine h.low _ ?_
      simp only [TRAMPOLINE_VPN, TRAPFRAME_VPN, TRAPFRAME, TRAMPOLINE, VA_MAX, PGSIZE] at *; omega

/-- `proc_fork` has made `np` a child of `p`, with the trapframe `t`, the stack page `k` and over it
the copies `gs`. -/
structure Forked (L : Layout) (p np : Slot) (s : Machine) (own : Nat → Owner) (l : List Nat) (r : Nat)
    (s' : Machine) (own' : Nat → Owner) (l' : List Nat) (rn t k : Nat) (gs : List Frame) : Prop where
  owned : Owned L s' own' l'
  procs : ∃ o, s'.procs = Function.update s.procs np
    { pid := s.globalPid, state := .runnable, parent := some p, sleepSpace := none,
      pgtbl := PGSIZE * rn, heapTop := (s.procs p).heapTop, ustackPages := (s.procs p).ustackPages,
      mmap := o, tf := PGSIZE * t }
  globalPid : s'.globalPid = incInt s.globalPid
  proczero : s'.proczero = s.proczero
  starved : s'.starved = s.starved
  grows : Grows np s.mem own s'.mem own'
  root : own' rn = .node np 3 0
  frame : own' t = .node np 0 TRAPFRAME_VPN
  fresh : ∀ c ∈ gs ++ [stackFrame k], own c.frame = .free ∧ own' c.frame = .node np 0 c.page
  apart : ∀ c ∈ gs ++ [stackFrame k], c.frame ≠ t
  frames : ∀ n v, own' n = .node np 0 v → n = t ∨ ∃ c ∈ gs ++ [stackFrame k], c.frame = n ∧ c.page = v
  distinct : ((gs ++ [stackFrame k]).map Frame.frame).Nodup
  leaf : ∀ v, PGSIZE * v < VA_MAX → leafPte s'.mem (PGSIZE * rn) (PGSIZE * v) =
    match frameAt (gs ++ [stackFrame k]) v with
    | some c => 1024 * c.frame + c.flags
    | none => newLeaf L t v
  copies : ∀ c ∈ gs, CopyOf s.mem s'.mem r c
  pages : gs.map Frame.page = (forkPlan s p).reverse
  clear : stuck (validPage s.mem (s.procs p).pgtbl)
    (copySteps (s.procs p).heapTop (s.procs p).ustackPages) = false
  length : l.length = l'.length + forkDemand s p

/-- The part of `proc_fork` after the two allocations, with the records `q` of the parent and `n` of
the child as they are then. -/
def forkChild (L : Layout) (p np : Slot) (q n : Mem.Proc) (page : Nat) : MemM Int := do
  vmMappages n.pgtbl (TRAPFRAME - PGSIZE) page PGSIZE (PTE_R ||| PTE_W ||| PTE_U)
  uvmCopyPgtbl L q.pgtbl n.pgtbl q.heapTop q.ustackPages
  setProc np fun n => { n with heapTop := q.heapTop }
  copyMmapList np N_MMAP none q.mmap
  memmove n.tf q.tf TF_SIZE
  store64 (n.tf + 112) 0
  store64 (n.tf + 8) (kstack np + PGSIZE)
  store64 (n.tf + 0) L.satp
  store64 (n.tf + 16) L.trapUserHandler
  setProc np fun n => { n with parent := some p }
  let pid := (← getProc np).pid
  setProc np fun n => { n with state := .runnable }
  return pid

theorem procFork_eq (L : Layout) (p : Slot) : procFork L p = (do
    match ← procAlloc L with
    | none => return -1
    | some np =>
      let page ← pmemAlloc false
      if page = 0 then
        procFree L np
        return -1
      else
        memset page 0 PGSIZE
        let q ← getProc p
        setProc np fun n => { n with ustackPages := q.ustackPages }
        forkChild L p np q (← getProc np) page) := rfl

theorem tf_outside {m : Bytes} {t a x1 x2 x3 x4 : Nat} {src : Nat → UInt8} (ha : a / PGSIZE ≠ t) :
    Bytes.store 8 (Bytes.store 8 (Bytes.store 8 (Bytes.store 8
      (m.write (PGSIZE * t) TF_SIZE src) (PGSIZE * t + 112) x1) (PGSIZE * t + 8) x2)
      (PGSIZE * t + 0) x3) (PGSIZE * t + 16) x4 a = m a := by
  iterate 4 rw [store_page_outside (by decide) ha]
  refine Bytes.write_outside ?_
  simp only [PGSIZE, TF_SIZE] at *; omega

/-- The record of the child before the copy. -/
def newChild (s : Machine) (p np : Slot) (rn t : Nat) : Mem.Proc :=
  { fresh (s.procs np) s.globalPid rn t with ustackPages := (s.procs p).ustackPages }

theorem wp_forkFinish {q n : Mem.Proc} {s3 : Machine} {Q : Int → Machine → Prop}
    {E : Stop → Machine → Prop} (htf : n.tf = PGSIZE * t)
    (hQ : ∀ m nodes o, (∀ a, a / PGSIZE ≠ t → m a = s3.mem a) → Q (s3.procs np).pid { s3 with
      mem := m
      nodes := nodes
      procs := Function.update s3.procs np { s3.procs np with
        heapTop := q.heapTop, mmap := o, parent := some p, state := .runnable } })
    (hE : ¬ Copyable s3.nodes q.mmap → ∀ e s', s'.starved = s3.starved → E e s') :
    wp (do
      setProc np fun n => { n with heapTop := q.heapTop }
      copyMmapList np N_MMAP none q.mmap
      memmove n.tf q.tf TF_SIZE
      store64 (n.tf + 112) 0
      store64 (n.tf + 8) (kstack np + PGSIZE)
      store64 (n.tf + 0) L.satp
      store64 (n.tf + 16) L.trapUserHandler
      setProc np fun n => { n with parent := some p }
      let pid := (← getProc np).pid
      setProc np fun n => { n with state := .runnable }
      return pid) Q E s3 := by
  rw [wp_bind, wp_setProc, wp_bind]
  refine wp_conseq (wp_copyMmapList (s := { s3 with procs := _ })) ?_ ?_
  · rintro - _ ⟨nodes, o, rfl⟩
    simp only [wp_bind, wp_memmove, wp_store64, wp_setProc, wp_getProc, wp_pure, htf,
      Function.update_self, Function.update_idem]
    exact hQ _ _ _ fun a ha => tf_outside ha
  · rintro _ _ ⟨hq, nodes, o, rfl⟩
    exact hE hq _ _ rfl

theorem wp_forkChild {s1 : Machine} {own1 : Nat → Owner} {l1 : List Nat} {rn t k : Nat}
    (h : Ready L p s own l r) (hnp : (s.procs np).state = .unused)
    (n1 : NewProc L np s own rn t s1 own1 (k :: l1)) (hlen1 : l.length = (k :: l1).length + 4) :
    wp (forkChild L p np (s.procs p) (newChild s p np rn t) (PGSIZE * k))
      (fun res s' => res = s.globalPid ∧
        ∃ own' l' gs, Forked L p np s own l r s' own' l' rn t k gs)
      (fun _ s' => l.length < forkDemand s p ∧ s'.starved = true ∨
        (forkDemand s p ≤ l.length ∧ ¬ ForkClear s p) ∧ s'.starved = s.starved)
      { taken s1 false k with procs := Function.update s.procs np (newChild s p np rn t) } := by
  have hpn : p ≠ np := by rintro rfl; exact h.live hnp
  have hstarved1 : s1.starved = s.starved := congrArg Rest.starved n1.rest
  have htab1 := n1.space.tables_trampoline n1.owned.tree
  have htf : (newChild s p np rn t).tf = PGSIZE * t := rfl
  have hpgtbl : (newChild s p np rn t).pgtbl = PGSIZE * rn := rfl
  have hva : TRAPFRAME - PGSIZE = PGSIZE * USTACK_VPN := by decide
  rw [forkChild, wp_bind, hpgtbl, h.pgtbl, hva]
  -- the stack page, which needs no table
  have w1 : Owned L { s1 with procs := Function.update s.procs np (newChild s p np rn t) } own1
      (k :: l1) := n1.owned.ofRest rfl rfl
  have hmiss : missing own1 np (PGSIZE * USTACK_VPN) = 0 := by
    rw [htab1.missing_eq]; decide
  refine wp_conseq (wp_placeFrame (taken s1 false k).mem USTACK_VPN (PTE_R ||| PTE_W ||| PTE_U) w1
    n1.space.root (by decide) (by decide) fun a ha => taken_outside ha) ?_ ?_
  case refine_2 =>
    rintro _ s' ⟨hlt, -⟩
    rw [hmiss] at hlt
    simp only [List.length_cons] at hlt
    omega
  rintro - s2 ⟨own2, l2, f2, -⟩
  have g2 : Grows np s.mem own s2.mem own2 := n1.grows.trans f2.grows
  have hval := validPage_others g2 h.owned.tree f2.owned.tree hpn h.root
  have hcost : cost [TRAMPOLINE_VPN] (USTACK_VPN :: forkPlan s p) =
      cost [TRAMPOLINE_VPN] [USTACK_VPN] + cost [USTACK_VPN, TRAMPOLINE_VPN] (forkPlan s p) :=
    cost_cons ..
  have hlen2 := f2.length htab1
  have htab2 := f2.tables htab1
  simp only [List.map_cons, List.map_nil, List.reverse_singleton, List.singleton_append] at hlen2 htab2
  have hstarved2 : s2.starved = s.starved := (congrArg Rest.starved f2.rest).trans hstarved1
  have hplan : plan (validPage s2.mem (PGSIZE * r))
      (copySteps (s.procs p).heapTop (s.procs p).ustackPages) = forkPlan s p := by
    rw [hval, forkPlan, h.pgtbl]
  have hdup := duplicates_uvmCopyPgtbl (L := L) hpn (s.procs p).heapTop (s.procs p).ustackPages s2 own2
    l2 _ f2.owned (g2.keeps h.root (by simp)) (f2.grows.keeps n1.space.root (by simp)) htab2
  rw [hplan] at hdup
  rw [wp_bind]
  refine wp_conseq hdup ?_ ?_
  case refine_2 =>
    rintro _ s' (⟨hlt, hs⟩ | ⟨hst, hle, hs⟩)
    · exact .inl ⟨by rw [forkDemand, hcost]; omega, hs⟩
    · refine .inr ⟨⟨by rw [forkDemand, hcost]; omega, fun hcl => ?_⟩, hs.trans hstarved2⟩
      rw [hval, ← h.pgtbl, hcl.1] at hst
      cases hst
  rintro - s3 ⟨hclear, gs, own3, l3, f3, hcopies, hpages⟩
  rw [hval] at hclear
  have hlen3 := f3.length htab2
  rw [hpages, List.reverse_reverse] at hlen3
  have hdemand : l.length = l3.length + forkDemand s p := by rw [forkDemand, hcost]; omega
  have f : Framed L np _ own1 (k :: l1) rn (gs ++ [stackFrame k]) s3 own3 l3 := f2.trans f3
  have hprocs3 : s3.procs = Function.update s.procs np (newChild s p np rn t) :=
    congrArg Rest.procs f.rest
  have ht0 : own t = .free := by
    rcases n1.grows.owner t with ht | ⟨ht, -⟩
    · rw [n1.space.frame] at ht
      exact absurd ht.symm (h.unused np hnp t 0 TRAPFRAME_VPN)
    · exact ht
  have ht3 := f.grows.keeps n1.space.frame (by simp)
  have hrn3 := f.grows.keeps n1.space.root (by simp)
  refine wp_forkFinish htf (fun m nodes o hm => ⟨by rw [hprocs3]; simp [newChild, fresh], ?_⟩)
    (fun hq e s' hs => .inr ⟨⟨by omega, fun hcl => hq ?_⟩, ?_⟩)
  case refine_2 =>
    rw [show s3.nodes = s.nodes from (congrArg Rest.nodes f.rest).trans (congrArg Rest.nodes n1.rest)]
    exact hcl.2
  case refine_3 => rw [hs, ← hstarved1]; exact congrArg Rest.starved f.rest
  -- the trapframe page is no table, and no other frame
  have hleaf := fun va (hva : va < VA_MAX) => f.owned.tree.leaf_writeFrame ht3 hm hrn3 hva
  have hapart : ∀ c ∈ gs ++ [stackFrame k], c.frame ≠ t := by
    intro c hc he
    have := (f.fresh c hc).1
    rw [he, n1.space.frame] at this
    cases this
  refine ⟨own3, l3, gs, (f.owned.writeFrame ht3 hm).ofRest rfl rfl, ⟨o, ?_⟩, ?_, ?_, ?_, ?_, hrn3, ht3,
    fun c hc => ?_, hapart, fun n v hn => ?_, f.distinct, fun v hmax => ?_, fun c hc => ?_, hpages,
    by rw [h.pgtbl]; exact hclear, hdemand⟩
  · rw [hprocs3]; simp [newChild, fresh]
  · exact (congrArg Rest.globalPid f.rest).trans (congrArg Rest.globalPid n1.rest)
  · exact (congrArg Rest.proczero f.rest).trans (congrArg Rest.proczero n1.rest)
  · exact (congrArg Rest.starved f.rest).trans hstarved1
  · refine (n1.grows.trans f.grows).poke fun {n q' h' v'} hn a ha => hm a ?_
    rw [ha]; rintro rfl
    rw [ht0] at hn; cases hn
  · refine ⟨?_, (f.fresh c hc).2⟩
    rcases n1.grows.owner c.frame with hc' | ⟨hc', -⟩
    · rw [← hc']; exact (f.fresh c hc).1
    · exact hc'
  · rcases f.frames n v hn with hn | hn
    · exact .inl (n1.space.frames n v hn)
    · exact .inr hn
  · rw [hleaf _ hmax, f.leaf v hmax]
    cases frameAt (gs ++ [stackFrame k]) v with
    | some c => rfl
    | none => exact n1.space.leaf_eq hmax
  · refine ((hcopies c hc).from g2 h.owned.tree f2.owned.tree hpn h.root).until fun a ha => hm a ?_
    rw [ha]; exact hapart c (by simp [hc])

theorem wp_procFork (h : Ready L p s own l r) :
    wp (procFork L p)
      (fun res s' => match findUnused s with
        | none => res = -1 ∧ s' = s
        | some np => 0 ≤ s.globalPid ∧
          ((l = [] ∧ res = -1 ∧ s' = { s with
            procs := Function.update s.procs np { s.procs np with pid := s.globalPid, tf := 0 }
            globalPid := incInt s.globalPid
            starved := true }) ∨
          (l.length = 4 ∧ res = -1 ∧ Cyclic L true s') ∨
          (res = s.globalPid ∧
            ∃ own' l' rn t k gs, Forked L p np s own l r s' own' l' rn t k gs)))
      (fun _ s' => ∃ np, findUnused s = some np ∧
        (0 ≤ s.globalPid ∧ 0 < l.length ∧ l.length < forkDemand s p ∧ s'.starved = true ∨
          (s.globalPid < 0 ∨ forkDemand s p ≤ l.length ∧ ¬ ForkClear s p) ∧
            s'.starved = s.starved)) s := by
  have hdemand : 5 ≤ forkDemand s p := by
    rw [forkDemand, cost_cons, cost]; omega
  have halloc := wp_procAlloc h.owned h.unused
  rw [procFork_eq, wp_bind]
  cases hfu : findUnused s with
  | none =>
    rw [procAlloc, wp_bind, wp_get, hfu]
    exact ⟨rfl, rfl⟩
  | some np =>
    rw [hfu] at halloc
    have hnp : (s.procs np).state = .unused := by
      have := List.find?_some hfu; simpa using this
    have hpn : p ≠ np := by rintro rfl; exact h.live hnp
    refine wp_conseq halloc ?_ ?_
    · rintro _ s1 ⟨hpid, ⟨rfl, hl, hs1⟩ | ⟨rfl, rn, t, own1, l1, n1, hlen1⟩⟩
      · exact ⟨hpid, .inl ⟨hl, rfl, hs1⟩⟩
      have hprocs1 : s1.procs = Function.update s.procs np (fresh (s.procs np) s.globalPid rn t) :=
        congrArg Rest.procs n1.rest
      rw [wp_bind]
      refine wp_pmemAlloc n1.owned (fun hl => ?_) (fun k l2 hl => ?_)
      · -- no page for the stack: the child is torn down
        subst hl
        have htop : TopMapped L np { s1 with starved := true } own1 rn t :=
          ⟨by simp [hprocs1, fresh], by simp [hprocs1, fresh], n1.space.root, n1.space.frame,
            n1.space.trampoline, n1.space.trapframe⟩
        rw [if_pos rfl, wp_bind]
        refine wp_conseq (wp_procFree (l := []) (n1.owned.ofRest rfl rfl) htop) ?_ ?_
        · exact fun _ s' hc => ⟨hpid, .inr (.inl ⟨hlen1, rfl, hc⟩)⟩
        · refine fun _ s' hc => ⟨np, rfl, .inl ⟨hpid, ?_, ?_, hc.2⟩⟩
          · rw [hlen1]; decide
          · simp only [List.length_nil] at hlen1; omega
      · subst hl
        rw [if_neg n1.owned.head_ne_zero, wp_bind, wp_memset, taken_clear, wp_bind, wp_getProc,
          wp_bind, wp_setProc, wp_bind, wp_getProc]
        have hq : s1.procs p = s.procs p := by rw [hprocs1, Function.update_of_ne hpn]
        have hn : { s1.procs np with ustackPages := (s1.procs p).ustackPages } =
            newChild s p np rn t := by rw [hq, hprocs1, Function.update_self, newChild]
        have hprocs : Function.update s1.procs np (newChild s p np rn t) =
            Function.update s.procs np (newChild s p np rn t) := by
          rw [hprocs1, Function.update_idem]
        have hchild := wp_forkChild h hnp n1 hlen1
        rw [← hprocs] at hchild
        dsimp only [taken_procs]
        rw [hn, hq, Function.update_self]
        refine wp_conseq hchild ?_ ?_
        · rintro res s' ⟨hres, own', l', gs, hf⟩
          exact ⟨hpid, .inr (.inr ⟨hres, own', l', rn, t, k, gs, hf⟩)⟩
        · rintro _ s' (⟨hlt, hs⟩ | ⟨hle, hs⟩)
          · exact ⟨np, rfl, .inl ⟨hpid, by simp only [List.length_cons] at hlen1; omega, hlt, hs⟩⟩
          · exact ⟨np, rfl, .inr ⟨.inr hle, hs⟩⟩
    · rintro _ s1 (⟨hpid, hs⟩ | ⟨hpid, hpos, hlt, hs⟩)
      · exact ⟨np, rfl, .inr ⟨.inl hpid, hs⟩⟩
      · exact ⟨np, rfl, .inl ⟨hpid, hpos, by omega, hs⟩⟩

end Proc
end WhuOS
