import WhuOS.Lib.Linked
import WhuOS.Mem.Pmem
import WhuOS.Proc.Space

/-!
# WhuOS.Proc.Boot

The state in which the first process starts to run.

* `wp_pmemInit`      — afterwards every page of the user region is free.
* `Inv`              — what holds between system calls: every slot in use has its own page table.
* `Booted`           — the state after `boot`, with the address space of the first process.
* `wp_boot`          — `boot` reaches such a state, given eight pages and an `initcode` that fits.
-/

namespace WhuOS
namespace Proc

open Lib Kern Mem Sched

variable {L : Layout} {s : Machine} {own : Nat → Owner} {l : List Nat}

/-! ## `pmem_init` -/

/-- Where the user region begins, as a page number, and how many pages it has. -/
def userBegin (L : Layout) : Nat := min (L.allocBegin + KERNEL_PAGES * PGSIZE) ALLOC_END / PGSIZE

def userPages (L : Layout) : Nat := ALLOC_END / PGSIZE - userBegin L

def startOwner (L : Layout) (n : Nat) : Owner :=
  if userBegin L ≤ n ∧ n < userBegin L + userPages L then .free else .other

theorem fits_layout (L : Layout) : Fits L.allocBegin ALLOC_END := by
  have h1 := L.allocBegin_le
  have h2 := L.exitState_data 0
  have h3 := L.trampoline_lt
  have h4 : KERNEL_PAGES * PGSIZE + L.allocBegin < 2 ^ 64 := by
    simp only [KERNEL_PAGES, PGSIZE, ALLOC_END] at *; omega
  refine ⟨by omega, h1, h4, ?_, by decide⟩
  have h5 : kernEnd L.allocBegin ALLOC_END ≤ ALLOC_END := by rw [kernEnd_eq h4]; exact Nat.min_le_right _ _
  simp only [ALLOC_END, PGSIZE] at *; omega

theorem wp_pmemInit {E : Stop → Machine → Prop} :
    wp (pmemInit L.allocBegin ALLOC_END)
      (fun _ s' => Owned L s' (startOwner L) (pagesDown (userBegin L) (userPages L)) ∧
        s' = { s with mem := s'.mem, kern := s'.kern, user := s'.user }) E s := by
  have hfits := fits_layout L
  have hbegin : kernEnd L.allocBegin ALLOC_END = PGSIZE * userBegin L := by
    have := L.allocBegin_aligned
    rw [kernEnd_eq hfits.kern]
    simp only [userBegin, PGSIZE, KERNEL_PAGES, ALLOC_END] at *; omega
  have hend : ALLOC_END = PGSIZE * (userBegin L + userPages L) := by
    have : userBegin L ≤ ALLOC_END / PGSIZE :=
      Nat.div_le_div_right (Nat.min_le_right _ _)
    simp only [userPages, PGSIZE, ALLOC_END] at *; omega
  have hfirst : firstPage (kernEnd L.allocBegin ALLOC_END) = userBegin L := by
    rw [hbegin]; simp only [firstPage, PGSIZE]; omega
  have hcount : pageCount (kernEnd L.allocBegin ALLOC_END) ALLOC_END = userPages L := by
    rw [pageCount, hfirst, userPages]
  obtain ⟨s2, hrun, hf, hrest⟩ := pmemInit_filled hfits s
  have hlist := hf.user
  rw [hfirst, hcount] at hlist
  have hb := hf.userBegin
  have he := hf.userEnd
  refine wp_of_ok hrun ⟨⟨hlist.chain, hlist.nodup, fun n hn => ?_, ?_, fun n hn => ?_, ?_, ?_, ?_,
    fun n hn => ?_⟩, ?_⟩
  · simp only [startOwner, if_pos (mem_pagesDown.mp hn)]
  · have hc : s2.user.allocable = _ := hlist.count
    rw [hc, length_pagesDown, Nat.mod_eq_of_lt]
    have : userPages L ≤ ALLOC_END / PGSIZE := Nat.sub_le _ _
    simp only [ALLOC_END, PGSIZE] at this; omega
  · have : userBegin L ≤ n ∧ n < userBegin L + userPages L := by
      by_contra hno; simp [startOwner, hno] at hn
    rw [hb, he, hbegin]; simp only [PGSIZE] at *; omega
  · rw [hb, kernEnd_eq hfits.kern]
    have := L.allocBegin_le
    omega
  · exact Nat.le_of_eq he
  · have hno : ∀ n q h v, startOwner L n ≠ .node q h v := by
      intro n q h v; unfold startOwner; split <;> simp
    exact ⟨fun h => (hno _ _ _ _ h).elim, fun h => (hno _ _ _ _ h).elim,
      fun h => (hno _ _ _ _ h).elim, fun h => (hno _ _ _ _ h).elim⟩
  · refine mem_pagesDown.mpr ?_
    by_contra hno; simp [startOwner, hno] at hn
  · have := congrArg (fun x : Machine => { x with mem := s2.mem, kern := s2.kern, user := s2.user }) hrest
    exact this

/-! ## The first process -/

structure Inv (L : Layout) (s : Machine) (own : Nat → Owner) (l : List Nat) : Prop where
  owned : Owned L s own l
  live : ∀ q, (s.procs q).state ≠ .unused →
    (∃ r, (s.procs q).pgtbl = PGSIZE * r ∧ own r = .node q 3 0) ∧ (s.procs q).ustackPages = 1
  unused : ∀ q, (s.procs q).state = .unused → ∀ n h v, own n ≠ .node q h v

abbrev USTACK : Nat := TRAPFRAME - PGSIZE

/-- The process `p` is alone, with one page of code and one of stack. -/
structure Booted (L : Layout) (p : Slot) (r t : Nat) (s : Machine) (own : Nat → Owner)
    (l : List Nat) : Prop where
  inv : Inv L s own l
  proc : s.procs p =
    { pid := 0, state := .runnable, parent := none, sleepSpace := none, pgtbl := PGSIZE * r,
      heapTop := 2 * PGSIZE, ustackPages := 1, mmap := none, tf := PGSIZE * t }
  others : ∀ q, q ≠ p → (s.procs q).state = .unused ∧ (s.procs q).tf = 0 ∧ (s.procs q).mmap = none
  proczero : s.proczero = some p
  root : own r = .node p 3 0
  frame : own t = .node p 0 TRAPFRAME_VPN
  trampoline : leafPte s.mem (PGSIZE * r) TRAMPOLINE = 1024 * (L.trampoline / PGSIZE) + 11
  trapframe : leafPte s.mem (PGSIZE * r) TRAPFRAME = 1024 * t + 7
  stack : ∃ k, leafPte s.mem (PGSIZE * r) USTACK = 1024 * k + 23
  code : ∃ k, leafPte s.mem (PGSIZE * r) PGSIZE = 1024 * k + 31
  low : ∀ va, va < TRAPFRAME → va / PGSIZE ≠ 1 → va / PGSIZE ≠ TRAPFRAME_VPN - 1 →
    leafPte s.mem (PGSIZE * r) va = 0

theorem findUnused_start (h : ∀ q, (s.procs q).state = .unused) : findUnused s = some 0 := by
  simp [findUnused, List.finRange_succ, NPROC, h]

theorem wp_procMakeFirst {hartid : Nat} (w : Owned L s own l)
    (hun : ∀ q, (s.procs q).state = .unused) (htf : ∀ q, (s.procs q).tf = 0)
    (hmmap : ∀ q, (s.procs q).mmap = none) (hno : ∀ n q h v, own n ≠ .node q h v) :
    wp (procMakeFirst L hartid)
      (fun _ s' => ∃ r t own' l', Booted L 0 r t s' own' l' ∧
        s'.globalPid = incInt s.globalPid ∧ s'.nodes = s.nodes ∧ l.length = l'.length + 8)
      (fun _ _ => l.length < 8 ∨ PGSIZE < L.initcode.length ∨ s.globalPid < 0) s := by
  simp only [procMakeFirst, wp_bind]
  refine wp_conseq (wp_procAlloc w fun q _ n h v => hno n q h v) ?_ (by
    rintro _ _ (⟨h, -⟩ | ⟨-, -, h, -⟩)
    · exact .inr (.inr h)
    · exact .inl (by omega))
  intro res s1 h1
  rw [findUnused_start hun] at h1
  rcases h1.2 with ⟨rfl, hl, -⟩ | ⟨rfl, r, t, own1, l1, np1, hlen1⟩
  · exact .inl (by rw [hl]; decide)
  have hr1 := np1.space.root
  have hprocs1 : s1.procs = Function.update s.procs 0 (fresh (s.procs 0) s.globalPid r t) :=
    congrArg Rest.procs np1.rest
  simp only [wp_bind, wp_modify, wp_setProc, hprocs1, Function.update_self,
    Function.update_idem]
  -- the user stack, whose tables are those of the trapframe
  refine wp_pmemAlloc (l := l1) (np1.owned.ofRest rfl rfl) (fun hl => ?_) (fun k l2 hl => ?_)
  · exact .inl (by rw [hlen1, hl]; decide)
  subst hl
  have hk0 : PGSIZE * k ≠ 0 := by
    have := np1.owned.page_pos (n := k) (by simp [np1.owned.free k]); simp only [PGSIZE]; omega
  simp only [hk0, if_false, wp_bind, wp_memset, wp_setProc, wp_getProc, taken_clear,
    taken_procs, Function.update_self, Function.update_idem, fresh]
  have e2 := np1.owned.take_frame (q := 0) (vpn USTACK 0)
  obtain ⟨tb, htb⟩ := np1.owned.tree.table_of_leaf hr1 (show TRAPFRAME < VA_MAX by decide)
    (by rw [np1.space.trapframe]; omega)
  have hmiss : missing own1 0 USTACK = 0 := missing_of_table np1.owned.tree (k := tb)
    (by rw [htb, show vpn TRAPFRAME 1 = vpn USTACK 1 by decide])
  have hr2 := e2.grows.keeps hr1 (by simp)
  refine wp_conseq (wp_vmMappages USTACK k (PTE_R ||| PTE_W ||| PTE_U)
    (e2.owned.ofRest rfl rfl) hr2 (by decide) (by decide) (by decide) (.inl (by simp))) ?_ ?_
  · rintro - s3 ⟨own3, l3, mp3, hlen3, -⟩
    rw [missing_update_frame (np1.owned.free k (by simp)), hmiss] at hlen3
    simp only [List.length_cons] at hlen1
    simp only [wp_assert, decide_eq_true_eq]
    split
    case isFalse => exact .inr (.inl (by omega))
    rename_i hcode
    -- the code page needs two tables of its own
    refine wp_pmemAlloc mp3.owned (fun hl => ?_) (fun c l4 hl => ?_)
    · rw [hl] at hlen3
      exact .inl (by simp only [List.length_nil] at hlen3; omega)
    subst hl
    simp only [List.length_cons] at hlen3
    have hc0 : PGSIZE * c ≠ 0 := by
      have := mp3.owned.page_pos (n := c) (by simp [mp3.owned.free c]); simp only [PGSIZE]; omega
    have hr3 := mp3.grows.keeps hr2 (by simp)
    have e4 := mp3.owned.take_frame (q := 0) (vpn PGSIZE 0)
    have hr4 := e4.grows.keeps hr3 (by simp)
    simp only [hc0, if_false, wp_bind, wp_memset, taken_clear, wp_modify]
    have hm5 : ∀ a, a / PGSIZE ≠ c → (taken s3 false c).mem.write (PGSIZE * c) L.initcode.length
        (fun i => L.initcode.getD i 0) a = (taken s3 false c).mem a := by
      intro a ha
      refine Bytes.write_outside ?_
      simp only [PGSIZE] at *; omega
    have hmissc : missing (Function.update own3 c (.node 0 0 (vpn PGSIZE 0))) 0 PGSIZE = 2 := by
      -- all tables so far are those of the trampoline
      have htab : ∀ h, 0 < h → h < 3 → ∀ n, own3 n ≠ .node 0 h (vpn PGSIZE h) := by
        intro h h0 h3 n hn
        have hv : vpn PGSIZE h = vpn TRAMPOLINE h ∨ vpn PGSIZE h = vpn USTACK h := by
          rcases mp3.nodes n h _ hn with hn | hv
          · rcases update_frame_nodes hn with hn | ⟨rfl, -⟩
            · exact .inl (np1.space.tables n h _ hn h0)
            · omega
          · exact .inr hv
        obtain rfl | rfl : h = 1 ∨ h = 2 := by omega
        all_goals revert hv; decide
      rw [missing_update_frame (mp3.owned.free c (by simp)), missing,
        lacks_of_none (htab 2 (by decide) (by decide)), lacks_of_none (htab 1 (by decide) (by decide))]
    have w5 := e4.owned.writeFrame (k := c) (q := 0) (v := vpn PGSIZE 0) (by simp) hm5
    refine wp_conseq (wp_vmMappages PGSIZE c (PTE_R ||| PTE_W ||| PTE_X ||| PTE_U) w5 hr4
      (by decide) (by decide) (by decide) (.inl (by simp))) ?_ ?_
    · rintro - s6 ⟨own6, l6, mp6, hlen6, -⟩
      have hr6 := mp6.grows.keeps hr4 (by simp)
      have ht6 := mp6.grows.keeps (e4.grows.keeps (mp3.grows.keeps
        (e2.grows.keeps np1.space.frame (by simp)) (by simp)) (by simp)) (by simp)
      have hprocs6 := congrArg Rest.procs mp6.rest
      have hprocs3 := congrArg Rest.procs mp3.rest
      simp only [Machine.rest, taken_procs] at hprocs6 hprocs3
      simp only [wp_setProc, wp_store64, hprocs6, hprocs3, Function.update_self,
        Function.update_idem]
      have hm7 : ∀ a, a / PGSIZE ≠ t → Bytes.store 8 (Bytes.store 8 (Bytes.store 8 (Bytes.store 8
          (Bytes.store 8 (Bytes.store 8 s6.mem (PGSIZE * t + 24) PGSIZE) (PGSIZE * t + 48)
          (TRAPFRAME - PGSIZE + PGSIZE)) (PGSIZE * t + 0) L.satp) (PGSIZE * t + 8)
          (kstack 0 + PGSIZE)) (PGSIZE * t + 16) L.trapUserHandler) (PGSIZE * t + 32) hartid a =
          s6.mem a := by
        intro a ha
        iterate 6 rw [store_page_outside (by decide) ha]
      -- the entries of the new table, from the last change to the first
      have hl7 := fun va (hva : va < VA_MAX) => mp6.owned.tree.leaf_writeFrame ht6 hm7 hr6 hva
      have hl5 : ∀ va, va < VA_MAX → va / PGSIZE ≠ 1 →
          leafPte s6.mem (PGSIZE * r) va = leafPte s3.mem (PGSIZE * r) va := fun va hva hne => by
        rw [mp6.leaf.other va hva (by simpa using hne),
          e4.owned.tree.leaf_writeFrame (q := 0) (v := vpn PGSIZE 0) (by simp) hm5 hr4 hva,
          e4.leaf hr3 hva]
      have hl3 : ∀ va, va < VA_MAX → va / PGSIZE ≠ TRAPFRAME_VPN - 1 →
          leafPte s3.mem (PGSIZE * r) va = leafPte s1.mem (PGSIZE * r) va := fun va hva hne => by
        rw [mp3.leaf.other va hva hne]
        exact e2.leaf hr1 hva
      have hother : ∀ n q h v, q ≠ 0 → own6 n ≠ .node q h v := by
        intro n q h v hq hn
        have h5 := (e4.grows.others hq).mp ((mp6.grows.others hq).mp hn)
        have h3 := (e2.grows.others hq).mp ((mp3.grows.others hq).mp h5)
        exact hno _ _ _ _ ((np1.grows.others hq).mp h3)
      refine ⟨r, t, own6, l6, ⟨⟨(mp6.owned.writeFrame ht6 hm7).ofRest rfl rfl, ?_, ?_⟩, by simp, ?_,
        ?_, hr6, ht6, ?_, ?_, ⟨k, ?_⟩, ⟨c, ?_⟩, fun va hva h1 h2 => ?_⟩, ?_, ?_, ?_⟩
      · intro q hq
        by_cases hq0 : q = 0
        · subst hq0; exact ⟨⟨r, by simp, hr6⟩, by simp⟩
        · exact absurd (hun q) (by simpa [hq0] using hq)
      · intro q hq n h v
        refine hother n q h v ?_
        rintro rfl; simp at hq
      · intro q hq; simpa [hq] using ⟨hun q, htf q, hmmap q⟩
      · have h6 := congrArg Rest.proczero mp6.rest
        have h3 := congrArg Rest.proczero mp3.rest
        simp only [Machine.rest, taken_user] at h6 h3
        rw [h6, h3]
      · rw [hl7 _ (by decide), hl5 _ (by decide) (by decide), hl3 _ (by decide) (by decide)]
        exact np1.space.trampoline
      · rw [hl7 _ (by decide), hl5 _ (by decide) (by decide), hl3 _ (by decide) (by decide)]
        exact np1.space.trapframe
      · rw [hl7 _ (by decide), hl5 _ (by decide) (by decide)]
        exact mp3.leaf.here
      · rw [hl7 _ (by decide)]
        exact mp6.leaf.here
      · have hmax : va < VA_MAX := by simp only [TRAPFRAME, TRAMPOLINE, VA_MAX, PGSIZE] at *; omega
        rw [hl7 _ hmax, hl5 _ hmax h1, hl3 _ hmax h2]
        exact np1.space.low va hva
      · have h6 := congrArg Rest.globalPid mp6.rest
        have h3 := congrArg Rest.globalPid mp3.rest
        have h1 := congrArg Rest.globalPid np1.rest
        simp only [Machine.rest, taken_user] at h6 h3 h1
        rw [h6, h3, h1]
      · have h6 := congrArg Rest.nodes mp6.rest
        have h3 := congrArg Rest.nodes mp3.rest
        have h1 := congrArg Rest.nodes np1.rest
        simp only [Machine.rest, taken_user] at h6 h3 h1
        rw [h6, h3, h1]
      · omega
    · rintro _ _ ⟨h, -⟩
      exact .inl (by omega)
  · rintro _ _ ⟨h, -⟩
    rw [missing_update_frame (np1.owned.free k (by simp)), hmiss] at h
    omega

/-- The nodes `free` are in the pool, in this order. -/
structure Pool (nodes : NodeId → MmapNode) (free : List NodeId) : Prop where
  links : Linked (fun i => (nodes i).poolNext) (nodes listHead).poolNext free none
  nodup : (listHead :: free).Nodup

theorem Pool.push {nodes : NodeId → MmapNode} {free : List NodeId} {i : NodeId}
    (h : Pool nodes free) (hi : i ∉ listHead :: free) :
    Pool (Function.update (Function.update nodes i
        { nodes i with poolNext := (nodes listHead).poolNext }) listHead
      { nodes listHead with poolNext := some i }) (i :: free) := by
  obtain ⟨hhead, hfree⟩ := not_or.mp (mt List.mem_cons.mpr hi)
  obtain ⟨hout, hnd⟩ := List.nodup_cons.mp h.nodup
  refine ⟨⟨by simp, ?_⟩, ?_⟩
  · simp only [Function.update_of_ne hhead, Function.update_self]
    refine h.links.congr fun j hj => ?_
    have hjh : j ≠ listHead := ne_of_mem_of_not_mem hj hout
    have hji : j ≠ i := ne_of_mem_of_not_mem hj hfree
    rw [Function.update_of_ne hjh, Function.update_of_ne hji]
  · refine List.nodup_cons.mpr ⟨?_, List.nodup_cons.mpr ⟨hfree, hnd⟩⟩
    rw [List.mem_cons]
    rintro (he | hm)
    · exact hhead he.symm
    · exact hout hm

theorem wp_mmapInit {E : Stop → Machine → Prop} :
    wp mmapInit
      (fun _ s' => s' = { s with nodes := s'.nodes } ∧
        ∃ free, Pool s'.nodes free ∧ free.length = N_MMAP - 1) E s := by
  unfold mmapInit
  generalize hk : N_MMAP - 1 = k
  have hk' : k = 255 := hk.symm
  simp only [wp_bind, wp_setNode]
  -- before the pass `j` the nodes below `j` are in the pool
  refine wp_conseq (wp_forFrom (I := fun j (s' : Machine) =>
    s' = { s with nodes := s'.nodes } ∧
      ∃ free, Pool s'.nodes free ∧ free.length + 1 = j ∧ ∀ i ∈ free, i.val < j) k 1
    (fun j s1 hj1 hjk h => ?_) ⟨rfl, [], ⟨by simp [Linked], by simp⟩, rfl, by simp⟩)
    ?_ (fun _ _ h => h)
  · obtain ⟨hsame, free, hpool, hlen, hlt⟩ := h
    have hval : (Fin.ofNat N_MMAP j).val = j := Nat.mod_eq_of_lt (by simp only [N_MMAP]; omega)
    have hhead : Fin.ofNat N_MMAP j ≠ listHead := by
      intro he
      have := congrArg Fin.val he
      rw [hval, show listHead.val = 0 from rfl] at this
      omega
    simp only [wp_bind, wp_getNode, wp_setNode, Function.update_of_ne hhead.symm]
    refine ⟨by rw [hsame], Fin.ofNat N_MMAP j :: free, hpool.push ?_, by simp [hlen], fun i hi => ?_⟩
    · rw [List.mem_cons]
      rintro (he | hm)
      · exact hhead he
      · have := hlt _ hm
        omega
    · rcases List.mem_cons.mp hi with rfl | hi
      · omega
      · have := hlt i hi
        omega
  · rintro - s' ⟨hsame, free, hpool, hlen, -⟩
    exact ⟨hsame, free, hpool, by omega⟩

theorem wp_boot (hartid : Nat) (mem : Bytes) :
    wp (boot L hartid)
      (fun _ s' => (∃ free, Pool s'.nodes free ∧ free.length = N_MMAP - 1) ∧
        ∃ r t own' l', Booted L 0 r t s' own' l' ∧ s'.globalPid = 2 ∧
          userPages L = l'.length + 8)
      (fun _ _ => userPages L < 8 ∨ PGSIZE < L.initcode.length) (reset mem) := by
  simp only [boot, wp_bind]
  have hinit := wp_pmemInit (L := L) (s := reset mem) (E := fun _ _ => False)
  refine wp_conseq hinit ?_ (fun _ _ h => h.elim)
  rintro - s1 ⟨w1, h1⟩
  refine wp_conseq (wp_mmapInit (E := fun _ _ => False)) ?_ (fun _ _ h => h.elim)
  rintro - s2 ⟨h2, hpool⟩
  have hpid : s2.globalPid = 1 := by rw [h2, h1]; rfl
  simp only [procInit, wp_modify]
  refine wp_conseq (wp_procMakeFirst (l := pagesDown (userBegin L) (userPages L))
    (w1.ofRest (by rw [h2]) (by rw [h2])) (fun q => rfl) (fun q => by rw [h2, h1]; rfl)
    (fun q => by rw [h2, h1]; rfl) fun n q h v => ?_) ?_ ?_
  · unfold startOwner; split <;> simp
  · rintro - s' ⟨r, t, own', l', hb, hp, hnodes, hlen⟩
    refine ⟨by rwa [hnodes], r, t, own', l', hb, ?_, by rwa [length_pagesDown] at hlen⟩
    rw [hp, hpid]; simp [incInt]
  · rintro _ _ h
    rw [length_pagesDown] at h
    dsimp only at h
    omega

theorem boot_small : ∃ s r t own l, boot smallLayout 0 (reset fun _ => 0) = .ok () s ∧
    Booted smallLayout 0 r t s own l ∧ s.globalPid = 2 ∧ 31000 ≤ l.length := by
  have hpages : 31008 ≤ userPages smallLayout := by decide
  have hcode : ¬ PGSIZE < smallLayout.initcode.length := by decide
  obtain ⟨⟨⟩, s, hs, -, r, t, own, l, hb, hp, hl⟩ := wp_returns
    (wp_boot (L := smallLayout) 0 (fun _ => 0)) (fun _ _ h => by omega)
  exact ⟨s, r, t, own, l, hs, hb, hp, by omega⟩

end Proc
end WhuOS
