import Mathlib.Logic.Relation
import WhuOS.Mem.PageFree
import WhuOS.Proc.Munmap

/-!
# WhuOS.Proc.Sizes

The sizes of the regions in the mmap list. `npages * PGSIZE` is a product of 32 bits, exact for fewer
than 2^20 pages, and `uvm_munmap` joins regions without a limit.

* `region_sizes_iff`  — the sizes stay exact if and only if no range is joined to 2^20 pages or more.
* `region_size_wraps` — one page after the other, mapped and unmapped again, gets there.
-/

namespace WhuOS
namespace Proc

open Lib Kern Mem Sched

variable {p : Slot} {s s' : Machine} {xs : List Interval} {a n : Nat}

/-! ## What the page code says about the addresses -/

theorem wlp_forFrom_all {f : Nat → MemM Unit} {P : Nat → Prop}
    (h : ∀ j s, wlp (f j) (fun _ _ => P j) s) : ∀ (n i : Nat) (s : Machine),
    wlp (Kern.forFrom f i n) (fun _ _ => ∀ j, i ≤ j → j < i + n → P j) s := by
  intro n
  induction n with
  | zero => intro i s j h1 h2; omega
  | succ n ih =>
    intro i s
    refine wlp_bind (h i s) fun _ s1 hi => wlp_conseq (ih (i + 1) s1) fun _ _ hrest j h1 h2 => ?_
    rcases Nat.eq_or_lt_of_le h1 with rfl | hlt
    · exact hi
    · exact hrest j hlt (by omega)

theorem wlp_vmGetpte_low (pgtbl va : Nat) (alloc : Bool) (s : Machine) :
    wlp (vmGetpte pgtbl va alloc) (fun _ _ => va < VA_MAX) s := by
  rcases Nat.lt_or_ge va VA_MAX with h | h
  · exact wlp_conseq (wlp_true _ s) fun _ _ _ => h
  · rw [wlp, wp, vmGetpte_high alloc s h]
    trivial

theorem wlp_unmapPage_low (pgtbl va : Nat) (freeit : Bool) (s : Machine) :
    wlp (unmapPage pgtbl va freeit) (fun _ _ => va < VA_MAX) s :=
  wlp_bind (wlp_vmGetpte_low pgtbl va false s) fun _ _ h =>
    wlp_conseq (wlp_true _ _) fun _ _ _ => h

theorem wlp_vmUnmappages_low (pgtbl : Nat) (freeit : Bool) (hn : 0 < n) (hn20 : n < 2 ^ 20) (s : Machine) :
    wlp (vmUnmappages pgtbl (PGSIZE * a) (PGSIZE * n) freeit)
      (fun _ _ => PGSIZE * (a + n) ≤ VA_MAX ∨ 2 ^ 52 ≤ a + n) s := by
  have hal : ¬ PGSIZE * a % PGSIZE ≠ 0 := by rw [Nat.mul_mod_right]; exact fun h => h rfl
  have hpages : max (pgRoundUp (PGSIZE * n) / PGSIZE) 1 = n := by
    simp only [pgRoundUp, PGSIZE]; omega
  rw [vmUnmappages, if_neg hal]
  dsimp only
  rw [hpages, forPages]
  refine wlp_conseq (wlp_forFrom_all (fun j => wlp_unmapPage_low pgtbl (PGSIZE * a + PGSIZE * j) freeit)
    _ 0 s) fun _ _ h => ?_
  -- beyond the 64 bit addresses the end of the loop is below its start
  rcases Nat.lt_or_ge (a + n) (2 ^ 52) with hlt | hge
  · refine .inl ?_
    have := h (n - 1) (Nat.zero_le _) (by simp only [PGSIZE]; omega)
    simp only [PGSIZE, VA_MAX] at *; omega
  · exact .inr hge

theorem wlp_mmapPages_low (p : Slot) (perm : Nat) (ha : PGSIZE * a < 2 ^ 64) (hn : 0 < n)
    (hn20 : n < 2 ^ 20) (s : Machine) :
    wlp (Kern.forFrom (fun i => do
      let va := (PGSIZE * a + regionBytes i) % 2 ^ 64
      let pa ← pmemAlloc false
      if pa = 0 then Kern.panic "uvm_mmap: out of memory"
      memset pa 0 PGSIZE
      vmMappages (← getProc p).pgtbl va pa PGSIZE perm) 0 n)
      (fun _ _ => PGSIZE * (a + n) ≤ VA_MAX) s := by
  have hmap : ∀ va pgtbl pa s, wlp (vmMappages pgtbl va pa PGSIZE perm) (fun _ _ => va < VA_MAX) s := by
    intro va pgtbl pa s
    rcases Nat.lt_or_ge va VA_MAX with h | h
    · exact wlp_conseq (wlp_true _ s) fun _ _ _ => h
    · exact wp_vmMappages_high h
  have hany : ∀ {α β : Type} (x : MemM α) (g : α → MemM β) {P : Prop} (s : Machine),
      (∀ b s', wlp (g b) (fun _ _ => P) s') → wlp (x >>= g) (fun _ _ => P) s :=
    fun x g P s h => wlp_bind (wlp_true x s) fun b s' _ => h b s'
  have htail : ∀ va pa s, wlp (do
      memset pa 0 PGSIZE
      vmMappages (← getProc p).pgtbl va pa PGSIZE perm) (fun _ _ => va < VA_MAX) s := fun va pa s =>
    hany _ _ s fun _ s1 => hany _ _ s1 fun q s2 => hmap va q.pgtbl pa s2
  refine wlp_conseq (wlp_forFrom_all (P := fun i => (PGSIZE * a + regionBytes i) % 2 ^ 64 < VA_MAX)
    (fun i s => hany _ _ s fun pa s1 => wlp_ite
      (fun _ => hany _ _ s1 fun _ s2 => htail _ pa s2) fun _ => htail _ pa s1) n 0 s) fun _ _ h => ?_
  have h0 := h 0 (Nat.le_refl _) (by omega)
  have h1 := h (n - 1) (Nat.zero_le _) (by omega)
  rw [regionBytes_of_lt (by decide)] at h0
  rw [regionBytes_of_lt (by omega)] at h1
  simp only [PGSIZE, VA_MAX] at *; omega

/-! ## The list after a call -/

/-- The nodes and the head of the list. -/
def listView (p : Slot) (s : Machine) : (NodeId → MmapNode) × Option NodeId :=
  (s.nodes, (s.procs p).mmap)

instance : PageFree (listView p) :=
  ⟨fun _ _ => rfl, fun _ _ => rfl, fun _ _ => rfl, fun _ _ => rfl, fun _ _ => rfl⟩

/-- The list of `p` holds the intervals `xs`. -/
def Listed (p : Slot) (xs : List Interval) (s : Machine) : Prop :=
  ∃ cells free, Lists s.nodes (s.procs p).mmap cells free ∧ cells.map Prod.snd = xs

theorem Listed.of_view (h : Listed p xs s) (hv : listView p s' = listView p s) : Listed p xs s' := by
  obtain ⟨cells, free, hl, hxs⟩ := h
  have h1 : s'.nodes = s.nodes := congrArg Prod.fst hv
  have h2 : (s'.procs p).mmap = (s.procs p).mmap := congrArg Prod.snd hv
  exact ⟨cells, free, by rwa [h1, h2], hxs⟩

theorem listed_setTop (p : Slot) (top : Nat) :
    Keeps (listView p) (setProc p fun q => { q with heapTop := top }) := fun s => by
  show (s.nodes, (Function.update s.procs p { s.procs p with heapTop := top } p).mmap) = _
  rw [Function.update_self]
  rfl

theorem listed_sysBrk (p : Slot) (newTop : Nat) : Keeps (listView p) (sysBrk p newTop) :=
  .bind (keeps_getProc p) fun _ => .ite (.pure _) (.ite (.pure _) (.ite (.pure _) (.ite
    (.bind (keeps_uvmHeapGrow _ _ _) fun _ => .bind (listed_setTop p _) fun _ =>
      .bind (keeps_getProc p) fun _ => .pure _)
    (.ite
      (.bind (keeps_uvmHeapUngrow _ _ _) fun _ => .bind (listed_setTop p _) fun _ =>
        .bind (keeps_getProc p) fun _ => .pure _)
      (.bind (keeps_getProc p) fun _ => .pure _)))))

theorem wlp_uvmMmap_listed (a perm : Nat) (h : Listed p xs s) (hx : ∀ x ∈ xs, Exact x) (hn : 0 < n)
    (hn20 : n < 2 ^ 20) (ha : PGSIZE * a < 2 ^ 64) :
    wlp (uvmMmap p (PGSIZE * a) n perm)
      (fun _ s' => PGSIZE * (a + n) ≤ VA_MAX ∧ Listed p (remove a n xs) s') s := by
  obtain ⟨cells, free, hl, rfl⟩ := h
  have hal : PGSIZE * a % PGSIZE = 0 := Nat.mul_mod_right _ _
  rw [uvmMmap, if_neg (by omega)]
  rw [wlp, wp_bind, wp_assert, if_pos (decide_eq_true hal), wp_bind, wp_getProc]
  -- only a range of addresses below `VA_MAX` gets through the loop
  by_cases hmax : PGSIZE * (a + n) ≤ VA_MAX
  · have htake := wlp_takeRegion (p := p) hn hn20 hmax N_MMAP (show Lists _ _ ([] ++ cells) _ from hl)
      fun c hc => hx c.2 (List.mem_map_of_mem hc)
    rw [← hl.list.head_eq] at htake
    refine wlp_bind htake fun _ s1 h1 => ?_
    obtain ⟨-, cells1, free1, hl1, hcells, -⟩ := h1
    exact wlp_conseq (keeps_mmapPages (f := listView p) p (PGSIZE * a) n _ s1) fun _ s2 hv =>
      ⟨hmax, Listed.of_view ⟨cells1, free1, hl1, hcells⟩ hv⟩
  · exact wlp_bind (wlp_true _ s) fun _ s1 _ =>
      wlp_conseq (wlp_mmapPages_low p _ ha hn hn20 s1) fun _ _ h => absurd h hmax

theorem wlp_uvmMunmap_listed (h : Listed p xs s) (hx : ∀ x ∈ xs, Exact x) (hn : 0 < n)
    (hn20 : n < 2 ^ 20) (ha : a < 2 ^ 52) :
    wlp (uvmMunmap p (PGSIZE * a) n)
      (fun _ s' => Exact ⟨a, n⟩ ∧ Listed p (enter ⟨a, n⟩ xs) s') s := by
  obtain ⟨cells, free, hl, rfl⟩ := h
  have hal : PGSIZE * a % PGSIZE = 0 := Nat.mul_mod_right _ _
  rw [uvmMunmap_eq p _ n (by omega), wlp, wp_bind, wp_assert,
    if_pos (decide_eq_true hal), enter_bind, regionBytes_of_lt hn20]
  by_cases hnew : Exact ⟨a, n⟩
  · refine wlp_bind (wp_conseq (wp_enterRegion hl hnew fun c hc =>
      hx c.2 (List.mem_map_of_mem hc)) (fun _ _ h => h) fun _ _ _ => trivial) fun _ s1 h1 => ?_
    obtain ⟨-, cells1, free1, hl1, hcells, -⟩ := h1
    have hkeep : Keeps (listView p) (do vmUnmappages (← getProc p).pgtbl (PGSIZE * a) (PGSIZE * n) true) :=
      .bind (keeps_getProc p) fun _ => keeps_vmUnmappages _ _ _ _
    exact wlp_conseq (hkeep s1) fun _ s2 hv =>
      ⟨hnew, Listed.of_view ⟨cells1, free1, hl1, hcells⟩ hv⟩
  · refine wlp_bind (wlp_true _ s) fun _ s1 _ => wlp_bind (wlp_true _ s1) fun q s2 _ =>
      wlp_conseq (wlp_vmUnmappages_low q.pgtbl true hn hn20 s2) fun _ _ h => absurd ?_ hnew
    exact ⟨hn20, h.imp id fun h => ⟨ha, h⟩⟩

/-! ## Sizes -/

/-- Every size that is computed of a region of the list is exact. -/
def ExactSizes (p : Slot) (s : Machine) : Prop :=
  ∀ i ∈ mmapIds s p, regionBytes (s.nodes i).npages = PGSIZE * (s.nodes i).npages ∧
    regionEnd (s.nodes i) = ((s.nodes i).beginAddr + PGSIZE * (s.nodes i).npages) % 2 ^ 64

theorem Listed.exactSizes_iff (h : Listed p xs s) : ExactSizes p s ↔ ∀ x ∈ xs, x.len < 2 ^ 20 := by
  obtain ⟨cells, free, hl, rfl⟩ := h
  have hiff : ∀ k : Nat, regionBytes k = PGSIZE * k ↔ k < 2 ^ 20 := fun k => by
    simp only [regionBytes, PGSIZE]; omega
  rw [ExactSizes, hl.mmapIds_eq]
  simp only [List.forall_mem_map]
  refine forall₂_congr fun c hc => ?_
  rw [(hl.holds c hc).2, regionEnd, (hl.holds c hc).2, hiff]
  refine ⟨fun h => h.1, fun h => ⟨h, by rw [(hiff _).mpr h]⟩⟩

theorem exact_remove (hx : ∀ x ∈ xs, Exact x) (hmax : PGSIZE * (a + n) ≤ VA_MAX) :
    ∀ x ∈ remove a n xs, Exact x := by
  intro y hy
  rcases mem_remove_cases hy with h | ⟨x, hm, hc, hcut⟩
  · exact hx y h
  · obtain ⟨h1, h2, h3⟩ := inside_of_mem_cut hc hcut
    have := hx x hm
    simp only [Exact, Interval.Contains, Interval.stop, PGSIZE, VA_MAX] at *
    omega

theorem exact_enter {x : Interval} (hxs : ∀ y ∈ xs, Exact y) (hx : Exact x) :
    ((∀ y ∈ enter x xs, y.len < 2 ^ 20) ↔ mergedLen x xs < 2 ^ 20) ∧
      (mergedLen x xs < 2 ^ 20 → ∀ y ∈ enter x xs, Exact y) := by
  obtain ⟨z, hz, hlen, hstart, hstop, hall⟩ := enter_cases x xs
  have hexact : mergedLen x xs < 2 ^ 20 → ∀ y ∈ enter x xs, Exact y := by
    intro hlt y hy
    rcases hall y hy with rfl | hy
    · have h1 : y.start < 2 ^ 52 := by
        rcases hstart with h | ⟨w, hw, -, h⟩
        · simp only [Exact, Interval.stop, PGSIZE, VA_MAX] at *; omega
        · have := hxs w hw
          simp only [Exact, Interval.stop, PGSIZE, VA_MAX] at *; omega
      refine ⟨by omega, ?_⟩
      rcases hstop with h | ⟨w, hw, h2, h⟩
      · rw [h]; exact hx.2.imp id fun h => ⟨h1, h.2⟩
      · have := hxs w hw
        simp only [Exact, Interval.stop, PGSIZE, VA_MAX] at *; omega
    · exact hxs y hy
  exact ⟨⟨fun h => by rw [← hlen]; exact h z hz, fun h y hy => (hexact h y hy).1⟩, hexact⟩

/-- The range of `sys_munmap` is joined to fewer than 2^20 pages. -/
def MergeFits (p : Slot) (s : Machine) : MemCall → Prop
  | .munmap start len =>
    Refused start len ∨ mergedLen ⟨start.toNat / PGSIZE, npages len⟩ (regions s p) < 2 ^ 20
  | _ => True

/-- The list of a process when it starts, such as the empty one: its nodes are in order, and its sizes
are exact. -/
def SizesStart (p : Slot) (s : Machine) : Prop := ∃ xs, Listed p xs s ∧ ∀ x ∈ xs, Exact x

/-- Calls that return, none of which joins too many pages. -/
inductive FitRun (p : Slot) (s0 : Machine) : Machine → Prop where
  | start : FitRun p s0 s0
  | call {s s' : Machine} {c : MemCall} {res : Nat} : FitRun p s0 s → MergeFits p s c →
      c.run p s = .ok res s' → FitRun p s0 s'

theorem exact_start {x : Interval} (h : Exact x) : x.start < 2 ^ 52 := by
  simp only [Exact, Interval.stop, PGSIZE, VA_MAX] at h; omega

theorem sizes_step {c : MemCall} {res : Nat} (h : Listed p xs s) (hx : ∀ x ∈ xs, Exact x)
    (hrun : c.run p s = .ok res s') :
    (ExactSizes p s' ↔ MergeFits p s c) ∧ (MergeFits p s c → SizesStart p s') := by
  -- a list whose sizes are exact
  have hok : ∀ {ys}, Listed p ys s' → (∀ y ∈ ys, Exact y) → MergeFits p s c →
      (ExactSizes p s' ↔ MergeFits p s c) ∧ (MergeFits p s c → SizesStart p s') := fun hl hy hm =>
    ⟨⟨fun _ => hm, fun _ => hl.exactSizes_iff.mpr fun y hm => (hy y hm).1⟩, fun _ => ⟨_, hl, hy⟩⟩
  have h0 := h
  obtain ⟨cells, free, hl, hcells⟩ := h0
  cases c with
  | brk top =>
    exact hok (h.of_view (Keeps.of_ok (listed_sysBrk p top.toNat) hrun)) hx trivial
  | mmap start len =>
    have hlist : ListFrom s.nodes (s.procs p).mmap (mmapIds s p) := by
      rw [hl.mmapIds_eq]; exact listFrom_iff.mpr hl.list
    have hspec : wlp (sysMmap p start.toNat len.toNat)
        (fun _ s' => ∃ ys, Listed p ys s' ∧ ∀ y ∈ ys, Exact y) s := by
      rw [wlp, wp_sysMmap hlist]
      cases hb : mmapStart s p start len with
      | none => exact ⟨xs, h, hx⟩
      | some b =>
        obtain ⟨hal, hb64, hn⟩ := mmapStart_some hl
          (fun d hd => exact_start (hx d.2 (by rw [← hcells]; exact List.mem_map_of_mem hd))) hb
        have hba : PGSIZE * (b / PGSIZE) = b := by simp only [PGSIZE] at *; omega
        have := wlp_uvmMmap_listed (b / PGSIZE) (PTE_R ||| PTE_W) h hx hn (npages_lt len)
          (by rwa [hba])
        rw [hba] at this
        exact wlp_conseq this fun _ s1 h1 => ⟨_, h1.2, exact_remove hx h1.1⟩
    obtain ⟨ys, hys, hy⟩ := wp_ok hspec hrun
    exact hok hys hy trivial
  | munmap start len =>
    by_cases href : Refused start len
    · have hspec : wlp (sysMunmap p start.toNat len.toNat) (fun _ s' => s' = s) s :=
        (wp_sysMunmap.1 href).mpr rfl
      obtain rfl := wp_ok hspec hrun
      exact hok h hx (.inl href)
    obtain ⟨hn, heq⟩ := wp_sysMunmap.2 href
    have hspec : wlp (sysMunmap p start.toNat len.toNat) (fun _ s' =>
        Exact ⟨start.toNat / PGSIZE, npages len⟩ ∧
          Listed p (enter ⟨start.toNat / PGSIZE, npages len⟩ xs) s') s := by
      refine heq.mpr (wlp_uvmMunmap_listed h hx hn (npages_lt len) ?_)
      have := start.toNat_lt
      simp only [PGSIZE]; omega
    obtain ⟨hnew, hs'⟩ := wp_ok hspec hrun
    obtain ⟨hiff, hexact⟩ := exact_enter hx hnew
    have hfits : MergeFits p s (.munmap start len) ↔
        mergedLen ⟨start.toNat / PGSIZE, npages len⟩ xs < 2 ^ 20 := by
      rw [MergeFits, hl.regions_eq, hcells]
      exact ⟨fun h => h.resolve_left href, .inr⟩
    rw [hfits]
    exact ⟨hs'.exactSizes_iff.trans hiff, fun h => ⟨_, hs', hexact h⟩⟩

theorem FitRun.sizes {s0 : Machine} (h : SizesStart p s0) (hrun : FitRun p s0 s) : SizesStart p s := by
  induction hrun with
  | start => exact h
  | call _ hfit hc ih =>
    obtain ⟨xs, hl, hx⟩ := ih
    exact (sizes_step hl hx hc).2 hfit

/-- The sizes are exact in every state of a run, and after the next call if and only if it joins fewer
than 2^20 pages. -/
theorem region_sizes_iff {s0 : Machine} (h : SizesStart p s0) (hrun : FitRun p s0 s) :
    ExactSizes p s ∧ (∀ len : UInt64, regionBytes (npages len) = PGSIZE * npages len) ∧
      ∀ (c : MemCall) (res : Nat) (s' : Machine), c.run p s = .ok res s' →
        (ExactSizes p s' ↔ MergeFits p s c) := by
  obtain ⟨xs, hl, hx⟩ := hrun.sizes h
  exact ⟨hl.exactSizes_iff.mpr fun x hm => (hx x hm).1, fun len => regionBytes_of_lt (npages_lt len),
    fun c res s' hc => (sizes_step hl hx hc).1⟩

/-! ## A region that grows page by page -/

/-- The first page of the region, where nothing is mapped. -/
abbrev GROW_VPN : Nat := 2 ^ 18

def grownRegion (i : Nat) : List Interval := if i = 0 then [] else [⟨GROW_VPN, i⟩]

theorem grownRegion_mem {i : Nat} {x : Interval} (h : x ∈ grownRegion i) :
    x = ⟨GROW_VPN, i⟩ ∧ 0 < i := by
  unfold grownRegion at h
  split at h
  · cases h
  · exact ⟨List.mem_singleton.mp h, by omega⟩

/-- After `i` rounds the list holds one region of `i` pages, and of the `m` free pages only tables have
been taken, one for every 512 pages and one for every 2^18. -/
structure Growing (L : Layout) (p : Slot) (m i : Nat) (s : Machine) (own : Nat → Owner) (l : List Nat)
    (r : Nat) (cells : List Cell) (free : List NodeId) : Prop where
  owned : Owned L s own l
  root : own r = .node p 3 0
  pgtbl : (s.procs p).pgtbl = PGSIZE * r
  lists : Lists s.nodes (s.procs p).mmap cells free
  region : cells.map Prod.snd = grownRegion i
  nodes : 2 ≤ cells.length + free.length
  pages : m ≤ l.length + (i + 511) / 512 + (i + (2 ^ 18 - 1)) / 2 ^ 18
  table : i % 512 ≠ 0 → lacks own p 1 (PGSIZE * (GROW_VPN + i)) = 0
  upper : i % 2 ^ 18 ≠ 0 → lacks own p 2 (PGSIZE * (GROW_VPN + i)) = 0

section Growing

variable {L : Layout} {own : Nat → Owner} {l : List Nat} {m i r : Nat} {cells : List Cell}
  {free : List NodeId}

theorem lacks_le (own : Nat → Owner) (q : Slot) (h va : Nat) : lacks own q h va ≤ 1 := by
  unfold lacks; split <;> omega

namespace Growing

theorem canonical (h : Growing L p m i s own l r cells free) (hi : i < 2 ^ 20) :
    Canonical (cells.map Prod.snd) := by
  rw [h.region]
  refine ⟨⟨?_, fun x hx => ?_⟩, fun x hx => ?_⟩
  · unfold grownRegion; split <;> simp
  · obtain ⟨rfl, hpos⟩ := grownRegion_mem hx
    exact hpos
  · obtain ⟨rfl, -⟩ := grownRegion_mem hx
    refine ⟨hi, ?_⟩
    simp only [Interval.stop, PGSIZE, VA_MAX, GROW_VPN]; omega

theorem need_le (h : Growing L p m i s own l r cells free) (hi : i < 2 ^ 20) (hm : 3000 ≤ m) :
    need own p true (PGSIZE * (GROW_VPN + i)) 1 ≤ l.length ∧
      m + need own p true (PGSIZE * (GROW_VPN + i)) 1 ≤
        l.length + 1 + (i + 1 + 511) / 512 + (i + 1 + (2 ^ 18 - 1)) / 2 ^ 18 := by
  have h1 := lacks_le own p 1 (PGSIZE * (GROW_VPN + i))
  have h2 := lacks_le own p 2 (PGSIZE * (GROW_VPN + i))
  have h3 := h.table
  have h4 := h.upper
  have h5 := h.pages
  have hneed : need own p true (PGSIZE * (GROW_VPN + i)) 1 =
      1 + (lacks own p 2 (PGSIZE * (GROW_VPN + i)) + lacks own p 1 (PGSIZE * (GROW_VPN + i))) := by
    simp [need, newTables]
  rw [hneed]
  omega

theorem round (h : Growing L p m i s own l r cells free) (hi : i < 2 ^ 20) (hm : 3000 ≤ m) :
    ∃ s1 s2 own' l' cells' free',
      uvmMmap p (PGSIZE * (GROW_VPN + i)) 1 (PTE_R ||| PTE_W) s = .ok () s1 ∧
      uvmMunmap p (PGSIZE * (GROW_VPN + i)) 1 s1 = .ok () s2 ∧
      Growing L p m (i + 1) s2 own' l' r cells' free' := by
  have hmax : PGSIZE * (GROW_VPN + i + 1) ≤ VA_MAX := by simp only [PGSIZE, VA_MAX, GROW_VPN]; omega
  have hva : PGSIZE * (GROW_VPN + i) < VA_MAX := by simp only [PGSIZE] at *; omega
  have hperm : PTE_R ||| PTE_W < 1024 := by decide
  obtain ⟨hneed, hleft⟩ := h.need_le hi hm
  -- the page is not in the region
  have hbeside : ∀ x ∈ grownRegion i, x.stop ≤ GROW_VPN + i := by
    intro x hx
    rw [(grownRegion_mem hx).1]
    exact Nat.le_refl _
  obtain ⟨⟨⟩, s1, hrun1, s1', own1, l1, cells1, free1, ⟨nodes, o, rfl⟩, hlen1, fp, hl1, hcells1, hcount1⟩ :=
    wp_returns (wp_uvmMmap_lists (n := 1) h.owned h.root h.pgtbl h.lists (h.canonical hi)
      (by decide) (by decide) hmax hperm) fun _ _ hstop => hstop ⟨hneed, fun ⟨c, hc, _, hlt⟩ => by
        have := hbeside c.2 (by rw [← h.region]; exact List.mem_map_of_mem hc)
        omega⟩
  have hsame : remove (GROW_VPN + i) 1 (grownRegion i) = grownRegion i := by
    unfold grownRegion
    split
    · rfl
    · simp only [remove]
      rw [if_neg (by simp only [Interval.Contains, Interval.stop]; omega)]
  rw [h.region, hsame] at hcells1
  have hprocs : s1.procs = Function.update s.procs p { s.procs p with mmap := o } :=
    congrArg Rest.procs fp.rest
  have hnodes : s1.nodes = nodes := congrArg Rest.nodes fp.rest
  have hpg1 : (s1.procs p).pgtbl = PGSIZE * r := by rw [hprocs]; simpa using h.pgtbl
  have hl1' : Lists s1.nodes (s1.procs p).mmap cells1 free1 := by rwa [hprocs, hnodes]
  have hr1 : own1 r = .node p 3 0 := fp.grows.keeps h.root (by simp)
  have hc1 : Canonical (cells1.map Prod.snd) := by rw [hcells1, ← h.region]; exact h.canonical hi
  have hpool : free1 ≠ [] := by
    rintro rfl
    have h1 : cells1.length = (grownRegion i).length := by rw [← hcells1, List.length_map]
    have h2 : (grownRegion i).length ≤ 1 := by unfold grownRegion; split <;> simp
    have := h.nodes
    simp only [List.length_nil] at hcount1
    omega
  obtain ⟨⟨⟩, s2, hrun2, s2', own2, cells2, free2, ⟨nodes2, o2, rfl⟩, u, hl2, hcells2, hcount2⟩ :=
    wp_returns (wp_uvmMunmap (n := 1) fp.owned hr1 hpg1 hl1' hc1 (by decide) hmax (by decide)
      (fun c hc => .inr (hbeside c.2 (by rw [← hcells1]; exact List.mem_map_of_mem hc)))
      fun j hj => by
        obtain rfl : j = 0 := by omega
        exact unmappable_fresh h.owned hperm fp hva (Nat.le_refl _) (by simp only [PGSIZE]; omega))
      fun _ _ hstop => hpool hstop.1
  have hprocs2 : s2.procs = Function.update s1.procs p { s1.procs p with mmap := o2 } :=
    congrArg Rest.procs u.rest
  have hnodes2 : s2.nodes = nodes2 := congrArg Rest.nodes u.rest
  -- the tables of the page stay
  obtain ⟨k1, hk1⟩ : ∃ k, own1 k = .node p 1 (vpn (PGSIZE * (GROW_VPN + i)) 1) := by
    rcases fp.owned.tree.walk_cases hr1 hva with ⟨k, hk, -⟩ | ⟨-, -, hz⟩
    · exact ⟨k, hk⟩
    · obtain ⟨k, -, hleaf⟩ := fp.inside _ hva (Nat.le_refl _) (by simp only [PGSIZE]; omega)
      have := or_one_odd (PTE_R ||| PTE_W ||| PTE_U)
      omega
  obtain ⟨k2, hk2, -⟩ := fp.owned.tree.up hk1 (by decide) (by decide)
  refine ⟨s1, s2, own2, _, cells2, free2, hrun1, hrun2, u.owned, u.keeps hr1, ?_, ?_, ?_, ?_, ?_,
    fun hmod => lacks_of_node (k := k1) ?_, fun hmod => lacks_of_node (k := k2) ?_⟩
  · rw [hprocs2]; simpa using hpg1
  · rwa [hprocs2, hnodes2]
  · rw [hcells2, hcells1]
    unfold grownRegion
    by_cases h0 : i = 0
    · subst h0; rfl
    · rw [if_neg h0, if_neg (by omega), adjoin, if_neg (by simp), adjoin, push]
      exact if_pos rfl
  · have := h.nodes
    omega
  · simp only [List.length_append, List.length_reverse, frames, List.length_map, List.length_range]
    omega
  · rw [u.keeps hk1]
    congr 1
    simp only [vpn, PGSIZE, GROW_VPN, Nat.reduceMul, Nat.reduceAdd, Nat.reducePow] at *; omega
  · rw [u.keeps hk2]
    congr 1
    simp only [vpn, PGSIZE, GROW_VPN, Nat.reduceMul, Nat.reduceAdd, Nat.reducePow] at *; omega

end Growing

def Returns (p : Slot) (s s' : Machine) : Prop := ∃ (c : MemCall) (res : Nat), c.run p s = .ok res s'

theorem run_mmap {v : Nat} (hpos : 0 < v) (hv : v < 2 ^ 52)
    (h : uvmMmap p (PGSIZE * v) 1 (PTE_R ||| PTE_W) s = .ok () s') :
    MemCall.run p (.mmap (UInt64.ofNat (PGSIZE * v)) 4096) s = .ok (PGSIZE * v) s' := by
  have hstart : (UInt64.ofNat (PGSIZE * v)).toNat = PGSIZE * v := by
    rw [UInt64.toNat_ofNat']; simp only [PGSIZE]; omega
  have h1 : ¬ ((4096 : UInt64).toNat % 2 ^ 32 = 0 ∨ (4096 : UInt64).toNat % 2 ^ 32 % PGSIZE ≠ 0) := by decide
  have h2 : PGSIZE * v ≠ 0 := by simp only [PGSIZE]; omega
  have h3 : ¬ PGSIZE * v % PGSIZE ≠ 0 := by rw [Nat.mul_mod_right]; exact fun h => h rfl
  have h4 : (4096 : UInt64).toNat % 2 ^ 32 / PGSIZE = 1 := by decide
  simp only [MemCall.run, hstart, sysMmap, if_neg h1, if_neg h2, if_neg h3, h4, bind_of_ok h]
  rfl

theorem run_munmap {v : Nat} (hv : v < 2 ^ 52) (h : uvmMunmap p (PGSIZE * v) 1 s = .ok () s') :
    MemCall.run p (.munmap (UInt64.ofNat (PGSIZE * v)) 4096) s = .ok 0 s' := by
  have hstart : (UInt64.ofNat (PGSIZE * v)).toNat = PGSIZE * v := by
    rw [UInt64.toNat_ofNat']; simp only [PGSIZE]; omega
  have h1 : ¬ (PGSIZE * v % PGSIZE ≠ 0 ∨ (4096 : UInt64).toNat % 2 ^ 32 = 0 ∨
      (4096 : UInt64).toNat % 2 ^ 32 % PGSIZE ≠ 0) := by
    rw [Nat.mul_mod_right]; decide
  have h4 : (4096 : UInt64).toNat % 2 ^ 32 / PGSIZE = 1 := by decide
  simp only [MemCall.run, hstart, sysMunmap, if_neg h1, h4, bind_of_ok h]
  rfl

theorem Growing.run (h : Growing L p m 0 s own l r cells free) (hm : 3000 ≤ m) : ∀ i, i ≤ 2 ^ 20 →
    ∃ s' own' l' cells' free', Relation.ReflTransGen (Returns p) s s' ∧
      Growing L p m i s' own' l' r cells' free' := by
  intro i
  induction i with
  | zero => exact fun _ => ⟨s, own, l, cells, free, .refl, h⟩
  | succ i ih =>
    intro hi
    obtain ⟨s', own', l', cells', free', hreach, hg⟩ := ih (by omega)
    obtain ⟨s1, s2, own2, l2, cells2, free2, h1, h2, hg2⟩ := hg.round (by omega) hm
    have hv : GROW_VPN + i < 2 ^ 52 := by simp only [GROW_VPN]; omega
    exact ⟨s2, own2, l2, cells2, free2,
      (hreach.tail ⟨_, _, run_mmap (by simp only [GROW_VPN]; omega) hv h1⟩).tail
        ⟨_, _, run_munmap hv h2⟩, hg2⟩

theorem Growing.exactSizes (h : Growing L p m i s own l r cells free) (hi : i < 2 ^ 20) :
    ExactSizes p s :=
  (Listed.exactSizes_iff ⟨cells, free, h.lists, h.region⟩).mpr fun x hx => by
    rw [(grownRegion_mem hx).1]
    exact hi

/-- A round is two calls of a run that joins few pages. -/
theorem Growing.fitRun {s0 : Machine} (h0 : SizesStart p s0) (h : Growing L p m i s own l r cells free)
    (hfit : FitRun p s0 s) (hi : i + 1 < 2 ^ 20) (hm : 3000 ≤ m) : ∃ s' own' l' cells' free',
      FitRun p s0 s' ∧ Growing L p m (i + 1) s' own' l' r cells' free' := by
  obtain ⟨s1, s2, own2, l2, cells2, free2, h1, h2, hg⟩ := h.round (by omega) hm
  have hv : GROW_VPN + i < 2 ^ 52 := by simp only [GROW_VPN]; omega
  have h1 := run_mmap (by simp only [GROW_VPN]; omega) hv h1
  have hfit1 : FitRun p s0 s1 := .call (c := .mmap _ _) hfit trivial h1
  have h2 := run_munmap hv h2
  obtain ⟨xs, hl, hx⟩ := hfit1.sizes h0
  exact ⟨s2, own2, l2, cells2, free2,
    .call hfit1 ((sizes_step hl hx h2).1.mp (hg.exactSizes hi)) h2, hg⟩

theorem growing_boot : ∃ s0 own l r free, boot smallLayout 0 (reset fun _ => 0) = .ok () s0 ∧
    SizesStart 0 s0 ∧ Growing smallLayout 0 31000 0 s0 own l r [] free := by
  have hpages : 31008 ≤ userPages smallLayout := by decide
  obtain ⟨s0, -, -, -, -, hs, -⟩ := boot_small
  obtain ⟨⟨free, hpool, hfree⟩, r, t, own, l, hb, -, hl⟩ := wp_ok (wp_boot 0 fun _ => 0) hs
  have hlists : Lists s0.nodes (s0.procs 0).mmap [] free := by
    rw [hb.proc]
    exact ⟨rfl, hpool.links, hpool.nodup, by simp⟩
  exact ⟨s0, own, l, r, free, hs, ⟨[], ⟨[], free, hlists, rfl⟩, by simp⟩, hb.inv.owned, hb.root,
    by rw [hb.proc], hlists, rfl, by rw [hfree]; decide, by omega, fun h => absurd rfl h,
    fun h => absurd rfl h⟩

end Growing

/-- 2^20 pages, one after the other mapped and unmapped by the first process, end up in one region, and
its size is computed as 0. -/
theorem region_size_wraps : ∃ s0 s, boot smallLayout 0 (reset fun _ => 0) = .ok () s0 ∧
    SizesStart 0 s0 ∧ Relation.ReflTransGen (Returns 0) s0 s ∧ regions s 0 = [⟨GROW_VPN, 2 ^ 20⟩] ∧
    ¬ ExactSizes 0 s := by
  obtain ⟨s0, own, l, r, free, hs, h0, hstart⟩ := growing_boot
  obtain ⟨s, own', l', cells, free', hreach, hg⟩ := hstart.run (by decide) (2 ^ 20) (Nat.le_refl _)
  have hreg : cells.map Prod.snd = [⟨GROW_VPN, 2 ^ 20⟩] := hg.region
  refine ⟨s0, s, hs, h0, hreach, by rw [hg.lists.regions_eq, hreg], fun he => ?_⟩
  have := (Listed.exactSizes_iff ⟨cells, free', hg.lists, hreg⟩).mp he ⟨GROW_VPN, 2 ^ 20⟩ (by simp)
  exact absurd this (by decide)

/-- After two pages were mapped and unmapped, one after the other. -/
theorem region_sizes_iff_grown : ∃ s0 s, boot smallLayout 0 (reset fun _ => 0) = .ok () s0 ∧
    FitRun 0 s0 s ∧ regions s 0 = [⟨GROW_VPN, 2⟩] ∧ ExactSizes 0 s ∧
    ∀ start len res s', MemCall.run 0 (.mmap start len) s = .ok res s' → ExactSizes 0 s' := by
  obtain ⟨s0, own, l, r, free, hs, h0, hg⟩ := growing_boot
  obtain ⟨s1, own1, l1, cells1, free1, hfit1, hg1⟩ := hg.fitRun h0 .start (by decide) (by decide)
  obtain ⟨s2, own2, l2, cells2, free2, hfit2, hg2⟩ := hg1.fitRun h0 hfit1 (by decide) (by decide)
  obtain ⟨hexact, -, hnext⟩ := region_sizes_iff h0 hfit2
  exact ⟨s0, s2, hs, hfit2, by rw [hg2.lists.regions_eq, hg2.region]; rfl, hexact,
    fun start len res s' hrun => (hnext _ _ _ hrun).mpr trivial⟩

end Proc
end WhuOS
