import Mathlib.Data.Fintype.Card
import WhuOS.Lib.Linked
import WhuOS.Proc.Boot

/-!
# WhuOS.Proc.Mmap

`sys_mmap` against what it is for: to hand out address space from the process's free list.

`FreeSpaceOnly` is that contract for one call. The code asks nothing of a `start` given by the user
but its alignment, so the contract holds exactly if the range is fine by itself (`RangeFree`):
`mmap_free_space_iff`. The pages that the call needs are counted beforehand (`pagesNeeded`).
-/

namespace WhuOS
namespace Proc

open Lib Kern Mem Sched

variable {L : Layout} {p : Slot} {s : Machine} {own : Nat → Owner} {l : List Nat}

/-! ## The list -/

/-- The mmap list from `o` on consists of the nodes `ids`. -/
def ListFrom (nodes : NodeId → MmapNode) : Option NodeId → List NodeId → Prop
  | o, [] => o = none
  | o, i :: ids => o = some i ∧ ListFrom nodes (nodes i).next ids

variable {nodes : NodeId → MmapNode} {ids : List NodeId} {o : Option NodeId} {npages a r n : Nat}

theorem listFrom_iff : ∀ {ids : List NodeId} {o : Option NodeId},
    ListFrom nodes o ids ↔ Linked (fun i => (nodes i).next) o ids none := by
  intro ids
  induction ids with
  | nil => intro o; exact Iff.rfl
  | cons i ids ih => intro o; exact and_congr Iff.rfl ih

theorem ListFrom.nodup
    (h : ListFrom nodes o ids) : ids.Nodup :=
  (listFrom_iff.mp h).nodup

theorem ListFrom.length_le
    (h : ListFrom nodes o ids) : ids.length ≤ N_MMAP := by
  have := h.nodup.length_le_card
  simpa using this

/-- The start of the first region with room for `npages`, 0 if there is none. -/
def fitStart (nodes : NodeId → MmapNode) (npages : Nat) (ids : List NodeId) : Nat :=
  match ids.find? fun i => npages ≤ (nodes i).npages with
  | none => 0
  | some i => (nodes i).beginAddr

theorem firstFit_run : ∀ {ids : List NodeId} {fuel : Nat} {o : Option NodeId},
    ListFrom s.nodes o ids → ids.length ≤ fuel →
    firstFit npages fuel o s = .ok (fitStart s.nodes npages ids) s := by
  intro ids
  induction ids with
  | nil =>
    intro fuel o h _
    rw [show o = none from h]
    cases fuel <;> rfl
  | cons i ids ih =>
    intro fuel o h hlen
    obtain ⟨fuel, rfl⟩ : ∃ f, fuel = f + 1 := ⟨fuel - 1, by simp only [List.length_cons] at hlen; omega⟩
    rw [h.1]
    simp only [firstFit]
    rw [bind_of_ok (show getNode i s = .ok (s.nodes i) s from rfl)]
    by_cases hfit : npages ≤ (s.nodes i).npages
    · simp [fitStart, hfit]
    · have := @ih fuel _ h.2 (by simp only [List.length_cons] at hlen; omega)
      simp only [ge_iff_le, hfit, if_false, this, fitStart, List.find?_cons, decide_false]

theorem wp_firstFit
    {Q : Nat → Machine → Prop} {E : Stop → Machine → Prop} (h : ListFrom s.nodes o ids) :
    wp (firstFit npages N_MMAP o) Q E s ↔ Q (fitStart s.nodes npages ids) s := by
  unfold wp
  rw [firstFit_run h h.length_le]

/-- Does `uvm_mmap` take the range from this region? The sums are those of the code. -/
def covers (n : MmapNode) (a npages : Nat) : Bool :=
  n.beginAddr ≤ a && (a + regionBytes npages) % 2 ^ 64 ≤ regionEnd n

/-- Does the range leave a part of the region on both sides, so that it needs another node? -/
def splits (nodes : NodeId → MmapNode) (ids : List NodeId) (a npages : Nat) : Bool :=
  match ids.find? fun i => covers (nodes i) a npages with
  | none => false
  | some i => a ≠ (nodes i).beginAddr ∧ (a + regionBytes npages) % 2 ^ 64 ≠ regionEnd (nodes i)

/-- The list operations leave memory and the page tables alone. -/
def ListsOnly (s s' : Machine) : Prop :=
  s'.mem = s.mem ∧ s'.user = s.user ∧ ∀ q, (s'.procs q).pgtbl = (s.procs q).pgtbl

theorem update_mmap_pgtbl (procs : Slot → Mem.Proc) (p q : Slot) (o : Option NodeId) :
    (Function.update procs p { procs p with mmap := o } q).pgtbl = (procs q).pgtbl := by
  by_cases h : q = p
  · subst h; simp
  · simp [h]

/-- A split in the middle takes a node from the pool, and panics only if there is none. -/
theorem wp_splitRegion {prev : Option NodeId} {i : NodeId} :
    wp (splitRegion p prev i a npages)
      (fun _ s' => ListsOnly s s' ∧ ¬ ((a ≠ (s.nodes i).beginAddr ∧
        (a + regionBytes npages) % 2 ^ 64 ≠ regionEnd (s.nodes i)) ∧
        (s.nodes listHead).poolNext = none))
      (fun _ _ => (a ≠ (s.nodes i).beginAddr ∧
        (a + regionBytes npages) % 2 ^ 64 ≠ regionEnd (s.nodes i)) ∧
        (s.nodes listHead).poolNext = none) s := by
  simp only [splitRegion, wp_bind, wp_getNode]
  split
  · rename_i h
    cases prev with
    | none =>
      simp only [wp_bind, wp_setProc, mmapRegionFree, wp_getNode, wp_setNode]
      exact ⟨⟨rfl, rfl, fun q => update_mmap_pgtbl ..⟩, fun hc => hc.1.1 h.1⟩
    | some j =>
      simp only [wp_bind, mmapRegionFree, wp_getNode, wp_setNode]
      exact ⟨⟨rfl, rfl, fun q => rfl⟩, fun hc => hc.1.1 h.1⟩
  split
  · rename_i h
    exact ⟨⟨rfl, rfl, fun q => rfl⟩, fun hc => hc.1.1 h⟩
  split
  · rename_i h
    exact ⟨⟨rfl, rfl, fun q => rfl⟩, fun hc => hc.1.2 h⟩
  rename_i ha he
  simp only [mmapRegionAlloc, wp_bind, wp_getNode]
  cases hp : (s.nodes listHead).poolNext with
  | none => exact ⟨⟨ha, he⟩, rfl⟩
  | some j =>
    simp only [wp_bind, wp_getNode, wp_setNode, wp_pure]
    exact ⟨⟨rfl, rfl, fun q => rfl⟩, fun hc => by simp at hc⟩

theorem wp_takeRegion : ∀ {ids : List NodeId} {fuel : Nat}
    {prev o : Option NodeId}, ListFrom s.nodes o ids → ids.length ≤ fuel →
    wp (takeRegion p a npages fuel prev o)
      (fun _ s' => ListsOnly s s' ∧
        ¬ (splits s.nodes ids a npages = true ∧ (s.nodes listHead).poolNext = none))
      (fun _ _ => splits s.nodes ids a npages = true ∧ (s.nodes listHead).poolNext = none) s := by
  intro ids
  induction ids with
  | nil =>
    intro fuel prev o h _
    rw [show o = none from h]
    cases fuel <;> exact ⟨⟨rfl, rfl, fun _ => rfl⟩, by simp [splits]⟩
  | cons i ids ih =>
    intro fuel prev o h hlen
    obtain ⟨fuel, rfl⟩ : ∃ f, fuel = f + 1 :=
      ⟨fuel - 1, by simp only [List.length_cons] at hlen; omega⟩
    rw [h.1]
    simp only [takeRegion, wp_bind, wp_getNode]
    by_cases hc : covers (s.nodes i) a npages = true
    · have hcov : a ≥ (s.nodes i).beginAddr ∧
          (a + regionBytes npages) % 2 ^ 64 ≤ regionEnd (s.nodes i) := by simpa [covers] using hc
      have hsp : splits s.nodes (i :: ids) a npages = true ↔ a ≠ (s.nodes i).beginAddr ∧
          (a + regionBytes npages) % 2 ^ 64 ≠ regionEnd (s.nodes i) := by
        simp [splits, hc]
      rw [if_pos hcov, hsp]
      exact wp_splitRegion
    · have hcov : ¬ (a ≥ (s.nodes i).beginAddr ∧
          (a + regionBytes npages) % 2 ^ 64 ≤ regionEnd (s.nodes i)) := by simpa [covers] using hc
      have hsp : splits s.nodes (i :: ids) a npages = splits s.nodes ids a npages := by
        simp [splits, hc]
      rw [if_neg hcov, hsp]
      exact ih h.2 (by simp only [List.length_cons] at hlen; omega)

/-! ## The pages needed -/

/-- The tables that the page `va` needs, given that it is the first of the range or that the page
below it is mapped. -/
def tablesNeeded (m : Bytes) (pgtbl : Nat) (first : Bool) (va : Nat) : Nat :=
  (if (first = true ∨ va % 2 ^ 30 = 0) ∧ nextTable m (pgtbl + 8 * vaToVpn va 2) = none then 1
    else 0) +
  (if (first = true ∨ va % 2 ^ 21 = 0) ∧ walk m pgtbl va = none then 1 else 0)

/-- The free pages that it takes to map `n` pages from `va` on. -/
def pagesNeeded (m : Bytes) (pgtbl : Nat) : Bool → Nat → Nat → Nat
  | _, _, 0 => 0
  | first, va, n + 1 =>
    1 + tablesNeeded m pgtbl first va + pagesNeeded m pgtbl false (va + PGSIZE) n

theorem newTables_eq {va : Nat} (w : Owned L s own l) (hr : own r = .node p 3 0)
    (hva : va < VA_MAX) (first : Bool) :
    newTables own p first va = tablesNeeded s.mem (PGSIZE * r) first va := by
  have h1 : lacks own p 1 va = if walk s.mem (PGSIZE * r) va = none then 1 else 0 := by
    rcases w.tree.walk_cases hr hva with ⟨k, hk, hw, -⟩ | ⟨hno, hw, -⟩
    · rw [lacks_of_node hk, hw]; rfl
    · rw [lacks_of_none hno, hw]; rfl
  have h2 : lacks own p 2 va =
      if nextTable s.mem (PGSIZE * r + 8 * vaToVpn va 2) = none then 1 else 0 := by
    rw [← vpn_three hva] at hr
    rcases w.tree.next hr (by omega) with ⟨k, hk, -, hw⟩ | ⟨hno, -, hw⟩
    · rw [lacks_of_node hk, hw]; rfl
    · rw [lacks_of_none hno, hw]; rfl
  simp only [newTables, tablesNeeded, h1, h2, ite_and]

theorem need_eq (w : Owned L s own l) (hr : own r = .node p 3 0) :
    ∀ (n va : Nat) (first : Bool), va + PGSIZE * n ≤ VA_MAX →
      need own p first va n = pagesNeeded s.mem (PGSIZE * r) first va n := by
  intro n
  induction n with
  | zero => intro va first _; rfl
  | succ n ih =>
    intro va first hle
    simp only [PGSIZE] at hle
    simp only [need, pagesNeeded]
    rw [newTables_eq w hr (by omega), ih (va + PGSIZE) false (by simp only [PGSIZE]; omega)]

/-! ## `uvm_mmap` -/

theorem regionBytes_of_lt (h : n < 2 ^ 20) : regionBytes n = PGSIZE * n := by
  simp only [regionBytes, PGSIZE]; omega

/-- `uvm_mmap` maps the range to fresh frames, whatever the list says about it; `R` is what is known
of the state once the list has been searched. -/
theorem wp_uvmMmap (a n perm : Nat) {R : Machine → Prop}
    (hR : wlp (takeRegion p a n N_MMAP none (s.procs p).mmap) (fun _ s1 => R s1) s)
    (w : Owned L s own l)
    (hr : own r = .node p 3 0) (hpg : (s.procs p).pgtbl = PGSIZE * r)
    (hl : ListFrom s.nodes (s.procs p).mmap ids) (ha : a < 2 ^ 64) (hn : 0 < n) (hn' : n < 2 ^ 20)
    (hperm : perm ||| PTE_U < 1024) :
    wp (uvmMmap p a n perm)
      (fun _ s' => (a % PGSIZE = 0 ∧ a + PGSIZE * n ≤ VA_MAX ∧ need own p true a n ≤ l.length ∧
          ¬ (splits s.nodes ids a n = true ∧ (s.nodes listHead).poolNext = none)) ∧
        ∃ s1 own' l', ListsOnly s s1 ∧ R s1 ∧ l.length = l'.length + need own p true a n ∧
          FreshPages L p s1 own r a n (perm ||| PTE_U) s' own' l')
      (fun _ _ => ¬ (a % PGSIZE = 0 ∧ a + PGSIZE * n ≤ VA_MAX ∧ need own p true a n ≤ l.length ∧
          ¬ (splits s.nodes ids a n = true ∧ (s.nodes listHead).poolNext = none))) s := by
  simp only [uvmMmap, Nat.pos_iff_ne_zero.mp hn, if_false, wp_bind, wp_assert,
    decide_eq_true_eq, wp_getProc]
  split
  case isFalse => rename_i h; exact fun hc => h hc.1
  rename_i hal
  refine wp_conseq (wp_and (wp_takeRegion hl hl.length_le) hR) ?_
    (fun _ _ h hc => hc.2.2.2 h.1)
  rintro - s1 ⟨⟨hlists, hpool⟩, hR1⟩
  obtain ⟨hmem, huser, hpgs⟩ := hlists
  have w1 := w.ofRest hmem huser
  -- one pass, at any address
  have hpass : ∀ i s2 own2 l2, Owned L s2 own2 l2 → s2.rest = s1.rest → own2 r = .node p 3 0 →
      (a + regionBytes i) % 2 ^ 64 % PGSIZE = 0 →
      wp (do
          let pa ← pmemAlloc false
          if pa = 0 then Kern.panic "uvm_mmap: out of memory"
          memset pa 0 PGSIZE
          vmMappages (← getProc p).pgtbl ((a + regionBytes i) % 2 ^ 64) pa PGSIZE (perm ||| PTE_U))
        (fun _ s' => ∃ own' l', FreshPage L p s2 own2 l2 r ((a + regionBytes i) % 2 ^ 64)
          (perm ||| PTE_U) s' own' l')
        (fun _ _ => VA_MAX ≤ (a + regionBytes i) % 2 ^ 64 ∨
          l2.length < 1 + missing own2 p ((a + regionBytes i) % 2 ^ 64)) s2 := by
    intro i s2 own2 l2 w2 hrest hr2 hal2
    have hpg2 : (s2.procs p).pgtbl = PGSIZE * r := by
      rw [show s2.procs = s1.procs from congrArg Rest.procs hrest, hpgs, hpg]
    exact wp_freshPage_proc w2 hr2 hpg2 hal2 hperm
  rcases Nat.lt_or_ge a VA_MAX with hmax | hmax
  · have hva : ∀ j, j < n → (a + regionBytes j) % 2 ^ 64 = a + PGSIZE * j := by
      intro j hj
      rw [regionBytes_of_lt (by omega)]
      simp only [VA_MAX, PGSIZE] at *; omega
    refine wp_conseq (wp_freshPages (perm ||| PTE_U) n 0 a true w1 rfl hr hal
      (.inl rfl) fun j s2 own2 l2 hj w2 hrest hr2 => ?_) ?_ ?_
    · have := hpass j s2 own2 l2 w2 hrest hr2 (by rw [hva j hj]; simp only [PGSIZE] at *; omega)
      rw [hva j hj] at this
      rw [Nat.zero_add, hva j hj]
      exact this
    · rintro - s' ⟨h1, h2, own', l', hlen, fp⟩
      exact ⟨⟨hal, h1 hn, h2, hpool⟩, s1, own', l', ⟨hmem, huser, hpgs⟩, hR1, hlen, fp⟩
    · exact fun _ _ h hc => h ⟨hc.2.1, hc.2.2.1⟩
  · -- the first pass panics
    obtain ⟨n, rfl⟩ : ∃ j, n = j + 1 := ⟨n - 1, by omega⟩
    have h0 : (a + regionBytes 0) % 2 ^ 64 = a := by
      rw [regionBytes_of_lt (by decide)]; simp only [PGSIZE]; omega
    rw [Kern.forFrom, wp_bind]
    refine wp_conseq (hpass 0 s1 own l w1 rfl hr (by rw [h0]; exact hal)) ?_ ?_
    · rintro - s' ⟨own', l', fp⟩
      have := fp.low; omega
    · exact fun _ _ _ hc => by have := hc.2.1; simp only [PGSIZE] at this; omega

/-! ## `sys_mmap` -/

/-- The call returned `a`: it is -1 and nothing happened, or the range from `a` on lay in one region
of the list, and no page that was mapped is now mapped elsewhere. -/
def Granted (p : Slot) (ids : List NodeId) (len : Nat) (s : Machine) (a : Nat) (s' : Machine) :
    Prop :=
  (a = MINUS_ONE ∧ s'.nodes = s.nodes ∧ (s'.procs p).mmap = (s.procs p).mmap ∧
    ∀ va, va < VA_MAX →
      leafPte s'.mem (s.procs p).pgtbl va = leafPte s.mem (s.procs p).pgtbl va) ∨
  (a % PGSIZE = 0 ∧
    (∃ i ∈ ids, (s.nodes i).beginAddr ≤ a ∧
      a + len ≤ (s.nodes i).beginAddr + PGSIZE * (s.nodes i).npages) ∧
    ∀ va, va < VA_MAX → pteHas (leafPte s.mem (s.procs p).pgtbl va) PTE_V →
      leafPte s'.mem (s.procs p).pgtbl va = leafPte s.mem (s.procs p).pgtbl va)

/-- The contract of `sys_mmap`: it returns, and hands out free address space only. -/
def FreeSpaceOnly (p : Slot) (ids : List NodeId) (start a1 : Nat) (s : Machine) : Prop :=
  wp (sysMmap p start a1) (Granted p ids (a1 % 2 ^ 32) s) (fun _ _ => False) s

/-- The `n` pages from `a` on are free to be mapped, and there is the memory to do it. -/
structure RangeFree (p : Slot) (ids : List NodeId) (a n : Nat) (s : Machine) : Prop where
  aligned : a % PGSIZE = 0
  below : a + PGSIZE * n ≤ VA_MAX
  region : ∃ i ∈ ids, (s.nodes i).beginAddr ≤ a ∧
    a + PGSIZE * n ≤ (s.nodes i).beginAddr + PGSIZE * (s.nodes i).npages
  unmapped : ∀ va, a ≤ va → va < a + PGSIZE * n →
    pteHas (leafPte s.mem (s.procs p).pgtbl va) PTE_V = false
  pages : pagesNeeded s.mem (s.procs p).pgtbl true a n ≤ s.user.allocable
  node : splits s.nodes ids a n = true → (s.nodes listHead).poolNext ≠ none

/-- The arguments are refused, nothing fits, or the range that is tried is free. -/
def Grantable (p : Slot) (ids : List NodeId) (start a1 : Nat) (s : Machine) : Prop :=
  a1 % 2 ^ 32 = 0 ∨ a1 % 2 ^ 32 % PGSIZE ≠ 0 ∨
  if start = 0 then
    fitStart s.nodes (a1 % 2 ^ 32 / PGSIZE) ids = 0 ∨
      RangeFree p ids (fitStart s.nodes (a1 % 2 ^ 32 / PGSIZE) ids) (a1 % 2 ^ 32 / PGSIZE) s
  else start % PGSIZE ≠ 0 ∨ RangeFree p ids start (a1 % 2 ^ 32 / PGSIZE) s

/-- A process with a well-formed page table and an mmap list that ends. -/
structure AddressSpace (L : Layout) (p : Slot) (ids : List NodeId) (s : Machine) : Prop where
  table : ∃ own l r, Owned L s own l ∧ own r = .node p 3 0 ∧ (s.procs p).pgtbl = PGSIZE * r
  list : ListFrom s.nodes (s.procs p).mmap ids
  begins : ∀ i ∈ ids, (s.nodes i).beginAddr < 2 ^ 64

theorem fresh_ne_leaf {k f va : Nat} (w : Owned L s own l) (hr : own r = .node p 3 0)
    (hva : va < VA_MAX) (hk : own k = .free) (hf : f < 1024)
    (hv : leafPte s.mem (PGSIZE * r) va % 2 = 1) :
    leafPte s.mem (PGSIZE * r) va ≠ 1024 * k + f := by
  intro he
  have hpa : pteToPa (leafPte s.mem (PGSIZE * r) va) = PGSIZE * k := by
    rw [he]; exact pteToPa_page hf (by have := w.page_lt (n := k) (by simp [hk]); omega)
  rcases w.tree.leaf_target hr hva hv with ⟨c, hc, hown⟩ | ⟨-, hc⟩
  · have : c = k := by rw [hpa] at hc; simp only [PGSIZE] at hc; omega
    rw [this, hk] at hown; cases hown
  · have h1 := w.region k (by simp [hk])
    have h2 := w.etext_le
    have h3 := L.trampoline_lt
    rw [hpa] at hc; omega

theorem uvmMmap_iff {len : Nat} (h : AddressSpace L p ids s)
    (hn : 0 < n) (hn20 : n < 2 ^ 20) (hlen : len = PGSIZE * n) (ha : a < 2 ^ 64) :
    wp (uvmMmap p a n (PTE_R ||| PTE_W)) (fun _ => Granted p ids len s a) (fun _ _ => False) s ↔
      RangeFree p ids a n s := by
  obtain ⟨own, l, r, w, hr, hpg⟩ := h.table
  have hspec := wp_uvmMmap a n (PTE_R ||| PTE_W) (wlp_true _ s) w hr hpg h.list ha hn hn20
    (by decide)
  subst hlen
  constructor
  · intro hwp
    obtain ⟨-, s', -, hg, ⟨hal, hmax, hneed, hpool⟩, s1, own', l', -, -, -, fp⟩ :=
      wp_returns (wp_and hwp hspec) (fun _ _ h => h.1)
    rcases hg with ⟨ha1, -⟩ | ⟨-, hreg, hkeep⟩
    · rw [ha1] at hal; exact absurd hal (by decide)
    refine ⟨hal, hmax, hreg, fun va h1 h2 => ?_, ?_, fun hs hp => hpool ⟨hs, hp⟩⟩
    · rw [Bool.eq_false_iff]
      intro hv
      have hva : va < VA_MAX := by omega
      obtain ⟨k, hk, hleaf⟩ := fp.inside va hva h1 h2
      have hsame := hkeep va hva hv
      rw [hpg] at hv hsame
      exact fresh_ne_leaf w hr hva hk (by decide) ((pteHas_V _).mp hv) (hsame.symm.trans hleaf)
    · rwa [hpg, ← need_eq w hr n a true hmax, w.count]
  · rintro ⟨hal, hmax, hreg, hun, hpages, hnode⟩
    refine wp_conseq hspec ?_ ?_
    · rintro - s' ⟨-, s1, own', l', hlists, -, -, fp⟩
      refine .inr ⟨hal, hreg, fun va hva hv => ?_⟩
      rw [hpg] at hv hun ⊢
      rw [← hlists.1]
      refine fp.outside va hva ?_
      rcases Nat.lt_or_ge va a with h1 | h1
      · exact .inl h1
      rcases Nat.lt_or_ge va (a + PGSIZE * n) with h2 | h2
      · rw [hun va h1 h2] at hv; cases hv
      · exact .inr h2
    · rintro _ _ hstop
      refine hstop ⟨hal, hmax, ?_, fun hc => hnode hc.1 hc.2⟩
      rwa [need_eq w hr n a true hmax, ← w.count, ← hpg]

theorem fitStart_lt (h : ∀ i ∈ ids, (s.nodes i).beginAddr < 2 ^ 64) :
    fitStart s.nodes n ids < 2 ^ 64 := by
  unfold fitStart
  split
  · decide
  · rename_i i hi
    exact h i (List.mem_of_find?_eq_some hi)

theorem granted_refused {len : Nat} : Granted p ids len s MINUS_ONE s :=
  .inl ⟨rfl, rfl, rfl, fun _ _ => rfl⟩

theorem mmap_free_space_iff {ids : List NodeId} {start a1 : Nat} (h : AddressSpace L p ids s)
    (hs : start < 2 ^ 64) : FreeSpaceOnly p ids start a1 s ↔ Grantable p ids start a1 s := by
  unfold FreeSpaceOnly Grantable
  simp only [sysMmap]
  by_cases hbad : a1 % 2 ^ 32 = 0 ∨ a1 % 2 ^ 32 % PGSIZE ≠ 0
  · rw [if_pos hbad]
    refine ⟨fun _ => ?_, fun _ => granted_refused⟩
    rcases hbad with h0 | h1
    · exact .inl h0
    · exact .inr (.inl h1)
  have h0 : a1 % 2 ^ 32 ≠ 0 := fun h => hbad (.inl h)
  have h1 : a1 % 2 ^ 32 % PGSIZE = 0 := Decidable.byContradiction fun h => hbad (.inr h)
  have hn : 0 < a1 % 2 ^ 32 / PGSIZE := by simp only [PGSIZE] at *; omega
  have hn20 : a1 % 2 ^ 32 / PGSIZE < 2 ^ 20 := by simp only [PGSIZE] at *; omega
  have hlen : a1 % 2 ^ 32 = PGSIZE * (a1 % 2 ^ 32 / PGSIZE) := by simp only [PGSIZE] at *; omega
  rw [if_neg hbad]
  simp only [h0, h1, ne_eq, not_true_eq_false, false_or]
  by_cases hst : start = 0
  · -- the kernel chooses
    simp only [hst, if_true, wp_bind, wp_getProc, wp_firstFit h.list]
    by_cases hfit : fitStart s.nodes (a1 % 2 ^ 32 / PGSIZE) ids = 0
    · simp only [hfit, if_true, true_or, iff_true]
      exact granted_refused
    · simp only [hfit, if_false, false_or, wp_bind, wp_pure]
      exact uvmMmap_iff h hn hn20 hlen (fitStart_lt h.begins)
  · simp only [hst, if_false]
    by_cases hal : start % PGSIZE = 0
    · simp only [hal, not_true_eq_false, if_false, false_or, wp_bind, wp_pure]
      exact uvmMmap_iff h hn hn20 hlen hs
    · simp only [hal, not_false_eq_true, if_true, true_or, iff_true]
      exact granted_refused

theorem Booted.addressSpace {t : Nat} (h : Booted L p r t s own l) : AddressSpace L p [] s := by
  refine ⟨⟨own, l, r, h.inv.owned, h.root, by rw [h.proc]⟩, ?_, by simp⟩
  show (s.procs p).mmap = none
  rw [h.proc]

/-- One page is mapped with at most two tables. -/
theorem need_one_le (w : Owned L s own l) {va : Nat} (hal : va % PGSIZE = 0) (q : Slot) :
    need own q true va 1 ≤ 3 := by
  have hm := missing_eq_newTables q true va w.tree hal (.inl rfl)
  have := missing_le own q va
  simp only [need]; omega

/-- Process 0 with the four pages from page 100 on as its free region. -/
def withFreeRegion (s : Machine) : Machine :=
  { s with
    nodes := Function.update s.nodes 1
      { s.nodes 1 with beginAddr := PGSIZE * 100, npages := 4, next := none }
    procs := Function.update s.procs 0 { s.procs 0 with mmap := some 1 } }

/-- `sys_mmap(0, 4096)` is granted the first page of the region. -/
theorem mmap_free_space_region : ∃ s, boot smallLayout 0 (reset fun _ => 0) = .ok () s ∧
    AddressSpace smallLayout 0 [1] (withFreeRegion s) ∧
    RangeFree 0 [1] (PGSIZE * 100) 1 (withFreeRegion s) ∧
    FreeSpaceOnly 0 [1] 0 PGSIZE (withFreeRegion s) := by
  obtain ⟨s, r, t, own, l, hs, hb, -, hl⟩ := boot_small
  have w := hb.inv.owned
  have hown : Owned smallLayout (withFreeRegion s) own l :=
    ⟨w.chain, w.nodup, w.free, w.count, w.region, w.above, w.below, w.tree, w.listed⟩
  have hpg : ((withFreeRegion s).procs 0).pgtbl = PGSIZE * r := by simp [withFreeRegion, hb.proc]
  have ha : AddressSpace smallLayout 0 [1] (withFreeRegion s) :=
    ⟨⟨own, l, r, hown, hb.root, hpg⟩, by simp [ListFrom, withFreeRegion],
      by simp [withFreeRegion, PGSIZE]⟩
  have hfree : RangeFree 0 [1] (PGSIZE * 100) 1 (withFreeRegion s) := by
    refine ⟨by decide, by decide, ⟨1, by simp, by simp [withFreeRegion, PGSIZE]⟩,
      fun va h1 h2 => ?_, ?_, fun hsplit => ?_⟩
    · have hlow : leafPte s.mem (PGSIZE * r) va = 0 := hb.low va
        (by simp only [PGSIZE, TRAPFRAME, TRAMPOLINE, VA_MAX] at *; omega)
        (by simp only [PGSIZE] at *; omega)
        (by simp only [PGSIZE, TRAPFRAME_VPN] at *; omega)
      rw [hpg, show (withFreeRegion s).mem = s.mem from rfl, hlow, pteHas_zero]
    · rw [hpg, ← need_eq hown hb.root 1 _ true (by decide), hown.count]
      have := need_one_le hown (show PGSIZE * 100 % PGSIZE = 0 by decide) 0
      omega
    · -- the range is at the begin of the region
      unfold splits at hsplit
      split at hsplit
      · cases hsplit
      · rename_i i hi
        obtain rfl := List.mem_singleton.mp (List.mem_of_find?_eq_some hi)
        simp [withFreeRegion] at hsplit
  refine ⟨s, hs, ha, hfree, (mmap_free_space_iff ha (by decide)).mpr (.inr (.inr ?_))⟩
  rw [if_pos rfl, show fitStart (withFreeRegion s).nodes (PGSIZE % 2 ^ 32 / PGSIZE) [1] = PGSIZE * 100
    by simp [fitStart, withFreeRegion, PGSIZE]]
  exact .inr hfree

/-- `sys_mmap(PGSIZE, PGSIZE)` replaces the code page of the first process. -/
theorem mmap_replaces_code : ∃ s s', boot smallLayout 0 (reset fun _ => 0) = .ok () s ∧
    AddressSpace smallLayout 0 [] s ∧ sysMmap 0 PGSIZE PGSIZE s = .ok PGSIZE s' ∧
    pteHas (leafPte s.mem (s.procs 0).pgtbl PGSIZE) PTE_V = true ∧
    leafPte s'.mem (s.procs 0).pgtbl PGSIZE ≠ leafPte s.mem (s.procs 0).pgtbl PGSIZE ∧
    ¬ FreeSpaceOnly 0 [] PGSIZE PGSIZE s := by
  obtain ⟨s, r, t, own, l, hs, hb, -, hl⟩ := boot_small
  have ha := hb.addressSpace
  have hpg : (s.procs 0).pgtbl = PGSIZE * r := by rw [hb.proc]
  have hlist : ListFrom s.nodes (s.procs 0).mmap [] := ha.list
  obtain ⟨c, hc⟩ := hb.code
  have hodd : leafPte s.mem (PGSIZE * r) PGSIZE % 2 = 1 := by rw [hc]; omega
  -- three free pages are enough
  have hneed : need own 0 true PGSIZE 1 ≤ l.length := by
    have := need_one_le hb.inv.owned (show PGSIZE % PGSIZE = 0 by decide) 0
    omega
  have hspec := wp_uvmMmap PGSIZE 1 (PTE_R ||| PTE_W) (wlp_true _ s) hb.inv.owned hb.root hpg
    hlist (by decide) (by decide) (by decide) (by decide)
  obtain ⟨⟨⟩, s', hrun, -, s1, own', l', -, -, -, fp⟩ := wp_returns hspec
    (fun _ _ h => h ⟨by decide, by decide, hneed, by simp [splits]⟩)
  obtain ⟨k, hk, hleaf⟩ := fp.inside PGSIZE (by decide) (by decide) (by decide)
  have hsys : sysMmap 0 PGSIZE PGSIZE s = .ok PGSIZE s' := by
    have h1 : ¬ (PGSIZE % 2 ^ 32 = 0 ∨ PGSIZE % 2 ^ 32 % PGSIZE ≠ 0) := by decide
    have h2 : ¬ PGSIZE = 0 := by decide
    have h3 : ¬ PGSIZE % PGSIZE ≠ 0 := by decide
    have h4 : PGSIZE % 2 ^ 32 / PGSIZE = 1 := by decide
    simp only [sysMmap, if_neg h1, if_neg h2, if_neg h3, h4, bind_of_ok hrun]
    rfl
  have hne : leafPte s'.mem (PGSIZE * r) PGSIZE ≠ leafPte s.mem (PGSIZE * r) PGSIZE := fun he =>
    fresh_ne_leaf hb.inv.owned hb.root (by decide) hk (by decide) hodd (he.symm.trans hleaf)
  refine ⟨s, s', hs, ha, hsys, ?_, by rwa [hpg], fun hfree => ?_⟩
  · rw [hpg]; exact (pteHas_V _).mpr hodd
  · rcases wp_ok hfree hsys with ⟨h1, -⟩ | ⟨-, ⟨i, hi, -⟩, -⟩
    · exact absurd h1 (by decide)
    · cases hi

end Proc
end WhuOS
