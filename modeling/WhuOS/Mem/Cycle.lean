import WhuOS.Mem.Map
import WhuOS.Mem.Uvm

/-!
# WhuOS.Mem.Cycle

A free list that has run into a cycle. `pmem_free` does not look whether a page is free already: a
page that is freed while it is the first of the list becomes its own successor. From then on no walk
along the list comes to an end, whatever is freed afterwards.

* `Endless`          — the links from the head stay within a set of pages.
* `Endless.no_chain` — so there is no list of free pages any more.
* `cyclic_pmemFree`, `cyclic_destroyPgtbl` — later frees keep it that way.
-/

namespace WhuOS
namespace Mem

open Lib Kern Sched

variable {L : Layout} {q : Slot} {s : Machine} {own : Nat → Owner}

/-- The pages `S` of the user region hold the head of the list and all links from there. -/
structure Within (L : Layout) (S : Nat → Prop) (s : Machine) : Prop where
  region : ∀ n, S n → s.user.beginAddr ≤ PGSIZE * n ∧ PGSIZE * n < s.user.endAddr
  head : ∃ n, S n ∧ s.user.listHead = PGSIZE * n
  next : ∀ n, S n → ∃ k, S k ∧ Bytes.load 8 s.mem (PGSIZE * n) = PGSIZE * k
  above : L.allocBegin ≤ s.user.beginAddr
  below : s.user.endAddr ≤ PHYSTOP

def Endless (L : Layout) (s : Machine) : Prop := ∃ S, Within L S s

namespace Within

variable {S : Nat → Prop}

theorem pos (h : Within L S s) {n : Nat} (hn : S n) : 0 < PGSIZE * n := by
  have h1 := h.region n hn
  have h2 := h.above
  have h3 := L.exitState_data 0
  have h4 := L.trampoline_lt
  have h5 := L.trampoline_text
  simp only [KERNEL_BASE] at h5
  omega

theorem no_chain (h : Within L S s) : ∀ (l : List Nat) (n : Nat), S n →
    ¬ Chain s.mem (PGSIZE * n) l 0 := by
  intro l
  induction l with
  | nil =>
    intro n hn hc
    have h1 := h.pos hn
    have h2 : PGSIZE * n = 0 := hc
    omega
  | cons k l ih =>
    intro n hn hc
    obtain rfl : n = k := by
      have := hc.1
      simp only [PGSIZE] at this; omega
    obtain ⟨c, hc', hload⟩ := h.next n hn
    exact ih c hc' (hload ▸ hc.2)

theorem congr {s' : Machine} (h : Within L S s) (hu : s'.user = s.user)
    (hm : ∀ n, S n → ∀ a, a / PGSIZE = n → s'.mem a = s.mem a) : Within L S s' := by
  obtain ⟨h1, h2, h3, h4, h5⟩ := h
  refine ⟨by rwa [hu], by rwa [hu], fun n hn => ?_, by rwa [hu], by rwa [hu]⟩
  obtain ⟨k, hk, hload⟩ := h3 n hn
  refine ⟨k, hk, ?_⟩
  rw [← hload]
  exact Bytes.load_congr fun i hi => hm n hn _ (by simp only [PGSIZE]; omega)

theorem push (h : Within L S s) {c : Nat}
    (hc : s.user.beginAddr ≤ PGSIZE * c ∧ PGSIZE * c < s.user.endAddr) :
    Within L (fun n => n = c ∨ S n) (given s false c) := by
  obtain ⟨f, hf, hhead⟩ := h.head
  refine ⟨?_, ⟨c, .inl rfl, rfl⟩, fun n hn => ?_, h.above, h.below⟩
  · rintro n (rfl | hn)
    · exact hc
    · exact h.region n hn
  · by_cases hnc : n = c
    · subst hnc
      refine ⟨f, .inr hf, ?_⟩
      have h1 := h.region f hf
      have h2 := h.below
      have h3 : s.user.listHead < 2 ^ 64 := by simp only [PHYSTOP] at h2; omega
      rw [← hhead]
      exact Bytes.load_store_same h3
    · obtain ⟨k, hk, hload⟩ := h.next n (hn.resolve_left hnc)
      refine ⟨k, .inr hk, ?_⟩
      rw [← hload]
      refine Bytes.load_congr fun i hi => given_outside ?_
      simp only [PGSIZE]; omega

end Within

theorem Endless.no_chain (h : Endless L s) (l : List Nat) : ¬ Chain s.mem s.user.listHead l 0 := by
  obtain ⟨S, hw⟩ := h
  obtain ⟨n, hn, hhead⟩ := hw.head
  rw [hhead]
  exact hw.no_chain l n hn

theorem endless_of_head {t : Nat} (hhead : s.user.listHead = PGSIZE * t)
    (ht : s.user.beginAddr ≤ PGSIZE * t ∧ PGSIZE * t < s.user.endAddr)
    (habove : L.allocBegin ≤ s.user.beginAddr) (hbelow : s.user.endAddr ≤ PHYSTOP) :
    Within L (fun n => n = t) (given s false t) := by
  refine ⟨?_, ⟨t, rfl, rfl⟩, ?_, habove, hbelow⟩
  · rintro _ rfl; exact ht
  · rintro _ rfl
    refine ⟨_, rfl, ?_⟩
    have h3 : s.user.listHead < 2 ^ 64 := by simp only [PHYSTOP] at hbelow; omega
    exact (Bytes.load_store_same h3).trans hhead

/-! ## Code that keeps the cycle -/

/-- The list has no end, and whether `pmem_alloc` has failed is known. -/
def Cyclic (L : Layout) (b : Bool) (s : Machine) : Prop := Endless L s ∧ s.starved = b

theorem Cyclic.congr {b : Bool} {s' : Machine} (h : Cyclic L b s) (hm : s'.mem = s.mem)
    (hu : s'.user = s.user) (hb : s'.starved = s.starved) : Cyclic L b s' := by
  obtain ⟨⟨S, hw⟩, hs⟩ := h
  exact ⟨⟨S, hw.congr hu fun _ _ _ _ => by rw [hm]⟩, hb.trans hs⟩

variable {b : Bool}

theorem cyclic_load64 (a : Nat) : Stays (Cyclic L b) (load64 a) := fun _ h => h

theorem cyclic_getNode (i : NodeId) : Stays (Cyclic L b) (getNode i) := fun _ h => h

theorem cyclic_setNode (i : NodeId) (f : MmapNode → MmapNode) :
    Stays (Cyclic L b) (setNode i f) := fun _ h => h.congr rfl rfl rfl

theorem cyclic_mmapRegionFree (i : NodeId) : Stays (Cyclic L b) (mmapRegionFree i) :=
  .bind (cyclic_getNode _) fun _ => .bind (cyclic_setNode _ _) fun _ => cyclic_setNode _ _

theorem cyclic_pmemFree (page : Nat) : Stays (Cyclic L b) (pmemFree page false) := by
  rintro s ⟨⟨S, h⟩, hs⟩
  by_cases hal : page % PGSIZE = 0
  · obtain ⟨c, rfl⟩ : ∃ c, page = PGSIZE * c := ⟨page / PGSIZE, by simp only [PGSIZE] at *; omega⟩
    by_cases hc : s.user.beginAddr ≤ PGSIZE * c ∧ PGSIZE * c < s.user.endAddr
    · exact wp_pmemFree hc ⟨⟨_, h.push hc⟩, hs⟩
    · have hout : PGSIZE * c < s.user.beginAddr ∨ s.user.endAddr ≤ PGSIZE * c := by omega
      simp only [pmemFree, getRegion, wp_bind, wp_get, wp_pure, Bool.false_eq_true,
        if_false, hal, ne_eq, not_true_eq_false, ge_iff_le, Bool.or_eq_true, decide_eq_true_eq, hout,
        if_true, wp_panic]
      exact ⟨⟨S, h⟩, hs⟩
  · simp only [pmemFree, getRegion, wp_bind, wp_get, wp_pure, Bool.false_eq_true,
      if_false, ne_eq, hal, not_false_eq_true, if_true, wp_panic]
    exact ⟨⟨S, h⟩, hs⟩

theorem cyclic_destroyPgtbl :
    ∀ level pgtbl, Stays (Cyclic L b) (destroyPgtbl level pgtbl) := by
  intro level
  induction level with
  | zero =>
    intro pgtbl
    refine .bind (.forFrom (fun i => .bind (cyclic_load64 _) fun pte => ?_) _ _) fun _ =>
      cyclic_pmemFree _
    exact .ite (cyclic_pmemFree _) (.pure _)
  | succ level ih =>
    intro pgtbl
    refine .bind (.forFrom (fun i => .bind (cyclic_load64 _) fun pte => ?_) _ _) fun _ =>
      cyclic_pmemFree _
    exact .ite (.ite (ih _) (cyclic_pmemFree _)) (.pure _)

/-! ## A frame that is freed and then unmapped -/

theorem wp_unmapPage_leaf {r va k : Nat} {freeit : Bool} {Q : Unit → Machine → Prop}
    {E : Stop → Machine → Prop} (t : Tree L s.mem own) (hr : own r = .node q 3 0) (hva : va < VA_MAX)
    (hk : own k = .node q 1 (vpn va 1)) (hodd : leafPte s.mem (PGSIZE * r) va % 2 = 1)
    (hleaf : pteFlags (leafPte s.mem (PGSIZE * r) va) ≠ PTE_V)
    (h : wp (do
      if freeit then pmemFree (pteToPa (leafPte s.mem (PGSIZE * r) va)) false
      store64 (PGSIZE * k + 8 * vaToVpn va 0) 0) Q E s) :
    wp (unmapPage (PGSIZE * r) va freeit) Q E s := by
  obtain ⟨hw, hl⟩ := t.leaf_of_table hr hva hk
  have hV : pteHas (leafPte s.mem (PGSIZE * r) va) PTE_V = true := (pteHas_V _).mpr hodd
  have hent : Bytes.load 8 s.mem (PGSIZE * k + 8 * vaToVpn va 0) = leafPte s.mem (PGSIZE * r) va :=
    hl.symm
  rw [unmapPage, wp_bind, wp_vmGetpte_false, if_pos hva, hw]
  simp only [wp_bind, wp_load64, hent, hV, Bool.not_true, Bool.false_eq_true, if_false, hleaf]
  cases freeit with
  | true => simpa only [if_true, wp_bind] using h
  | false => simpa only [Bool.false_eq_true, if_false, wp_bind] using h

theorem vmUnmappages_one {pgtbl va : Nat} {freeit : Bool} {Q : Unit → Machine → Prop}
    {E : Stop → Machine → Prop} (hva : va < VA_MAX) (hal : va % PGSIZE = 0) :
    wp (vmUnmappages pgtbl va PGSIZE freeit) Q E s ↔
      wp (unmapPage pgtbl va freeit) Q E s := by
  have hn : max (pgRoundUp PGSIZE / PGSIZE) 1 = 1 := by decide
  have hcnt : ((va + PGSIZE * 1) % 2 ^ 64 - va + (PGSIZE - 1)) / PGSIZE = 1 := by
    simp only [VA_MAX, PGSIZE] at *; omega
  simp only [vmUnmappages, hal, ne_eq, not_true_eq_false, if_false, hn, forPages, hcnt, Kern.forFrom,
    Nat.mul_zero, Nat.add_zero, wp_bind, wp_pure]

end Mem
end WhuOS
