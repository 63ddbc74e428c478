import Mathlib.Data.Set.Card
import Mathlib.Order.Interval.Finset.Nat
import WhuOS.Mem.Frames
import WhuOS.Proc.Model

/-!
# WhuOS.Proc.Heap

`uvm_heap_grow`, `uvm_heap_ungrow` and `sys_brk`, for any top of the heap and any length.

* `heapGrow_spec`        — the pages up to the new top are mapped, or the free pages run out.
* `heapGrow_returns_iff` — the number of free pages that this takes.
* `heapUngrow_spec`      — the pages down to the new top are unmapped, and their frames free.
-/

namespace WhuOS
namespace Proc

open Lib Kern Mem

variable {sh : Nat → Prop} {s s' s'' : Machine} {tab tab' tab'' : Nat → Nat → Option Nat}
  {l l' l'' : List Nat} {new new' : List (Nat × Nat)} {m : Bytes} {j u r v n w top len : Nat}

/-! ## Growing -/

/-- One pass of the loop of `uvm_heap_grow`. -/
def growPage (pgtbl va : Nat) : MemM Unit := do
  let pa ← pmemAlloc false
  if pa = 0 then Kern.panic "uvm_heap_grow: out of memory"
  memset pa 0 PGSIZE
  vmMappages pgtbl va pa PGSIZE (PTE_R ||| PTE_W ||| PTE_U)

theorem uvmHeapGrow_eq (pgtbl top len : Nat) : uvmHeapGrow pgtbl top len = (do
    forPages (pgRoundUp top) (pgRoundUp ((top + len) % 2 ^ 64)) (growPage pgtbl)
    return (top + len) % 2 ^ 64 : MemM Nat) := rfl

/-- The pages `v .. v + n - 1` are mapped to frames that were free, as were the tables `new`. -/
structure Grown (sh : Nat → Prop) (s : Machine) (tab : Nat → Nat → Option Nat) (l : List Nat)
    (v n : Nat) (new : List (Nat × Nat)) (s' : Machine) (tab' : Nat → Nat → Option Nat)
    (l' : List Nat) : Prop where
  frames : Frames sh s' tab' l'
  keeps : ∀ {j u c}, tab j u = some c → tab' j u = some c
  fresh : ∀ {j u c}, tab' j u = some c → tab j u = some c ∨ c ∈ l
  sub : l' ⊆ l
  other : ∀ w, ¬ (v ≤ w ∧ w < v + n) → leafAt s'.mem tab' w = leafAt s.mem tab w
  here : ∀ w, v ≤ w → w < v + n →
    Mapped s'.mem tab' w ∧ pteFlags (leafAt s'.mem tab' w) ≠ PTE_V ∧ frameOf s'.mem tab' w ∈ l
  mem : ∀ a, a / PGSIZE ∉ l → (∀ j u, tab j u ≠ some (a / PGSIZE)) → s'.mem a = s.mem a
  added : ∀ j u, tab' j u ≠ none ↔ tab j u ≠ none ∨ (j, u) ∈ new
  absent : ∀ p ∈ new, tab p.1 p.2 = none
  nodup : new.Nodup
  count : new.length + n + l'.length = l.length

/-- The free pages are not enough for `n` frames and the tables `new`, which are missing. -/
structure Starved (tab : Nat → Nat → Option Nat) (l : List Nat) (n : Nat) (new : List (Nat × Nat)) :
    Prop where
  absent : ∀ p ∈ new, tab p.1 p.2 = none
  nodup : new.Nodup
  count : l.length < n + new.length

theorem Grown.refl (h : Frames sh s tab l) : Grown sh s tab l v 0 [] s tab l := by
  refine ⟨h, fun h => h, .inl, List.Subset.refl l, fun _ _ => rfl, fun w h1 h2 => ?_,
    fun _ _ _ => rfl, fun _ _ => by simp, by simp, List.nodup_nil, by simp⟩
  omega

theorem Grown.disjoint (h : Grown sh s tab l v n new s' tab' l')
    (hab : ∀ p ∈ new', tab' p.1 p.2 = none) :
    (new'.Nodup → (new ++ new').Nodup) ∧ ∀ p ∈ new ++ new', tab p.1 p.2 = none := by
  have hold : ∀ p ∈ new', p ∉ new := fun p hp hp' => (h.added p.1 p.2).mpr (.inr hp') (hab p hp)
  refine ⟨fun hn => List.nodup_append.mpr ⟨h.nodup, hn, ?_⟩, fun p hp => ?_⟩
  · rintro p hp q hq rfl; exact hold p hq hp
  · rcases List.mem_append.mp hp with hp | hp
    · exact h.absent p hp
    · by_contra hne
      exact (h.added p.1 p.2).mpr (.inl hne) (hab p hp)

theorem Grown.trans {a b : Nat} (h : Grown sh s tab l v a new s' tab' l')
    (h' : Grown sh s' tab' l' (v + a) b new' s'' tab'' l'') :
    Grown sh s tab l v (a + b) (new ++ new') s'' tab'' l'' := by
  obtain ⟨hnodup, habsent⟩ := h.disjoint h'.absent
  refine ⟨h'.frames, fun hc => h'.keeps (h.keeps hc), fun hc => ?_, fun c hc => h.sub (h'.sub hc),
    fun w hw => ?_, fun w h1 h2 => ?_, fun a hl ht => ?_, fun j u => ?_,
    habsent, hnodup h'.nodup, ?_⟩
  · rcases h'.fresh hc with hc | hc
    · exact h.fresh hc
    · exact .inr (h.sub hc)
  · rw [h'.other w (by omega), h.other w (by omega)]
  · by_cases hw : w < v + a
    · rw [Mapped, frameOf, h'.other w (by omega)]
      exact h.here w h1 hw
    · obtain ⟨hm, hf, hl⟩ := h'.here w (by omega) (by omega)
      exact ⟨hm, hf, h.sub hl⟩
  · rw [h'.mem a (fun hc => hl (h.sub hc)) fun j u hc => ?_, h.mem a hl ht]
    rcases h.fresh hc with hc | hc
    · exact ht j u hc
    · exact hl hc
  · rw [h'.added, h.added, List.mem_append, or_assoc]
  · have h1 := h.count
    have h2 := h'.count
    rw [List.length_append]; omega

theorem Grown.starved (h : Grown sh s tab l v n new s' tab' l') {k : Nat} (h' : Starved tab' l' k new') :
    Starved tab l (n + k) (new ++ new') := by
  obtain ⟨hnodup, habsent⟩ := h.disjoint h'.absent
  refine ⟨habsent, hnodup h'.nodup, ?_⟩
  have h1 := h.count
  have h2 := h'.count
  rw [List.length_append]; omega

theorem Starved.mono {k : Nat} (h : Starved tab l n new) (hk : n ≤ k) : Starved tab l k new :=
  ⟨h.absent, h.nodup, Nat.lt_of_lt_of_le h.count (Nat.add_le_add_right hk _)⟩

/-- The messages of a growth that finds no free page. -/
def outOfMemory (msg : String) : Prop :=
  msg = "uvm_heap_grow: out of memory" ∨ msg = "vm_mappages: failed to get PTE"

theorem growPage_spec (h : Frames sh s tab l) (hr : tab 2 0 = some r) (hv : PGSIZE * (v + 1) ≤ VA_MAX)
    (hsh : ¬ sh v) :
    (∃ new s' tab' l', growPage (PGSIZE * r) (PGSIZE * v) s = .ok () s' ∧
      Grown sh s tab l v 1 new s' tab' l' ∧ Spans v 1 new) ∨
    (∃ msg new s', growPage (PGSIZE * r) (PGSIZE * v) s = .error (.panic msg) s' ∧ outOfMemory msg ∧
      Starved tab l 1 new ∧ Spans v 1 new) := by
  cases l with
  | nil =>
    refine .inr ⟨_, [], { s with starved := true }, ?_, .inl rfl, ⟨by simp, List.nodup_nil, by simp⟩, by simp [Spans]⟩
    rw [growPage, bind_of_ok (pmemAlloc_nil h.list), if_pos rfl]
    rfl
  | cons c l =>
    obtain ⟨hpos, hlt⟩ := h.list.page c (by simp)
    have hc0 : PGSIZE * c ≠ 0 := by simp only [PGSIZE]; omega
    have hset : memset (PGSIZE * c) 0 PGSIZE (taken s false c) = .ok () (taken s false c) := by
      show EStateM.Result.ok () { taken s false c with
        mem := (taken s false c).mem.write (PGSIZE * c) PGSIZE (fun _ => 0) } = _
      rw [taken_clear]
    have hbody : growPage (PGSIZE * r) (PGSIZE * v) s =
        vmMappages (PGSIZE * r) (PGSIZE * v) (PGSIZE * c) PGSIZE (PTE_R ||| PTE_W ||| PTE_U)
          (taken s false c) := by
      rw [growPage, bind_of_ok (pmemAlloc_cons h.list), if_neg hc0]
      dsimp only
      rw [bind_of_ok hset]
    obtain ⟨hf, hleaf⟩ := h.take
    have hone : pagesFor PGSIZE = 1 := by decide
    rw [hbody]
    rcases vmMappages_spec v c PGSIZE (PTE_R ||| PTE_W ||| PTE_U) hf.toPageTables hr (by decide)
      (by decide) (by simp only [PGSIZE] at *; omega) hlt with
      ⟨new, s', tab', l', hrun, hm, hspan⟩ | ⟨new, s', hrun, hshort, hspan⟩ <;> rw [hone] at hspan
    · rw [hone, show (PTE_R ||| PTE_W ||| PTE_U) ||| 1 = 23 by decide] at hm
      have hp : PGSIZE * (c + 1) ≤ 2 ^ 64 := by simp only [PGSIZE] at *; omega
      have hcases := hm.leaf_cases (by decide) hp
      have hcl : c ∉ l := (List.nodup_cons.mp h.list.nodup).1
      have hcuser : InUser s c := h.user (.inl (by simp))
      have hfr := hf.map hm (by decide) hp hv fun w h1 h2 _ => by
        obtain rfl : w = v := by omega
        rw [Nat.sub_self, Nat.add_zero]
        refine ⟨hcuser, ?_⟩
        rintro (hk | ⟨j, u, hk⟩ | ⟨u, hu, hmap, hk⟩)
        · exact hcl hk
        · exact h.apart hk (by simp)
        · have hold := (Mapped.congr (hleaf u)).mp hmap
          refine (h.frame hu hold).1 ?_
          rw [frameOf, ← hleaf u]
          exact List.mem_cons.mpr (.inl hk)
      refine .inl ⟨new, s', tab', l', hrun, ⟨hfr, hm.keeps, fun hk => ?_, fun x hx => ?_, fun w hw => ?_,
        fun w h1 h2 => ?_, fun a hl ht => ?_, hm.added, hm.absent, hm.nodup, ?_⟩, hspan⟩
      · exact (hm.fresh hk).imp id (List.mem_cons_of_mem _)
      · exact List.mem_cons_of_mem _ (hm.sub hx)
      · rcases hcases w with ⟨hin, -⟩ | ⟨-, heq⟩
        · exact absurd hin hw
        · exact heq.trans (hleaf w)
      · rcases hcases w with ⟨-, heq, hfw⟩ | ⟨hno, -⟩
        · obtain ⟨hmap, hfl⟩ := mapped_of_flags heq (by decide) (by decide)
          refine ⟨hmap, by rw [hfl]; decide, ?_⟩
          obtain rfl : w = v := by omega
          rw [hfw, Nat.sub_self]
          exact List.mem_cons_self
        · exact absurd ⟨h1, h2⟩ hno
      · rw [hm.mem a fun j u hk => ?_]
        · exact taken_outside fun hac => hl (by rw [hac]; simp)
        rcases hm.fresh hk with hk | hk
        · exact ht j u hk
        · exact hl (List.mem_cons_of_mem _ hk)
      · have := hm.count
        rw [List.length_cons]; omega
    · refine .inr ⟨_, new, s', hrun, .inr rfl, ⟨hshort.absent, hshort.nodup, ?_⟩, hspan⟩
      have := hshort.count
      rw [List.length_cons]; omega

theorem growLoop_spec : ∀ (n i : Nat) {s : Machine} {tab : Nat → Nat → Option Nat} {l : List Nat},
    Frames sh s tab l → tab 2 0 = some r → PGSIZE * (v + i + n) ≤ VA_MAX →
    (∀ w, v + i ≤ w → w < v + i + n → ¬ sh w) →
    (∃ new s' tab' l',
      Kern.forFrom (fun k => growPage (PGSIZE * r) (PGSIZE * v + PGSIZE * k)) i n s = .ok () s' ∧
      Grown sh s tab l (v + i) n new s' tab' l' ∧ Spans (v + i) n new) ∨
    (∃ msg new s',
      Kern.forFrom (fun k => growPage (PGSIZE * r) (PGSIZE * v + PGSIZE * k)) i n s =
        .error (.panic msg) s' ∧ outOfMemory msg ∧ Starved tab l n new ∧ Spans (v + i) n new) := by
  intro n
  induction n with
  | zero =>
    intro i s tab l h _ _ _
    exact .inl ⟨[], s, tab, l, rfl, .refl h, by simp [Spans]⟩
  | succ n ih =>
    intro i s tab l h hr hmax hsh
    have hva : PGSIZE * v + PGSIZE * i = PGSIZE * (v + i) := (Nat.mul_add ..).symm
    rcases growPage_spec h hr (v := v + i) (by simp only [PGSIZE] at *; omega)
      (hsh _ (Nat.le_refl _) (by omega)) with
      ⟨new, s1, tab1, l1, hrun1, g1, hspan1⟩ | ⟨msg, new, s1, hrun1, hmsg, hst, hspan1⟩
    · have hspan1' : Spans (v + i) (n + 1) new := hspan1.mono (Nat.le_refl _) (by omega)
      rcases ih (i + 1) g1.frames (g1.keeps hr) (by simp only [PGSIZE] at *; omega)
        (fun w h1 h2 => hsh w (by omega) (by omega)) with
        ⟨new2, s2, tab2, l2, hrun2, g2, hspan2⟩ | ⟨msg, new2, s2, hrun2, hmsg, hst, hspan2⟩
      · have g := g1.trans g2
        rw [Nat.add_comm 1 n] at g
        refine .inl ⟨_, s2, tab2, l2, ?_, g, hspan1'.append (hspan2.mono (by omega) (by omega))⟩
        rw [Kern.forFrom, hva, bind_of_ok hrun1]
        exact hrun2
      · refine .inr ⟨msg, _, s2, ?_, hmsg, (g1.starved hst).mono (by omega),
          hspan1'.append (hspan2.mono (by omega) (by omega))⟩
        rw [Kern.forFrom, hva, bind_of_ok hrun1]
        exact hrun2
    · refine .inr ⟨msg, new, s1, ?_, hmsg, hst.mono (by omega), hspan1.mono (Nat.le_refl _) (by omega)⟩
      rw [Kern.forFrom, hva, bind_of_error hrun1]

theorem pgRoundUp_pages (h : top ≤ VA_MAX) : pgRoundUp top = PGSIZE * pagesFor top := by
  simp only [pgRoundUp, pagesFor, VA_MAX, PGSIZE] at *; omega

theorem pagesFor_mono {a b : Nat} (h : a ≤ b) : pagesFor a ≤ pagesFor b := by
  simp only [pagesFor, PGSIZE]; omega

/-- The number of pages that the heap gets when it grows by `len` bytes. -/
def growPages (top len : Nat) : Nat := pagesFor (top + len) - pagesFor top

theorem heapGrow_spec (h : Frames sh s tab l) (hr : tab 2 0 = some r) (hmax : top + len ≤ VA_MAX)
    (hsh : ∀ w, w < pagesFor (top + len) → ¬ sh w) :
    (∃ new s' tab' l', uvmHeapGrow (PGSIZE * r) top len s = .ok (top + len) s' ∧
      Grown sh s tab l (pagesFor top) (growPages top len) new s' tab' l' ∧
      Spans (pagesFor top) (growPages top len) new) ∨
    (∃ msg new s', uvmHeapGrow (PGSIZE * r) top len s = .error (.panic msg) s' ∧ outOfMemory msg ∧
      Starved tab l (growPages top len) new ∧ Spans (pagesFor top) (growPages top len) new) := by
  have hnew : (top + len) % 2 ^ 64 = top + len := by simp only [VA_MAX] at *; omega
  have hle := pagesFor_mono (Nat.le_add_right top len)
  have hcount : (PGSIZE * pagesFor (top + len) - PGSIZE * pagesFor top + (PGSIZE - 1)) / PGSIZE =
      growPages top len := by
    simp only [growPages, PGSIZE]; omega
  have hsum : pagesFor top + growPages top len = pagesFor (top + len) := by
    unfold growPages; omega
  have hend : PGSIZE * pagesFor (top + len) ≤ VA_MAX := by
    simp only [pagesFor, VA_MAX, PGSIZE] at *; omega
  have hloop := growLoop_spec (r := r) (v := pagesFor top) (growPages top len) 0 h hr
    (by rwa [Nat.add_zero, hsum]) fun w _ h2 => hsh w (by omega)
  rw [uvmHeapGrow_eq, hnew, pgRoundUp_pages hmax, pgRoundUp_pages (by omega), forPages, hcount]
  rcases hloop with ⟨new, s1, tab1, l1, hrun, g, hspan⟩ | ⟨msg, new, s1, hrun, hmsg, hst, hspan⟩
  · exact .inl ⟨new, s1, tab1, l1, by rw [bind_of_ok hrun]; rfl, g, hspan⟩
  · exact .inr ⟨msg, new, s1, by rw [bind_of_error hrun], hmsg, hst, hspan⟩

/-- The free pages that a growth takes: the frames, and the tables that are missing. -/
def growDemand (m : Bytes) (pgtbl top len : Nat) : Nat :=
  if growPages top len = 0 then 0
  else growPages top len +
    (missingTables m pgtbl (PGSIZE * pagesFor top) (PGSIZE * growPages top len)).length

theorem Spans.singleton {p : Nat × Nat} (h : Spans v n new) (hp : p ∈ new) : Spans v n [p] :=
  fun q hq => h q (by rw [List.mem_singleton.mp hq]; exact hp)

theorem tables_of_mapped (h : PageTable m tab) (hm : Mapped m tab w) :
    tab 0 (w / 512) ≠ none ∧ tab 1 (w / 512 / 512) ≠ none := by
  obtain ⟨c, hc⟩ : ∃ c, tab 0 (w / 512) = some c := by
    cases hc : tab 0 (w / 512) with
    | some c => exact ⟨c, rfl⟩
    | none => exact absurd hm (not_mapped_of_zero (by rw [leafAt, hc]))
  obtain ⟨d, hd⟩ := h.parent hc (by decide)
  exact ⟨by rw [hc]; simp, by rw [hd]; simp⟩

theorem heapGrow_returns_iff (h : Frames sh s tab l) (hr : tab 2 0 = some r)
    (hmax : top + len ≤ VA_MAX) (hsh : ∀ w, w < pagesFor (top + len) → ¬ sh w) :
    (∃ s', uvmHeapGrow (PGSIZE * r) top len s = .ok (top + len) s') ↔
      growDemand s.mem (PGSIZE * r) top len ≤ l.length := by
  have hle := pagesFor_mono (Nat.le_add_right top len)
  have hmem : ∀ {p}, 0 < growPages top len →
      (p ∈ missingTables s.mem (PGSIZE * r) (PGSIZE * pagesFor top) (PGSIZE * growPages top len) ↔
        Spans (pagesFor top) (growPages top len) [p] ∧ tab p.1 p.2 = none) := by
    intro p hpos
    have hpages : pagesFor (PGSIZE * growPages top len) = growPages top len := by
      simp only [pagesFor, PGSIZE]; omega
    rw [mem_missingTables h.table hr (by simp only [PGSIZE]; omega) (by
      simp only [growPages, pagesFor, VA_MAX, PGSIZE] at *; omega), hpages]
  rcases heapGrow_spec h hr hmax hsh with
    ⟨new, s', tab', l', hrun, g, -⟩ | ⟨msg, new, s', hrun, -, hst, hspan⟩
  · refine ⟨fun _ => ?_, fun _ => ⟨s', hrun⟩⟩
    unfold growDemand
    split
    · omega
    · rename_i hne
      -- every missing table has been made
      have hsub : missingTables s.mem (PGSIZE * r) (PGSIZE * pagesFor top)
          (PGSIZE * growPages top len) ⊆ new := by
        intro p hp
        obtain ⟨hs, hnone⟩ := (hmem (by omega)).mp hp
        obtain ⟨w, h1, h2, hw⟩ := hs p (by simp)
        obtain ⟨ht0, ht1⟩ := tables_of_mapped g.frames.table (g.here w h1 h2).1
        rcases hw with rfl | rfl
        · exact ((g.added _ _).mp ht1).resolve_left (fun h => h hnone)
        · exact ((g.added _ _).mp ht0).resolve_left (fun h => h hnone)
      have h1 := ((nodup_missingTables ..).subperm hsub).length_le
      have h2 := g.count
      omega
  · refine ⟨fun h1 => ?_, fun hdem => ?_⟩
    · obtain ⟨s1, h1⟩ := h1
      rw [hrun] at h1; cases h1
    have h2 := hst.count
    unfold growDemand at hdem
    split at hdem
    · rename_i h0
      rw [h0] at hspan h2
      cases new with
      | nil => simp at h2
      | cons p new =>
        obtain ⟨w, h3, h4, -⟩ := hspan p (by simp)
        omega
    · rename_i hne
      have hsub : new ⊆ missingTables s.mem (PGSIZE * r) (PGSIZE * pagesFor top)
          (PGSIZE * growPages top len) := fun p hp =>
        (hmem (by omega)).mpr ⟨Spans.singleton hspan hp, hst.absent p hp⟩
      have h1 := (hst.nodup.subperm hsub).length_le
      omega

/-! ## Shrinking -/

/-- The number of pages that the heap loses when it shrinks by `len` bytes. -/
def ungrowPages (top len : Nat) : Nat := pagesFor top - pagesFor (top - len)

theorem heapUngrow_spec (h : Frames sh s tab l) (hr : tab 2 0 = some r) (hmax : top ≤ VA_MAX)
    (hlen : len ≤ top) (hd : ∀ w, pagesFor (top - len) ≤ w → w < pagesFor top →
      ¬ sh w ∧ Mapped s.mem tab w ∧ pteFlags (leafAt s.mem tab w) ≠ PTE_V) :
    ∃ s', uvmHeapUngrow (PGSIZE * r) top len s = .ok (top - len) s' ∧
      Detaches sh s tab l true (pagesFor (top - len)) (ungrowPages top len) s' := by
  have hnew : sub64 top len = top - len := by simp only [sub64, VA_MAX] at *; omega
  have hle := pagesFor_mono (Nat.sub_le top len)
  rw [uvmHeapUngrow, hnew, pgRoundUp_pages hmax, pgRoundUp_pages (Nat.le_trans (Nat.sub_le ..) hmax)]
  dsimp only
  by_cases hlt : PGSIZE * pagesFor (top - len) < PGSIZE * pagesFor top
  · have hdiv : PGSIZE * ((PGSIZE * pagesFor top - PGSIZE * pagesFor (top - len)) / PGSIZE) =
        PGSIZE * ungrowPages top len := by
      simp only [ungrowPages, PGSIZE]; omega
    have hpages : pagesFor (PGSIZE * ungrowPages top len) = ungrowPages top len := by
      simp only [pagesFor, PGSIZE]; omega
    have hpos : 0 < PGSIZE * ungrowPages top len := by
      simp only [ungrowPages, PGSIZE] at *; omega
    have hend : PGSIZE * pagesFor (top - len) + PGSIZE * ungrowPages top len ≤ VA_MAX := by
      simp only [ungrowPages, pagesFor, VA_MAX, PGSIZE] at *; omega
    obtain ⟨s1, hrun, d⟩ := h.unmapPages true _ _ hr hpos hend fun w h1 h2 => by
      rw [hpages] at h2
      obtain ⟨hsh, hm⟩ := hd w h1 (by unfold ungrowPages at h2; omega)
      exact ⟨fun _ => hsh, hm⟩
    rw [hpages] at d
    rw [if_pos hlt, hdiv, bind_of_ok hrun]
    exact ⟨s1, rfl, d⟩
  · have h0 : ungrowPages top len = 0 := by simp only [ungrowPages, PGSIZE] at *; omega
    rw [if_neg hlt, h0]
    exact ⟨s, rfl, ⟨h.table, fun w => by rw [if_neg (by omega)], rfl, rfl⟩, h, fun _ _ _ => rfl⟩

/-! ## The heap of a page table -/

/-- Between the first two pages and `limit` the mapped pages are those below `top`, rounded up. -/
def HeapMapped (s : Machine) (pgtbl limit top : Nat) : Prop :=
  ∀ va, 2 * PGSIZE ≤ va → va < limit → (translate s pgtbl va ≠ none ↔ va < pgRoundUp top)

/-- A page table whose pages below `k` have frames of their own, with a heap up to `top`. -/
structure Heap (sh : Nat → Prop) (s : Machine) (tab : Nat → Nat → Option Nat) (l : List Nat)
    (r k top : Nat) : Prop where
  frames : Frames sh s tab l
  root : tab 2 0 = some r
  limit : PGSIZE * k ≤ VA_MAX
  own : ∀ v, v < k → ¬ sh v
  topLe : top ≤ PGSIZE * k
  mapped : HeapMapped s (PGSIZE * r) (PGSIZE * k) top
  perm : ∀ va pa f, 2 * PGSIZE ≤ va → va < pgRoundUp top →
    translate s (PGSIZE * r) va = some (pa, f) → f ≠ PTE_V

theorem pagesFor_le_iff {a b : Nat} : pagesFor a ≤ b ↔ a ≤ PGSIZE * b := by
  simp only [pagesFor, PGSIZE]; omega

theorem heapMapped_iff {k : Nat} (ht : PageTable s.mem tab) (hr : tab 2 0 = some r)
    (hk : PGSIZE * k ≤ VA_MAX) (htop : top ≤ PGSIZE * k) :
    HeapMapped s (PGSIZE * r) (PGSIZE * k) top ↔
      ∀ w, 2 ≤ w → w < k → (Mapped s.mem tab w ↔ w < pagesFor top) := by
  rw [HeapMapped, pgRoundUp_pages (Nat.le_trans htop hk)]
  constructor
  · intro hm w h2 hw
    have hdiv : PGSIZE * w / PGSIZE = w := Nat.mul_div_cancel_left _ (by decide)
    have := hm (PGSIZE * w) (by simp only [PGSIZE]; omega) (by simp only [PGSIZE]; omega)
    rw [Ne, translate_none ht hr (by simp only [PGSIZE] at *; omega), hdiv, not_not] at this
    rw [this]
    simp only [PGSIZE]; omega
  · intro hm va h2 hva
    rw [Ne, translate_none ht hr (by omega), not_not,
      hm (va / PGSIZE) (by simp only [PGSIZE] at *; omega) (by simp only [PGSIZE] at *; omega)]
    simp only [PGSIZE]; omega

namespace Heap

variable {k : Nat}

theorem top_le (h : Heap sh s tab l r k top) : top ≤ VA_MAX := Nat.le_trans h.topLe h.limit

theorem pages_le (h : Heap sh s tab l r k top) : pagesFor top ≤ k := pagesFor_le_iff.mpr h.topLe

theorem page (h : Heap sh s tab l r k top) (h2 : 2 ≤ w) (hw : w < pagesFor top) :
    ¬ sh w ∧ Mapped s.mem tab w ∧ pteFlags (leafAt s.mem tab w) ≠ PTE_V := by
  have hwk : w < k := Nat.lt_of_lt_of_le hw h.pages_le
  have hva : PGSIZE * w < VA_MAX := by have := h.limit; simp only [PGSIZE] at *; omega
  have hdiv : PGSIZE * w / PGSIZE = w := Nat.mul_div_cancel_left _ (by decide)
  have hm := ((heapMapped_iff h.frames.table h.root h.limit h.topLe).mp h.mapped w h2 hwk).mpr hw
  refine ⟨h.own w hwk, hm, h.perm (PGSIZE * w) _ _ (by simp only [PGSIZE]; omega) ?_
    ((translate_some h.frames.table h.root hva).mpr ⟨by rwa [hdiv], rfl, by rw [hdiv]⟩)⟩
  rw [pgRoundUp_pages h.top_le]
  simp only [PGSIZE]; omega

/-- The heap with another top, where the pages below it are mapped and those above it are not. -/
theorem retop {k' : Nat} (h : Heap sh s tab l r k top) (hf : Frames sh s' tab' l')
    (hr : tab' 2 0 = some r) (hk' : k' ≤ PGSIZE * k)
    (hm : ∀ w, 2 ≤ w → w < k → (Mapped s'.mem tab' w ↔ w < pagesFor k'))
    (hp : ∀ w, 2 ≤ w → w < pagesFor k' → pteFlags (leafAt s'.mem tab' w) ≠ PTE_V) :
    Heap sh s' tab' l' r k k' := by
  refine ⟨hf, hr, h.limit, h.own, hk', (heapMapped_iff hf.table hr h.limit hk').mpr hm,
    fun va pa f h2 hva htr => ?_⟩
  have hlim := h.limit
  rw [pgRoundUp_pages (Nat.le_trans hk' h.limit)] at hva
  have hle : pagesFor k' ≤ k := pagesFor_le_iff.mpr hk'
  obtain ⟨-, -, rfl⟩ := (translate_some hf.table hr (by simp only [PGSIZE] at *; omega)).mp htr
  exact hp _ (by simp only [PGSIZE] at *; omega) (by simp only [PGSIZE] at *; omega)

theorem withProcs (h : Heap sh s tab l r k top) (procs : Sched.Slot → Mem.Proc) :
    Heap sh { s with procs := procs } tab l r k top :=
  have hf : Frames sh { s with procs := procs } tab l :=
    ⟨⟨⟨h.frames.list.chain, h.frames.list.nodup, h.frames.list.page, h.frames.list.count⟩,
      h.frames.table, h.frames.apart⟩, h.frames.low, h.frames.frame, h.frames.distinct, h.frames.user⟩
  h.retop hf h.root h.topLe ((heapMapped_iff h.frames.table h.root h.limit h.topLe).mp h.mapped)
    fun _ h2 hw => (h.page h2 hw).2.2

theorem grow (h : Heap sh s tab l r k top) (len : Nat) (hlen : top + len ≤ PGSIZE * k) :
    (∃ new s' tab' l', uvmHeapGrow (PGSIZE * r) top len s = .ok (top + len) s' ∧
      Grown sh s tab l (pagesFor top) (growPages top len) new s' tab' l' ∧
      Heap sh s' tab' l' r k (top + len)) ∨
    (∃ msg s', uvmHeapGrow (PGSIZE * r) top len s = .error (.panic msg) s' ∧ outOfMemory msg) := by
  have hle := pagesFor_mono (Nat.le_add_right top len)
  have hend : pagesFor (top + len) ≤ k := pagesFor_le_iff.mpr hlen
  rcases heapGrow_spec h.frames h.root (Nat.le_trans hlen h.limit) fun w hw =>
    h.own w (Nat.lt_of_lt_of_le hw hend) with
    ⟨new, s', tab', l', hrun, g, -⟩ | ⟨msg, new, s', hrun, hmsg, -⟩
  · refine .inl ⟨new, s', tab', l', hrun, g, h.retop g.frames (g.keeps h.root) hlen
      (fun w h2 hwk => ?_) fun w h2 hw => ?_⟩
    · by_cases hin : pagesFor top ≤ w ∧ w < pagesFor top + growPages top len
      · refine ⟨fun _ => ?_, fun _ => (g.here w hin.1 hin.2).1⟩
        unfold growPages at hin; omega
      · rw [Mapped.congr (g.other w hin),
          (heapMapped_iff h.frames.table h.root h.limit h.topLe).mp h.mapped w h2 hwk]
        unfold growPages at hin; omega
    · by_cases hlt : w < pagesFor top
      · rw [g.other w (by omega)]
        exact (h.page h2 hlt).2.2
      · exact (g.here w (by omega) (by unfold growPages; omega)).2.1
  · exact .inr ⟨msg, s', hrun, hmsg⟩

theorem ungrow (h : Heap sh s tab l r k top) (len : Nat) (hlen : 2 * PGSIZE + len ≤ top) :
    ∃ s', uvmHeapUngrow (PGSIZE * r) top len s = .ok (top - len) s' ∧
      Detaches sh s tab l true (pagesFor (top - len)) (ungrowPages top len) s' ∧
      Heap sh s' tab (backList s.mem tab true (pagesFor (top - len)) (ungrowPages top len) l) r k
        (top - len) := by
  have hle := pagesFor_mono (Nat.sub_le top len)
  have hlow : 2 ≤ pagesFor (top - len) := by simp only [pagesFor, PGSIZE] at *; omega
  obtain ⟨s', hrun, d⟩ := heapUngrow_spec h.frames h.root h.top_le (by omega) fun w h1 h2 =>
    h.page (Nat.le_trans hlow h1) h2
  refine ⟨s', hrun, d, h.retop d.frames h.root (Nat.le_trans (Nat.sub_le ..) h.topLe)
    (fun w h2 hwk => ?_) fun w h2 hw => ?_⟩
  · rw [d.unmaps.mapped, (heapMapped_iff h.frames.table h.root h.limit h.topLe).mp h.mapped w h2 hwk]
    unfold ungrowPages; omega
  · rw [d.unmaps.leaf, if_neg (by omega)]
    exact (h.page h2 (by omega)).2.2

end Heap

/-! ## Sequences of calls -/

inductive HeapCall where
  | grow (len : Nat)
  | ungrow (len : Nat)

namespace HeapCall

def run (pgtbl top : Nat) : HeapCall → MemM Nat
  | grow len => uvmHeapGrow pgtbl top len
  | ungrow len => uvmHeapUngrow pgtbl top len

/-- The top that the call asks for. -/
def next (top : Nat) : HeapCall → Nat
  | grow len => top + len
  | ungrow len => top - len

/-- That top is between the first two pages and `limit`. -/
def Ok (limit top : Nat) : HeapCall → Prop
  | grow len => top + len ≤ limit
  | ungrow len => 2 * PGSIZE + len ≤ top

end HeapCall

/-- `c` is on the list of the free user pages. -/
def FreePage (s : Machine) (c : Nat) : Prop := ∃ l, FreeList s false l ∧ c ∈ l

/-- `c` is the frame of a page between the first two and `limit`. -/
def HeapFrame (s : Machine) (pgtbl limit c : Nat) : Prop :=
  ∃ va f, 2 * PGSIZE ≤ va ∧ va < limit ∧ translate s pgtbl va = some (PGSIZE * c, f)

/-- The number of leaf frames that a call from `s` to `s'` allocates. -/
noncomputable def framesAllocated (pgtbl limit : Nat) (s s' : Machine) : Nat :=
  {c | FreePage s c ∧ HeapFrame s' pgtbl limit c}.ncard

/-- The number of leaf frames that it frees. -/
noncomputable def framesFreed (pgtbl limit : Nat) (s s' : Machine) : Nat :=
  {c | HeapFrame s pgtbl limit c ∧ FreePage s' c}.ncard

/-- The byte at the user address `va`. -/
def userByte (s : Machine) (pgtbl va : Nat) : Option UInt8 :=
  (translate s pgtbl va).map fun p => s.mem (p.1 + va % PGSIZE)

/-- What a call does to the frames of the heap and to the bytes below it. -/
structure HeapStep (pgtbl limit : Nat) (s : Machine) (top : Nat) (s' : Machine) (top' : Nat) : Prop where
  count : (framesAllocated pgtbl limit s s' : Int) - framesFreed pgtbl limit s s' = pagesFor top' - pagesFor top
  bytes : ∀ va, va < top → va < top' → userByte s' pgtbl va = userByte s pgtbl va

theorem freePage_iff {c : Nat} (h : FreeList s false l) : FreePage s c ↔ c ∈ l := by
  constructor
  · rintro ⟨l', hl', hc⟩
    rwa [Chain.unique h.chain hl'.chain (fun n hn => (h.page n hn).1) fun n hn => (hl'.page n hn).1]
  · exact fun hc => ⟨l, h, hc⟩

theorem userByte_congr {va : Nat} (h : PageTable s.mem tab) (hr : tab 2 0 = some r)
    (h' : PageTable s'.mem tab') (hr' : tab' 2 0 = some r) (hva : va < VA_MAX)
    (hleaf : leafAt s'.mem tab' (va / PGSIZE) = leafAt s.mem tab (va / PGSIZE))
    (hmem : Mapped s.mem tab (va / PGSIZE) →
      ∀ a, a / PGSIZE = frameOf s.mem tab (va / PGSIZE) → s'.mem a = s.mem a) :
    userByte s' (PGSIZE * r) va = userByte s (PGSIZE * r) va := by
  have htr : translate s' (PGSIZE * r) va = translate s (PGSIZE * r) va := by
    rw [Mem.translate, Mem.translate, getpteValue_eq h' hr' hva, getpteValue_eq h hr hva, hleaf]
  rw [userByte, userByte, htr]
  cases hc : translate s (PGSIZE * r) va with
  | none => rfl
  | some p =>
    obtain ⟨hm, hpa, -⟩ := (translate_some h hr hva).mp hc
    refine congrArg some (hmem hm _ ?_)
    rw [← hpa]
    simp only [PGSIZE]; omega

namespace Heap

variable {k c lo hi : Nat}

theorem frame_iff (h : Heap sh s tab l r k top) : HeapFrame s (PGSIZE * r) (PGSIZE * k) c ↔
    ∃ w, 2 ≤ w ∧ w < pagesFor top ∧ frameOf s.mem tab w = c := by
  have hlim := h.limit
  have hle := h.pages_le
  have hiff := (heapMapped_iff h.frames.table h.root h.limit h.topLe).mp h.mapped
  constructor
  · rintro ⟨va, f, h2, hva, htr⟩
    obtain ⟨hm, hpa, -⟩ := (translate_some h.frames.table h.root (by omega)).mp htr
    have h2' : 2 ≤ va / PGSIZE := by simp only [PGSIZE] at *; omega
    exact ⟨va / PGSIZE, h2', (hiff _ h2' (by simp only [PGSIZE] at *; omega)).mp hm,
      Nat.eq_of_mul_eq_mul_left (by decide) hpa⟩
  · rintro ⟨w, h2, hw, rfl⟩
    have hdiv : PGSIZE * w / PGSIZE = w := Nat.mul_div_cancel_left _ (by decide)
    refine ⟨PGSIZE * w, _, by simp only [PGSIZE]; omega, by simp only [PGSIZE]; omega,
      (translate_some h.frames.table h.root (by simp only [PGSIZE] at *; omega)).mpr
        ⟨?_, by rw [hdiv], rfl⟩⟩
    rw [hdiv]
    exact (h.page h2 hw).2.1

theorem frame_not_free (h : Heap sh s tab l r k top) (h2 : 2 ≤ w) (hw : w < pagesFor top) :
    frameOf s.mem tab w ∉ l :=
  (h.frames.frame (h.page h2 hw).1 (h.page h2 hw).2.1).1

theorem ncard_frames (h : Heap sh s tab l r k top) (hlo : 2 ≤ lo) (hhi : hi ≤ pagesFor top) :
    {c | ∃ w, lo ≤ w ∧ w < hi ∧ frameOf s.mem tab w = c}.ncard = hi - lo := by
  have himage : {c | ∃ w, lo ≤ w ∧ w < hi ∧ frameOf s.mem tab w = c} =
      Set.image (frameOf s.mem tab) (Finset.Ico lo hi : Finset Nat) := by
    ext c; simp [and_assoc]
  rw [himage, Set.InjOn.ncard_image, Set.ncard_coe_finset, Nat.card_Ico]
  intro v hv w hw heq
  rw [Finset.coe_Ico, Set.mem_Ico] at hv hw
  obtain ⟨hsv, hmv, -⟩ := h.page (w := v) (by omega) (by omega)
  obtain ⟨hsw, hmw, -⟩ := h.page (w := w) (by omega) (by omega)
  exact h.frames.distinct hsv hsw hmv hmw heq

theorem step_grow (h : Heap sh s tab l r k top) (h2 : 2 * PGSIZE ≤ top)
    (g : Grown sh s tab l (pagesFor top) (growPages top len) new s' tab' l')
    (h' : Heap sh s' tab' l' r k (top + len)) :
    HeapStep (PGSIZE * r) (PGSIZE * k) s top s' (top + len) := by
  have hle := pagesFor_mono (Nat.le_add_right top len)
  have hlow : 2 ≤ pagesFor top := by simp only [pagesFor, PGSIZE] at *; omega
  have halloc : {c | FreePage s c ∧ HeapFrame s' (PGSIZE * r) (PGSIZE * k) c} =
      {c | ∃ w, pagesFor top ≤ w ∧ w < pagesFor (top + len) ∧ frameOf s'.mem tab' w = c} := by
    ext c
    rw [Set.mem_ofPred_eq, Set.mem_ofPred_eq, freePage_iff h.frames.list, h'.frame_iff]
    constructor
    · rintro ⟨hc, w, hw2, hw, rfl⟩
      refine ⟨w, ?_, hw, rfl⟩
      by_contra hlt
      rw [frameOf, g.other w (by omega)] at hc
      exact h.frame_not_free hw2 (by omega) hc
    · rintro ⟨w, h1, hw, rfl⟩
      exact ⟨(g.here w h1 (by unfold growPages; omega)).2.2, w, by omega, hw, rfl⟩
  have hfreed : {c | HeapFrame s (PGSIZE * r) (PGSIZE * k) c ∧ FreePage s' c} = ∅ := by
    refine Set.eq_empty_of_forall_notMem ?_
    rintro c ⟨hc, hfree⟩
    obtain ⟨w, hw2, hw, rfl⟩ := h.frame_iff.mp hc
    exact h.frame_not_free hw2 hw (g.sub ((freePage_iff h'.frames.list).mp hfree))
  refine ⟨?_, fun va hva _ => ?_⟩
  · rw [framesAllocated, framesFreed, halloc, hfreed, h'.ncard_frames hlow (Nat.le_refl _), Set.ncard_empty]
    omega
  · have hpage : va / PGSIZE < pagesFor top := by simp only [pagesFor, PGSIZE] at *; omega
    refine userByte_congr h.frames.table h.root h'.frames.table h'.root
      (Nat.lt_of_lt_of_le hva h.top_le) (g.other _ (by omega)) fun hm a ha => ?_
    obtain ⟨hl, ht⟩ := h.frames.frame (h.own _ (Nat.lt_of_lt_of_le hpage h.pages_le)) hm
    exact g.mem a (by rwa [ha]) (by rwa [ha])

theorem step_ungrow (h : Heap sh s tab l r k top) (hlen : 2 * PGSIZE + len ≤ top)
    (d : Detaches sh s tab l true (pagesFor (top - len)) (ungrowPages top len) s')
    (h' : Heap sh s' tab (backList s.mem tab true (pagesFor (top - len)) (ungrowPages top len) l) r k
      (top - len)) :
    HeapStep (PGSIZE * r) (PGSIZE * k) s top s' (top - len) := by
  have hle := pagesFor_mono (Nat.sub_le top len)
  have hlow : 2 ≤ pagesFor (top - len) := by simp only [pagesFor, PGSIZE] at *; omega
  have halloc : {c | FreePage s c ∧ HeapFrame s' (PGSIZE * r) (PGSIZE * k) c} = ∅ := by
    refine Set.eq_empty_of_forall_notMem ?_
    rintro c ⟨hfree, hc⟩
    obtain ⟨w, hw2, hw, rfl⟩ := h'.frame_iff.mp hc
    rw [freePage_iff h.frames.list, d.unmaps.frameOf_eq (by omega)] at hfree
    exact h.frame_not_free hw2 (by omega) hfree
  have hfreed : {c | HeapFrame s (PGSIZE * r) (PGSIZE * k) c ∧ FreePage s' c} =
      {c | ∃ w, pagesFor (top - len) ≤ w ∧ w < pagesFor top ∧ frameOf s.mem tab w = c} := by
    ext c
    rw [Set.mem_ofPred_eq, Set.mem_ofPred_eq, freePage_iff h'.frames.list, h.frame_iff, mem_backList]
    constructor
    · rintro ⟨⟨w, hw2, hw, rfl⟩, hl | ⟨-, i, hi, hc⟩⟩
      · exact absurd hl (h.frame_not_free hw2 hw)
      · unfold ungrowPages at hi
        exact ⟨_, Nat.le_add_right _ i, by omega, hc⟩
    · rintro ⟨w, h1, hw, rfl⟩
      refine ⟨⟨w, by omega, hw, rfl⟩, .inr ⟨rfl, w - pagesFor (top - len), ?_, ?_⟩⟩
      · unfold ungrowPages; omega
      · rw [Nat.add_sub_cancel' h1]
  refine ⟨?_, fun va _ hva => ?_⟩
  · rw [framesAllocated, framesFreed, halloc, hfreed, h.ncard_frames hlow (Nat.le_refl _), Set.ncard_empty]
    omega
  · have hpage : va / PGSIZE < pagesFor (top - len) := by simp only [pagesFor, PGSIZE] at *; omega
    have hsh := h.own (va / PGSIZE) (Nat.lt_of_lt_of_le hpage (Nat.le_trans hle h.pages_le))
    refine userByte_congr h.frames.table h.root h'.frames.table h'.root
      (Nat.lt_of_lt_of_le hva h'.top_le) (by rw [d.unmaps.leaf, if_neg (by omega)]) fun hm a ha => ?_
    refine d.mem a (by rw [ha]; exact (h.frames.frame hsh hm).2) fun _ i hi heq => ?_
    unfold ungrowPages at hi
    obtain ⟨hsi, hmi, -⟩ := h.page (w := pagesFor (top - len) + i) (by omega) (by omega)
    have := h.frames.distinct hsh hsi hm hmi (ha.symm.trans heq)
    omega

/-- A call returns the top it was asked for and keeps the heap, or it is a growth that finds no free
page. -/
theorem call (h : Heap sh s tab l r k top) (h2 : 2 * PGSIZE ≤ top) (c : HeapCall)
    (hok : c.Ok (PGSIZE * k) top) :
    (∃ s' tab' l', c.run (PGSIZE * r) top s = .ok (c.next top) s' ∧ Heap sh s' tab' l' r k (c.next top) ∧
      2 * PGSIZE ≤ c.next top ∧ HeapStep (PGSIZE * r) (PGSIZE * k) s top s' (c.next top)) ∨
    (∃ n msg s', c = .grow n ∧ c.run (PGSIZE * r) top s = .error (.panic msg) s' ∧ outOfMemory msg) := by
  cases c with
  | grow len =>
    rcases h.grow len hok with ⟨new, s', tab', l', hrun, g, h'⟩ | ⟨msg, s', hrun, hmsg⟩
    · exact .inl ⟨s', tab', l', hrun, h', Nat.le_trans h2 (Nat.le_add_right ..), h.step_grow h2 g h'⟩
    · exact .inr ⟨len, msg, s', rfl, hrun, hmsg⟩
  | ungrow len =>
    obtain ⟨s', hrun, d, h'⟩ := h.ungrow len hok
    exact .inl ⟨s', tab, _, hrun, h', Nat.le_sub_of_add_le hok, h.step_ungrow hok d h'⟩

end Heap

/-- Calls that return, one after the other, from the state `s` and the top `top`: the state and the top
reached, the lowest top on the way, and the leaf frames allocated less those freed. -/
inductive HeapRun (pgtbl limit : Nat) (s : Machine) (top : Nat) : Machine → Nat → Nat → Int → Prop where
  | start : HeapRun pgtbl limit s top s top top 0
  | call {s1 s2 : Machine} {top1 top2 low : Nat} {net : Int} (c : HeapCall) :
      HeapRun pgtbl limit s top s1 top1 low net → c.Ok limit top1 →
      c.run pgtbl top1 s1 = .ok top2 s2 →
      HeapRun pgtbl limit s top s2 top2 (min low top2)
        (net + (framesAllocated pgtbl limit s1 s2 - framesFreed pgtbl limit s1 s2))

/-- The heap after calls from `s0` and `top0`. -/
structure HeapTight (pgtbl limit : Nat) (s0 : Machine) (top0 : Nat) (s : Machine) (top low : Nat)
    (net : Int) : Prop where
  mapped : HeapMapped s pgtbl limit top
  /-- The next call maps no page that is mapped, and no two pages have one frame. -/
  unmapped : ∀ len, top + len ≤ limit → ∀ va, pgRoundUp top ≤ va → va < pgRoundUp (top + len) →
    translate s pgtbl va = none
  distinct : ∀ va vb pa f g, va < limit → vb < limit → translate s pgtbl va = some (pa, f) →
    translate s pgtbl vb = some (pa, g) → va / PGSIZE = vb / PGSIZE
  /-- Nothing but a lack of free pages stops the next call. -/
  next : ∀ c : HeapCall, c.Ok limit top → (∃ s', c.run pgtbl top s = .ok (c.next top) s') ∨
    ∃ n msg s', c = .grow n ∧ c.run pgtbl top s = .error (.panic msg) s' ∧ outOfMemory msg
  bytes : ∀ va, va < low → userByte s pgtbl va = userByte s0 pgtbl va
  count : net = (pgRoundUp top / PGSIZE : Nat) - (pgRoundUp top0 / PGSIZE : Nat)

section

variable {k low : Nat} {s0 : Machine} {top0 : Nat} {net : Int}

theorem HeapRun.heap {tab0 : Nat → Nat → Option Nat} {l0 : List Nat} (h : Heap sh s0 tab0 l0 r k top0)
    (h2 : 2 * PGSIZE ≤ top0) (hrun : HeapRun (PGSIZE * r) (PGSIZE * k) s0 top0 s top low net) :
    (∃ tab l, Heap sh s tab l r k top) ∧ 2 * PGSIZE ≤ top ∧ low ≤ top ∧
      (∀ va, va < low → userByte s (PGSIZE * r) va = userByte s0 (PGSIZE * r) va) ∧
      net = pagesFor top - pagesFor top0 := by
  induction hrun with
  | start => exact ⟨⟨tab0, l0, h⟩, h2, Nat.le_refl _, fun _ _ => rfl, by omega⟩
  | call c _ hok hc ih =>
    obtain ⟨⟨tab, l, hs⟩, htop, hlow, hbytes, hnet⟩ := ih
    rcases hs.call htop c hok with ⟨s', tab', l', hrun, h', htop', hstep⟩ | ⟨_, _, _, -, hrun, -⟩ <;>
      rw [hrun] at hc <;> cases hc
    refine ⟨⟨tab', l', h'⟩, htop', Nat.min_le_right .., fun va hva => ?_, ?_⟩
    · rw [hstep.bytes va (by omega) (by omega), hbytes va (by omega)]
    · rw [hstep.count, hnet]; omega

/-- Any calls of `uvm_heap_grow` and `uvm_heap_ungrow` keep the heap tight. -/
theorem heap_tight {tab0 : Nat → Nat → Option Nat} {l0 : List Nat} (h : Heap sh s0 tab0 l0 r k top0)
    (h2 : 2 * PGSIZE ≤ top0) (hrun : HeapRun (PGSIZE * r) (PGSIZE * k) s0 top0 s top low net) :
    HeapTight (PGSIZE * r) (PGSIZE * k) s0 top0 s top low net := by
  obtain ⟨⟨tab, l, hs⟩, htop, -, hbytes, hnet⟩ := hrun.heap h h2
  refine ⟨hs.mapped, fun len hlen va h1 hva => ?_, fun va vb pa f g ha hb hta htb => ?_,
    fun c hok => ?_, hbytes, ?_⟩
  · have hle : pgRoundUp (top + len) ≤ PGSIZE * k := by
      rw [pgRoundUp_pages (Nat.le_trans hlen hs.limit)]
      exact Nat.mul_le_mul_left _ (pagesFor_le_iff.mpr hlen)
    have hva2 : 2 * PGSIZE ≤ va := by
      rw [pgRoundUp_pages hs.top_le] at h1
      simp only [pagesFor, PGSIZE] at *; omega
    have := hs.mapped va hva2 (by omega)
    by_contra hne
    have := this.mp hne
    omega
  · have hlim := hs.limit
    obtain ⟨hma, hpa, -⟩ := (translate_some hs.frames.table hs.root (by omega)).mp hta
    obtain ⟨hmb, hpb, -⟩ := (translate_some hs.frames.table hs.root (by omega)).mp htb
    exact hs.frames.distinct (hs.own _ (by simp only [PGSIZE] at *; omega))
      (hs.own _ (by simp only [PGSIZE] at *; omega)) hma hmb
      (Nat.eq_of_mul_eq_mul_left (by decide) (hpa.trans hpb.symm))
  · rcases hs.call htop c hok with ⟨s', _, _, hrun, -⟩ | hpanic
    · exact .inl ⟨s', hrun⟩
    · exact .inr hpanic
  · rw [hnet, pgRoundUp_pages hs.top_le, pgRoundUp_pages h.top_le,
      Nat.mul_div_cancel_left _ (by decide), Nat.mul_div_cancel_left _ (by decide)]

end

theorem heap_root (sh : Nat → Prop) (k : Nat) (hl : FreeList s false (r :: l))
    (hu : ∀ n ∈ r :: l, InUser s n)
    (hk : PGSIZE * k ≤ VA_MAX) (h2 : 2 ≤ k) (hsh : ∀ v, v < k → ¬ sh v) :
    ∃ tab, Heap sh (taken s false r) tab l r k (2 * PGSIZE) := by
  obtain ⟨tab, hf, hr, -, hz⟩ := frames_root sh hl hu
  have htop : 2 * PGSIZE ≤ PGSIZE * k := by simp only [PGSIZE]; omega
  have hno : ∀ w, ¬ Mapped (taken s false r).mem tab w := fun w => not_mapped_of_zero (hz w)
  refine ⟨tab, hf, hr, hk, hsh, htop, (heapMapped_iff hf.table hr hk htop).mpr fun w hw _ => ?_,
    fun va pa f _ hva htr => ?_⟩
  · refine ⟨fun hm => absurd hm (hno w), fun hlt => ?_⟩
    simp only [pagesFor, PGSIZE] at hlt; omega
  · have : va < VA_MAX := Nat.lt_trans hva (by decide)
    exact absurd ((translate_some hf.table hr this).mp htr).1 (hno _)

def fourPages : Machine :=
  { emptyRoot with
    mem := Bytes.store 8 (Bytes.store 8 (Bytes.store 8 (fun _ => 0) (PGSIZE * 1) (PGSIZE * 2))
      (PGSIZE * 2) (PGSIZE * 3)) (PGSIZE * 3) (PGSIZE * 4)
    user := ⟨PGSIZE, PGSIZE * 5, 4, PGSIZE * 1⟩ }

theorem freeList_fourPages : FreeList fourPages false [1, 2, 3, 4] :=
  ⟨⟨rfl, by decide +kernel, by decide +kernel, by decide +kernel,
    show Bytes.load 8 _ _ = 0 by decide +kernel⟩, by decide, by decide, by decide⟩

theorem inUser_fourPages : ∀ n ∈ [1, 2, 3, 4], InUser fourPages n := by
  intro n hn
  simp only [List.mem_cons, List.not_mem_nil, or_false] at hn
  rcases hn with rfl | rfl | rfl | rfl <;> unfold InUser <;> decide

/-- A page is taken, given back and taken again. -/
theorem heap_tight_again : ∃ s1 s2 s3 low net,
    uvmHeapGrow (PGSIZE * 1) (2 * PGSIZE) 100 (taken fourPages false 1) =
      .ok (2 * PGSIZE + 100) s1 ∧
    uvmHeapUngrow (PGSIZE * 1) (2 * PGSIZE + 100) 100 s1 = .ok (2 * PGSIZE) s2 ∧
    uvmHeapGrow (PGSIZE * 1) (2 * PGSIZE) 5 s2 = .ok (2 * PGSIZE + 5) s3 ∧
    HeapTight (PGSIZE * 1) (PGSIZE * 3) (taken fourPages false 1) (2 * PGSIZE) s3 (2 * PGSIZE + 5)
      low net := by
  obtain ⟨tab, h⟩ := heap_root (fun _ => False) 3 freeList_fourPages inUser_fourPages
    (by decide) (by decide) fun _ _ => id
  obtain ⟨tops, s3, hrun, htops⟩ := exists_of_returns
    (p := fun tops => decide (tops = [2 * PGSIZE + 100, 2 * PGSIZE, 2 * PGSIZE + 5]))
    (r := (do
      let top1 ← uvmHeapGrow (PGSIZE * 1) (2 * PGSIZE) 100
      let top2 ← uvmHeapUngrow (PGSIZE * 1) top1 100
      let top3 ← uvmHeapGrow (PGSIZE * 1) top2 5
      return [top1, top2, top3]) (taken fourPages false 1)) (by decide +kernel)
  obtain ⟨top1, s1, h1, hrun⟩ := bind_ok.mp hrun
  obtain ⟨top2, s2, h2, hrun⟩ := bind_ok.mp hrun
  obtain ⟨top3, s3', h3, hrun⟩ := bind_ok.mp hrun
  cases hrun
  have htops := of_decide_eq_true htops
  simp only [List.cons.injEq, and_true] at htops
  obtain ⟨rfl, rfl, rfl⟩ := htops
  exact ⟨s1, s2, s3, _, _, h1, h2, h3, heap_tight h (by decide)
    (.call (.grow 5) (.call (.ungrow 100) (.call (.grow 100) .start
      (show 2 * PGSIZE + 100 ≤ PGSIZE * 3 by decide) h1) (show _ ≤ _ by decide) h2)
      (show 2 * PGSIZE + 5 ≤ PGSIZE * 3 by decide) h3)⟩

end Proc
end WhuOS
