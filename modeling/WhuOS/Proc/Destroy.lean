import WhuOS.Mem.Copy
import WhuOS.Mem.Frames
import WhuOS.Proc.Model

/-!
# WhuOS.Proc.Destroy

`uvm_destroy_pgtbl` on the page tables that `proc_pgtbl_init`, `vm_mappages` and `vm_unmappages`
build. Every call of `pmem_free` puts its page at the head of the free list and nothing else that
runs here touches the list, so the pages that are in front of the old list are the calls, the last
one first.

* `reach`                — the pages that `destroy_pgtbl` frees, in its order.
* `destroyPgtbl_spec`    — it frees them, if they are all different.
* `Frames.nodup_reach`   — they are, if the leaves have frames of their own.
* `destroy_exact`        — what `uvm_destroy_pgtbl` frees.
-/

namespace WhuOS
namespace Proc

open Lib Kern Mem

variable {s s' s'' : Machine} {tab : Nat → Nat → Option Nat} {l : List Nat} {m m' : Bytes}
  {j k v w n r : Nat}

/-! ## Freeing pages -/

/-- `pmem_free` was called for the pages `ks`, in this order. -/
structure Freed (s : Machine) (l ks : List Nat) (s' : Machine) : Prop where
  list : FreeList s' false (ks.reverse ++ l)
  mem : ∀ a, a / PGSIZE ∉ ks → s'.mem a = s.mem a
  region : s'.user.beginAddr = s.user.beginAddr ∧ s'.user.endAddr = s.user.endAddr

/-- The pages `ks` can be freed one after the other. -/
structure CanFree (s : Machine) (l ks : List Nat) : Prop where
  list : FreeList s false l
  nodup : (ks ++ l).Nodup
  user : ∀ k ∈ ks, InUser s k ∧ PGSIZE * k < 2 ^ 64

variable {ks ks' : List Nat} {sub : Nat → List Nat} {pte i u : Nat} {sh : Nat → Prop}

theorem Freed.trans (h : Freed s l ks s') (h' : Freed s' (ks.reverse ++ l) ks' s'') :
    Freed s l (ks ++ ks') s'' := by
  refine ⟨?_, fun a ha => ?_, h'.region.1.trans h.region.1, h'.region.2.trans h.region.2⟩
  · have := h'.list
    rwa [List.reverse_append, List.append_assoc]
  · rw [List.mem_append, not_or] at ha
    rw [h'.mem a ha.2, h.mem a ha.1]

theorem CanFree.left (h : CanFree s l (ks ++ ks')) : CanFree s l ks := by
  refine ⟨h.list, ?_, fun k hk => h.user k (List.mem_append_left _ hk)⟩
  have := h.nodup
  rw [List.append_assoc] at this
  exact this.sublist ((List.sublist_append_right ks' l).append_left ks)

theorem CanFree.right (h : CanFree s l (ks ++ ks')) (hf : Freed s l ks s') :
    CanFree s' (ks.reverse ++ l) ks' := by
  refine ⟨hf.list, ?_, fun k hk => ?_⟩
  · refine (List.Perm.nodup_iff ?_).mp h.nodup
    rw [← List.append_assoc]
    refine List.Perm.append_right l ?_
    exact List.perm_append_comm.trans ((List.reverse_perm ks).symm.append_left ks')
  · obtain ⟨hu, hlt⟩ := h.user k (List.mem_append_right _ hk)
    refine ⟨?_, hlt⟩
    rw [InUser, hf.region.1, hf.region.2]
    exact hu

theorem pmemFree_spec (h : CanFree s l [k]) :
    ∃ s', pmemFree (PGSIZE * k) false s = .ok () s' ∧ Freed s l [k] s' := by
  obtain ⟨⟨hpos, hlo, hhi⟩, hlt⟩ := h.user k (by simp)
  have hk : k ∉ l := (List.nodup_cons.mp h.nodup).1
  exact ⟨_, pmemFree_eq ⟨hlo, hhi⟩, h.list.given hk hpos hlt,
    fun a ha => given_outside (by simpa using ha), rfl, rfl⟩

/-! ## `destroy_pgtbl` -/

/-- The pages below an entry of a table of level `j`, where `sub` are those of a table below. -/
def below (j : Nat) (sub : Nat → List Nat) (pte : Nat) : List Nat :=
  if pteHas pte PTE_V then
    if j ≠ 0 ∧ pteCheck pte = true then sub (pteToPa pte / PGSIZE) else [pteToPa pte / PGSIZE]
  else []

theorem below_invalid (h : ¬ pteHas pte PTE_V = true) :
    below j sub pte = [] := if_neg h

theorem below_leaf (h : pteHas pte PTE_V = true)
    (hj : j = 0 ∨ ¬ pteCheck pte = true) : below j sub pte = [pteToPa pte / PGSIZE] := by
  rw [below, if_pos h, if_neg (by tauto)]

theorem below_table (h : pteHas pte PTE_V = true)
    (hC : pteCheck pte = true) : below (j + 1) sub pte = sub (pteToPa pte / PGSIZE) := by
  rw [below, if_pos h, if_pos ⟨Nat.succ_ne_zero j, hC⟩]

/-- The pages that `destroy_pgtbl` frees for the table in page `n`. -/
def reach (m : Bytes) : Nat → Nat → List Nat
  | 0, n => ((List.range 512).flatMap fun i => below 0 (fun _ => []) (entry m n i)) ++ [n]
  | j + 1, n => ((List.range 512).flatMap fun i => below (j + 1) (reach m j) (entry m n i)) ++ [n]

theorem mem_reach_self (m : Bytes) (j n : Nat) : n ∈ reach m j n := by
  cases j <;> simp [reach]

theorem reach_congr : ∀ {j n : Nat}, (∀ a, a / PGSIZE ∈ reach m j n → m' a = m a) →
    reach m' j n = reach m j n := by
  intro j
  induction j with
  | zero =>
    intro n h
    have hentry : ∀ i, i < 512 → entry m' n i = entry m n i := fun i hi =>
      entry_congr hi fun a ha => h a (by rw [ha]; exact mem_reach_self m 0 n)
    rw [reach, reach]
    refine congrArg (· ++ [n]) (List.flatMap_congr fun i hi => ?_)
    rw [hentry i (List.mem_range.mp hi)]
  | succ j ih =>
    intro n h
    have hentry : ∀ i, i < 512 → entry m' n i = entry m n i := fun i hi =>
      entry_congr hi fun a ha => h a (by rw [ha]; exact mem_reach_self m (j + 1) n)
    rw [reach, reach]
    refine congrArg (· ++ [n]) (List.flatMap_congr fun i hi => ?_)
    have hi' := List.mem_range.mp hi
    rw [hentry i hi']
    by_cases hV : pteHas (entry m n i) PTE_V = true
    · by_cases hC : pteCheck (entry m n i) = true
      · rw [below_table hV hC, below_table hV hC]
        refine ih fun a ha => h a ?_
        rw [reach, List.mem_append, List.mem_flatMap]
        exact .inl ⟨i, hi, by rwa [below_table hV hC]⟩
      · rw [below_leaf hV (.inr hC), below_leaf hV (.inr hC)]
    · rw [below_invalid hV, below_invalid hV]

/-- A loop that frees the pages `P i` in pass `i`. What is still to be freed is as it was in `m`. -/
theorem freeLoop_spec {body : Nat → MemM Unit} {P : Nat → List Nat}
    (hbody : ∀ {i s l}, i < 512 → (∀ a, a / PGSIZE ∈ P i ∨ a / PGSIZE = n → s.mem a = m a) →
      CanFree s l (P i) → ∃ s', body i s = .ok () s' ∧ Freed s l (P i) s') :
    ∀ (c i : Nat) {s : Machine} {l : List Nat}, i + c ≤ 512 →
      (∀ a, a / PGSIZE ∈ (List.range' i c).flatMap P ++ [n] → s.mem a = m a) →
      CanFree s l ((List.range' i c).flatMap P ++ [n]) →
      ∃ s', Kern.forFrom body i c s = .ok () s' ∧ Freed s l ((List.range' i c).flatMap P) s' := by
  intro c
  induction c with
  | zero =>
    intro i s l _ _ h
    exact ⟨s, rfl, h.list, fun _ _ => rfl, rfl, rfl⟩
  | succ c ih =>
    intro i s l hi hm h
    rw [List.range'_succ, List.flatMap_cons, List.append_assoc] at hm h
    obtain ⟨s1, hrun1, f1⟩ := hbody (by omega) (fun a ha => hm a (by
      rw [List.mem_append, List.mem_append, List.mem_singleton]
      exact ha.imp id .inr)) h.left
    have hrest : ∀ a, a / PGSIZE ∈ (List.range' (i + 1) c).flatMap P ++ [n] → s1.mem a = m a := by
      intro a ha
      -- it is none of the pages just freed
      have hno : a / PGSIZE ∉ P i := fun hp => by
        have := h.nodup
        rw [List.append_assoc, List.nodup_append] at this
        exact this.2.2 _ hp _ (List.mem_append_left _ ha) rfl
      rw [f1.mem a hno]
      exact hm a (List.mem_append_right _ ha)
    obtain ⟨s2, hrun2, f2⟩ := ih (i + 1) (by omega) hrest (h.right f1)
    refine ⟨s2, ?_, ?_⟩
    · rw [Kern.forFrom, bind_of_ok hrun1]; exact hrun2
    · rw [List.range'_succ, List.flatMap_cons]; exact f1.trans f2

theorem freeTable_spec {body : Nat → MemM Unit} {P : Nat → List Nat}
    (hbody : ∀ {i s1 l}, i < 512 → (∀ a, a / PGSIZE ∈ P i ∨ a / PGSIZE = n → s1.mem a = s.mem a) →
      CanFree s1 l (P i) → ∃ s', body i s1 = .ok () s' ∧ Freed s1 l (P i) s')
    (h : CanFree s l ((List.range 512).flatMap P ++ [n])) :
    ∃ s', (do Kern.forFrom body 0 512; pmemFree (PGSIZE * n) false : MemM Unit) s = .ok () s' ∧
      Freed s l ((List.range 512).flatMap P ++ [n]) s' := by
  have hrange : List.range 512 = List.range' 0 512 := List.range_eq_range'
  rw [hrange] at h ⊢
  obtain ⟨s1, hrun1, f1⟩ := freeLoop_spec (m := s.mem) hbody 512 0 (Nat.le_refl _) (fun _ _ => rfl) h
  obtain ⟨s2, hrun2, f2⟩ := pmemFree_spec (h.right f1)
  exact ⟨s2, by rw [bind_of_ok hrun1]; exact hrun2, f1.trans f2⟩

theorem destroyPgtbl_spec : ∀ {j n : Nat} {s : Machine} {l : List Nat}, CanFree s l (reach s.mem j n) →
    ∃ s', destroyPgtbl j (PGSIZE * n) s = .ok () s' ∧ Freed s l (reach s.mem j n) s' := by
  intro j
  induction j with
  | zero =>
    intro n s l h
    rw [reach] at h ⊢
    rw [destroyPgtbl]
    refine freeTable_spec (fun {i s1 l1} hi hm hc => ?_) h
    have he : Bytes.load 8 s1.mem (PGSIZE * n + 8 * i) = entry s.mem n i :=
      entry_congr hi fun a ha => hm a (.inr ha)
    rw [bind_of_ok (load64_run ..), he]
    by_cases hV : pteHas (entry s.mem n i) PTE_V = true
    · rw [below_leaf hV (.inl rfl)] at hc ⊢
      have hrun := pmemFree_spec hc
      rw [pteToPa_aligned] at hrun
      rwa [if_pos hV]
    · rw [below_invalid hV] at hc ⊢
      rw [if_neg hV]
      exact ⟨s1, rfl, hc.list, fun _ _ => rfl, rfl, rfl⟩
  | succ j ih =>
    intro n s l h
    rw [reach] at h ⊢
    rw [destroyPgtbl]
    refine freeTable_spec (fun {i s1 l1} hi hm hc => ?_) h
    have he : Bytes.load 8 s1.mem (PGSIZE * n + 8 * i) = entry s.mem n i :=
      entry_congr hi fun a ha => hm a (.inr ha)
    rw [bind_of_ok (load64_run ..), he]
    by_cases hV : pteHas (entry s.mem n i) PTE_V = true
    · by_cases hC : pteCheck (entry s.mem n i) = true
      · rw [below_table hV hC] at hc hm ⊢
        rw [← reach_congr fun a ha => hm a (.inl ha)] at hc ⊢
        have hrun := ih hc
        rw [pteToPa_aligned] at hrun
        rwa [if_pos hV, if_pos hC]
      · rw [below_leaf hV (.inr hC)] at hc ⊢
        have hrun := pmemFree_spec hc
        rw [pteToPa_aligned] at hrun
        rwa [if_pos hV, if_neg hC]
    · rw [below_invalid hV] at hc ⊢
      rw [if_neg hV]
      exact ⟨s1, rfl, hc.list, fun _ _ => rfl, rfl, rfl⟩

/-! ## What is reached -/

/-- The page `k` is a table at or below table `v` of level `j`, or the frame of a page below it. -/
def Within (m : Bytes) (tab : Nat → Nat → Option Nat) (j v k : Nat) : Prop :=
  (∃ i u, i ≤ j ∧ u / 512 ^ (j - i) = v ∧ tab i u = some k) ∨
    ∃ w, w / 512 ^ (j + 1) = v ∧ Mapped m tab w ∧ frameOf m tab w = k

theorem div_pow_succ (a d : Nat) : a / 512 ^ (d + 1) = a / 512 ^ d / 512 := by
  rw [Nat.pow_succ, Nat.div_div_eq_div_mul]

theorem ancestor (h : PageTable m tab) (hk : tab i u = some k) : ∀ d, i + d ≤ 2 →
    ∃ n, tab (i + d) (u / 512 ^ d) = some n := by
  intro d
  induction d with
  | zero => intro _; exact ⟨k, by simpa using hk⟩
  | succ d ih =>
    intro hd
    obtain ⟨n, hn⟩ := ih (by omega)
    obtain ⟨n', hn'⟩ := h.parent hn (by omega)
    exact ⟨n', by rw [div_pow_succ]; exact hn'⟩

theorem table_of_mapped (hm : Mapped m tab w) : ∃ n, tab 0 (w / 512) = some n := by
  cases hk : tab 0 (w / 512) with
  | some n => exact ⟨n, rfl⟩
  | none =>
    refine absurd hm (not_mapped_of_zero ?_)
    rw [leafAt, hk]

theorem level_le (h : PageTable m tab) (hn : tab j v = some n) : j ≤ 2 := by
  have := h.place hn
  unfold IsPlace at this
  omega

theorem within_succ (h : PageTable m tab) (hn : tab (j + 1) v = some n) :
    Within m tab (j + 1) v k ↔ k = n ∨ ∃ i, i < 512 ∧ ∃ c, tab j (512 * v + i) = some c ∧
      Within m tab j (512 * v + i) k := by
  have hj := level_le h hn
  have hsplit : ∀ a d, a / 512 ^ (d + 1) = v → a / 512 ^ d = 512 * v + a / 512 ^ d % 512 := by
    intro a d ha
    rw [div_pow_succ] at ha
    have := Nat.div_add_mod (a / 512 ^ d) 512
    omega
  constructor
  · rintro (⟨i, u, hi, hu, hk⟩ | ⟨w, hw, hm, hf⟩)
    · rcases Nat.lt_or_ge j i with hij | hij
      · obtain rfl : i = j + 1 := by omega
        rw [Nat.sub_self, Nat.pow_zero, Nat.div_one] at hu
        subst hu
        rw [hn] at hk
        exact .inl (Option.some.inj hk).symm
      · rw [show j + 1 - i = j - i + 1 by omega] at hu
        have hu' := hsplit u _ hu
        obtain ⟨c, hc⟩ := ancestor h hk (j - i) (by omega)
        rw [show i + (j - i) = j by omega, hu'] at hc
        exact .inr ⟨_, Nat.mod_lt _ (by decide), c, hc, .inl ⟨i, u, hij, hu', hk⟩⟩
    · have hw' := hsplit w (j + 1) hw
      obtain ⟨c0, hc0⟩ := table_of_mapped hm
      obtain ⟨c, hc⟩ := ancestor h hc0 j (by omega)
      rw [Nat.zero_add, Nat.div_div_eq_div_mul, ← Nat.pow_succ', hw'] at hc
      exact .inr ⟨_, Nat.mod_lt _ (by decide), c, hc, .inr ⟨w, hw', hm, hf⟩⟩
  · rintro (rfl | ⟨i, hi, c, -, ⟨i', u, hi', hu, hk⟩ | ⟨w, hw, hm, hf⟩⟩)
    · exact .inl ⟨j + 1, v, Nat.le_refl _, by simp, hn⟩
    · refine .inl ⟨i', u, by omega, ?_, hk⟩
      rw [show j + 1 - i' = j - i' + 1 by omega, div_pow_succ, hu]
      omega
    · refine .inr ⟨w, ?_, hm, hf⟩
      rw [div_pow_succ, hw]
      omega

theorem within_zero (hn : tab 0 v = some n) : Within m tab 0 v k ↔
    k = n ∨ ∃ i, i < 512 ∧ Mapped m tab (512 * v + i) ∧ frameOf m tab (512 * v + i) = k := by
  constructor
  · rintro (⟨i, u, hi, hu, hk⟩ | ⟨w, hw, hm, hf⟩)
    · obtain rfl : i = 0 := by omega
      rw [Nat.sub_self, Nat.pow_zero, Nat.div_one] at hu
      subst hu
      rw [hn] at hk
      exact .inl (Option.some.inj hk).symm
    · rw [Nat.zero_add, Nat.pow_one] at hw
      have hw' : 512 * v + w % 512 = w := by rw [← hw]; exact Nat.div_add_mod w 512
      exact .inr ⟨w % 512, Nat.mod_lt _ (by decide), by rwa [hw'], by rwa [hw']⟩
  · rintro (rfl | ⟨i, hi, hm, hf⟩)
    · exact .inl ⟨0, v, Nat.le_refl _, by simp, hn⟩
    · exact .inr ⟨_, by omega, hm, hf⟩

theorem below_zero_eq (hn : tab 0 v = some n) (hi : i < 512) :
    k ∈ below 0 sub (entry m n i) ↔ Mapped m tab (512 * v + i) ∧ frameOf m tab (512 * v + i) = k := by
  have hleaf : leafAt m tab (512 * v + i) = entry m n i := by
    rw [leafAt, show (512 * v + i) / 512 = v by omega, hn]
    dsimp only
    rw [show (512 * v + i) % 512 = i by omega]
  rw [Mapped, frameOf, hleaf]
  by_cases hV : pteHas (entry m n i) PTE_V = true
  · rw [below_leaf hV (.inl rfl), List.mem_singleton]
    exact ⟨fun h => ⟨hV, h.symm⟩, fun h => h.2.symm⟩
  · rw [below_invalid hV]
    exact ⟨fun h => (List.not_mem_nil h).elim, fun h => absurd h.1 hV⟩

theorem below_succ_eq (h : PageTable m tab) (hn : tab (j + 1) v = some n) (hi : i < 512)
    (sub : Nat → List Nat) : below (j + 1) sub (entry m n i) =
      match tab j (512 * v + i) with
      | some c => sub c
      | none => [] := by
  have hp := h.links hn hi
  cases hc : tab j (512 * v + i) with
  | none =>
    rw [hc] at hp
    exact below_invalid (Bool.eq_false_iff.mp hp)
  | some c =>
    rw [hc] at hp
    rw [below_table hp.1 hp.2.1, hp.2.2, Nat.mul_div_cancel_left _ (by decide)]

theorem mem_reach (h : PageTable m tab) : ∀ {j v n : Nat}, tab j v = some n → ∀ {k},
    k ∈ reach m j n ↔ Within m tab j v k := by
  intro j
  induction j with
  | zero =>
    intro v n hn k
    rw [within_zero hn, reach, List.mem_append, List.mem_flatMap, List.mem_singleton, or_comm]
    refine or_congr_right (exists_congr fun i => ?_)
    rw [List.mem_range]
    exact and_congr_right fun hi => below_zero_eq hn hi
  | succ j ih =>
    intro v n hn k
    rw [within_succ h hn, reach, List.mem_append, List.mem_flatMap, List.mem_singleton, or_comm]
    refine or_congr_right (exists_congr fun i => ?_)
    rw [List.mem_range]
    refine and_congr_right fun hi => ?_
    rw [below_succ_eq h hn hi]
    cases hc : tab j (512 * v + i) with
    | none => exact ⟨fun h => (List.not_mem_nil h).elim, fun ⟨c, h, _⟩ => by cases h⟩
    | some c =>
      dsimp only
      rw [ih hc]
      exact ⟨fun h => ⟨c, rfl, h⟩, fun ⟨_, _, h⟩ => h⟩

theorem Within.unique (h : Frames sh s tab l) (hsh : ∀ v, Mapped s.mem tab v → ¬ sh v)
    (h1 : Within s.mem tab j v k) (h2 : Within s.mem tab j u k) : v = u := by
  rcases h1 with ⟨i, a, -, rfl, ha⟩ | ⟨w, rfl, hm, hf⟩ <;>
    rcases h2 with ⟨i', a', -, rfl, ha'⟩ | ⟨w', rfl, hm', hf'⟩
  · obtain ⟨rfl, rfl⟩ := h.table.inj ha ha'
    rfl
  · exact absurd (hf' ▸ ha) ((h.frame (hsh _ hm') hm').2 i a)
  · exact absurd (hf ▸ ha') ((h.frame (hsh _ hm) hm).2 i' a')
  · rw [h.distinct (hsh _ hm) (hsh _ hm') hm hm' (hf.trans hf'.symm)]

theorem Within.ne_above (h : Frames sh s tab l)
    (hsh : ∀ v, Mapped s.mem tab v → ¬ sh v) (h1 : Within s.mem tab j v k)
    (hn : tab (j + 1) u = some n) : k ≠ n := by
  rintro rfl
  rcases h1 with ⟨i, a, hi, -, ha⟩ | ⟨w, -, hm, hf⟩
  · have := (h.table.inj ha hn).1
    omega
  · exact (h.frame (hsh _ hm) hm).2 _ _ (hf ▸ hn)

theorem Frames.nodup_reach (h : Frames sh s tab l)
    (hsh : ∀ v, Mapped s.mem tab v → ¬ sh v) : ∀ {j v n : Nat}, tab j v = some n →
    (reach s.mem j n).Nodup := by
  intro j
  induction j with
  | zero =>
    intro v n hn
    rw [reach, List.nodup_append, List.nodup_flatMap]
    refine ⟨⟨fun i hi => ?_, ?_⟩, List.nodup_singleton n, fun k hk c hc heq => ?_⟩
    · unfold below
      split <;> simp
    · refine List.nodup_range.imp_of_mem fun {i i'} hi hi' hne k hk hk' => hne ?_
      obtain ⟨hm, hf⟩ := (below_zero_eq hn (List.mem_range.mp hi)).mp hk
      obtain ⟨hm', hf'⟩ := (below_zero_eq hn (List.mem_range.mp hi')).mp hk'
      have := h.distinct (hsh _ hm) (hsh _ hm') hm hm' (hf.trans hf'.symm)
      omega
    · obtain ⟨i, hi, hk⟩ := List.mem_flatMap.mp hk
      obtain ⟨hm, hf⟩ := (below_zero_eq hn (List.mem_range.mp hi)).mp hk
      rw [List.mem_singleton.mp hc] at heq
      exact (h.frame (hsh _ hm) hm).2 0 v (by rw [hf, heq]; exact hn)
  | succ j ih =>
    intro v n hn
    have hin : ∀ {i k}, i < 512 → k ∈ below (j + 1) (reach s.mem j) (entry s.mem n i) →
        Within s.mem tab j (512 * v + i) k := by
      intro i k hi hk
      rw [below_succ_eq h.table hn hi] at hk
      cases hc : tab j (512 * v + i) with
      | none => rw [hc] at hk; exact (List.not_mem_nil hk).elim
      | some c => rw [hc] at hk; exact (mem_reach h.table hc).mp hk
    rw [reach, List.nodup_append, List.nodup_flatMap]
    refine ⟨⟨fun i hi => ?_, ?_⟩, List.nodup_singleton n, fun k hk c hc heq => ?_⟩
    · rw [below_succ_eq h.table hn (List.mem_range.mp hi)]
      cases hc : tab j (512 * v + i) with
      | none => exact List.nodup_nil
      | some c => exact ih hc
    · refine List.nodup_range.imp_of_mem fun {i i'} hi hi' hne k hk hk' => hne ?_
      have := (hin (List.mem_range.mp hi) hk).unique h hsh (hin (List.mem_range.mp hi') hk')
      omega
    · obtain ⟨i, hi, hk⟩ := List.mem_flatMap.mp hk
      rw [List.mem_singleton.mp hc] at heq
      exact (hin (List.mem_range.mp hi) hk).ne_above h hsh hn heq

theorem within_root (h : Frames sh s tab l) :
    Within s.mem tab 2 0 k ↔ (∃ j v, tab j v = some k) ∨ ∃ w, Mapped s.mem tab w ∧ frameOf s.mem tab w = k := by
  refine or_congr ⟨fun ⟨i, u, _, _, hk⟩ => ⟨i, u, hk⟩, fun ⟨i, u, hk⟩ => ⟨i, u, level_le h.table hk, ?_, hk⟩⟩
    ⟨fun ⟨w, _, hm, hf⟩ => ⟨w, hm, hf⟩, fun ⟨w, hm, hf⟩ => ⟨w, ?_, hm, hf⟩⟩
  · have := h.table.place hk
    rcases this with ⟨rfl, rfl⟩ | ⟨rfl, hu⟩ | ⟨rfl, hu⟩
    · rfl
    · exact Nat.div_eq_of_lt (by omega)
    · exact Nat.div_eq_of_lt (by omega)
  · have := h.low hm
    exact Nat.div_eq_of_lt (by simp only [VA_MAX, PGSIZE] at *; omega)

/-! ## `uvm_destroy_pgtbl` -/

/-- The trampoline is shared by all. -/
def IsTrampoline (v : Nat) : Prop := v = TRAMPOLINE_VPN

/-- A page table of a user process, with the root in page `r` and the trapframe in page `tf`. -/
structure UserTable (L : Layout) (s : Machine) (tab : Nat → Nat → Option Nat) (l : List Nat)
    (r tf : Nat) : Prop where
  frames : Frames IsTrampoline s tab l
  root : tab 2 0 = some r
  trampoline : leafAt s.mem tab TRAMPOLINE_VPN = 1024 * (L.trampoline / PGSIZE) + 11
  trapframe : leafAt s.mem tab TRAPFRAME_VPN = 1024 * tf + 7
  text : L.trampoline < s.user.beginAddr

/-- Once the trampoline is unmapped no page is shared, and all of it can be freed. -/
theorem Frames.canFree (h : Frames IsTrampoline s tab l) (hr : tab 2 0 = some r)
    (hsh : ∀ v, Mapped s.mem tab v → ¬ IsTrampoline v) : CanFree s l (reach s.mem 2 r) := by
  have hmem : ∀ {k}, k ∈ reach s.mem 2 r → Used IsTrampoline s tab l k ∧ k ∉ l ∧ PGSIZE * k < 2 ^ 64 := by
    intro k hk
    rcases (within_root h).mp ((mem_reach h.table hr).mp hk) with ⟨j, v, hk⟩ | ⟨w, hm, rfl⟩
    · exact ⟨.inr (.inl ⟨j, v, hk⟩), h.apart hk, h.table.page hk⟩
    · exact ⟨.inr (.inr ⟨w, hsh w hm, hm, rfl⟩), (h.frame (hsh w hm) hm).1, by
        rw [frameOf_eq]; exact pteToPa_lt _⟩
  refine ⟨h.list, List.nodup_append.mpr ⟨Frames.nodup_reach h hsh hr, h.list.nodup, ?_⟩,
    fun k hk => ⟨h.user (hmem hk).1, (hmem hk).2.2⟩⟩
  rintro k hk c hc rfl
  exact (hmem hk).2.1 hc

theorem uvmDestroyPgtbl_spec {L : Layout} {tf : Nat} (h : UserTable L s tab l r tf) :
    ∃ s' : Machine, ∃ ks : List Nat, uvmDestroyPgtbl (PGSIZE * r) s = .ok () s' ∧ FreeList s' false (ks.reverse ++ l) ∧
      ks.Nodup ∧ ∀ k, k ∈ ks ↔ (∃ j v, tab j v = some k) ∨
        ∃ w, w ≠ TRAMPOLINE_VPN ∧ Mapped s.mem tab w ∧ frameOf s.mem tab w = k := by
  have hone : pagesFor PGSIZE = 1 := by decide
  have hne : TRAPFRAME_VPN ≠ TRAMPOLINE_VPN := by decide
  obtain ⟨hmt, hft⟩ := mapped_of_flags h.trampoline (by decide) (by decide)
  obtain ⟨hmf, hff⟩ := mapped_of_flags h.trapframe (by decide) (by decide)
  -- the trampoline and the trapframe first
  obtain ⟨s1, hrun1, d1⟩ := h.frames.unmapPages false TRAMPOLINE_VPN PGSIZE
    h.root (by decide) (by decide) (fun w h1 h2 => by
      rw [hone] at h2
      obtain rfl : w = TRAMPOLINE_VPN := by omega
      exact ⟨fun hf => (Bool.false_ne_true hf).elim, hmt, by rw [hft]; decide⟩)
  rw [hone] at d1
  have hl1 : backList s.mem tab false TRAMPOLINE_VPN 1 l = l := rfl
  have hfr1 := d1.frames
  rw [hl1] at hfr1
  have hmf1 : Mapped s1.mem tab TRAPFRAME_VPN := (d1.unmaps.mapped _).mpr ⟨by decide, hmf⟩
  obtain ⟨s2, hrun2, d2⟩ := hfr1.unmapPages true TRAPFRAME_VPN PGSIZE
    h.root (by decide) (by decide) (fun w h1 h2 => by
      rw [hone] at h2
      obtain rfl : w = TRAPFRAME_VPN := by omega
      refine ⟨fun _ => hne, hmf1, ?_⟩
      rw [d1.unmaps.leaf, if_neg (by decide), hff]; decide)
  rw [hone] at d2
  have hsame : frameOf s1.mem tab TRAPFRAME_VPN = frameOf s.mem tab TRAPFRAME_VPN :=
    d1.unmaps.frameOf_eq (by decide)
  have hl2 : backList s1.mem tab true TRAPFRAME_VPN 1 l = frameOf s.mem tab TRAPFRAME_VPN :: l := by
    simp only [backList, if_true, List.range_one, List.map_cons, List.map_nil, Nat.add_zero, hsame]
    rfl
  have hfr2 := d2.frames
  rw [hl2] at hfr2
  -- what is still mapped
  have hmapped : ∀ w, Mapped s2.mem tab w ↔
      (w ≠ TRAMPOLINE_VPN ∧ w ≠ TRAPFRAME_VPN) ∧ Mapped s.mem tab w := fun w => by
    rw [d2.unmaps.mapped, d1.unmaps.mapped, ← and_assoc]
    exact and_congr_left fun _ => by omega
  have hframe : ∀ {w}, w ≠ TRAMPOLINE_VPN ∧ w ≠ TRAPFRAME_VPN →
      frameOf s2.mem tab w = frameOf s.mem tab w := fun hw =>
    (d2.unmaps.frameOf_eq (by omega)).trans (d1.unmaps.frameOf_eq (by omega))
  have hfree := Frames.canFree hfr2 h.root fun v hm => ((hmapped v).mp hm).1.1
  obtain ⟨s3, hrun3, f3⟩ := destroyPgtbl_spec hfree
  refine ⟨s3, frameOf s.mem tab TRAPFRAME_VPN :: reach s2.mem 2 r, ?_, ?_, ?_, fun k => ?_⟩
  · rw [uvmDestroyPgtbl, show TRAMPOLINE = PGSIZE * TRAMPOLINE_VPN from rfl, bind_of_ok hrun1,
      show TRAPFRAME = PGSIZE * TRAPFRAME_VPN from rfl, bind_of_ok hrun2]
    exact hrun3
  · have := f3.list
    rwa [List.reverse_cons, List.append_assoc]
  · refine List.nodup_cons.mpr ⟨fun hk => ?_, (List.nodup_append.mp hfree.nodup).1⟩
    exact (List.nodup_append.mp hfree.nodup).2.2 _ hk _ List.mem_cons_self rfl
  · rw [List.mem_cons, mem_reach hfr2.table h.root, within_root hfr2, or_left_comm]
    refine or_congr_right ⟨?_, ?_⟩
    · rintro (rfl | ⟨w, hm, hf⟩)
      · exact ⟨TRAPFRAME_VPN, hne, hmf, rfl⟩
      · obtain ⟨hw, hm⟩ := (hmapped w).mp hm
        exact ⟨w, hw.1, hm, by rwa [hframe hw] at hf⟩
    · rintro ⟨w, hw, hm, rfl⟩
      by_cases hwt : w = TRAPFRAME_VPN
      · subst hwt; exact .inl rfl
      · exact .inr ⟨w, (hmapped w).mpr ⟨⟨hw, hwt⟩, hm⟩, hframe ⟨hw, hwt⟩⟩

/-! ## Runs -/

/-- What happens to a page table once it is there; `alloc` is `pmem_alloc(false)`, for the frames. -/
inductive UvmCall where
  | alloc
  | map (va pa len perm : Nat)
  | unmap (va len : Nat) (freeit : Bool)

def UvmCall.run (pgtbl : Nat) : UvmCall → MemM Unit
  | .alloc => do let _ ← pmemAlloc false
  | .map va pa len perm => vmMappages pgtbl va pa len perm
  | .unmap va len freeit => vmUnmappages pgtbl va len freeit

/-- The page `k` of the user region is neither free nor used by the page table. -/
structure UnusedPage (s : Machine) (pgtbl k : Nat) : Prop where
  user : InUser s k
  held : ∀ l, FreeList s false l → k ∉ l
  table : ∀ path, IsPath path → tableAt s.mem pgtbl path ≠ some (PGSIZE * k)
  frame : ∀ va f, va < VA_MAX → translate s pgtbl va ≠ some (PGSIZE * k, f)

/-- Fresh pages are mapped where nothing is; what is unmapped is mapped, below the trapframe, and
not without permissions, on which `vm_unmappages` panics. -/
def UvmCall.Ok (pgtbl : Nat) (s : Machine) : UvmCall → Prop
  | .alloc => True
  | .map va pa len perm => (va % PGSIZE = 0 ∧ pa % PGSIZE = 0 ∧ 0 < len ∧ va + len ≤ VA_MAX ∧
      pa + len ≤ 2 ^ 64 ∧ perm < 2 ^ 10) ∧
      (∀ v, v < VA_MAX → InRange va len v → translate s pgtbl v = none) ∧
      ∀ k, pa ≤ PGSIZE * k → PGSIZE * k < pa + len → UnusedPage s pgtbl k
  | .unmap va len _ => (va % PGSIZE = 0 ∧ 0 < len ∧ va + len ≤ TRAPFRAME) ∧
      ∀ v, v < VA_MAX → InRange va len v → ∃ pa f, translate s pgtbl v = some (pa, f) ∧ f ≠ PTE_V

/-- Before `proc_pgtbl_init`: the free pages are pages of the user region, which is above the text,
and the trapframe is in a page of it that is not free. -/
structure Start (L : Layout) (s : Machine) (trapframe : Nat) : Prop where
  list : ∃ l, FreeList s false l ∧ (∀ n ∈ l, InUser s n) ∧ trapframe / PGSIZE ∉ l
  aligned : trapframe % PGSIZE = 0
  user : InUser s (trapframe / PGSIZE)
  lt : trapframe < 2 ^ 64
  text : L.trampoline < s.user.beginAddr

/-- The states of a page table. -/
inductive Built (L : Layout) (s0 : Machine) (trapframe pgtbl : Nat) : Machine → Prop where
  | init {s : Machine} : procPgtblInit L trapframe s0 = .ok pgtbl s → Built L s0 trapframe pgtbl s
  | call {s s' : Machine} (c : UvmCall) : Built L s0 trapframe pgtbl s → c.Ok pgtbl s →
      c.run pgtbl s = .ok () s' → Built L s0 trapframe pgtbl s'

variable {L : Layout} {tf pgtbl : Nat}

theorem UnusedPage.not_used (hu : Frames IsTrampoline s tab l) (hr : tab 2 0 = some r)
    (h : UnusedPage s (PGSIZE * r) k) : ¬ Used IsTrampoline s tab l k := by
  rintro (hk | hk | ⟨w, hw, hm, hf⟩)
  · exact h.held l hu.list hk
  · obtain ⟨path, hp, ha⟩ := (table_iff hu.table hr).mpr hk
    exact h.table path hp ha
  · have hva : PGSIZE * w < VA_MAX := hu.low hm
    have hdiv : PGSIZE * w / PGSIZE = w := Nat.mul_div_cancel_left _ (by decide)
    refine h.frame (PGSIZE * w) (pteFlags (leafAt s.mem tab w)) hva
      ((translate_some hu.table hr hva).mpr ?_)
    rw [hdiv]
    exact ⟨hm, by rw [hf], rfl⟩

/-! ## Every page table that is built is a user's -/

theorem init_userTable (h0 : Start L s tf) (hrun : procPgtblInit L tf s = .ok pgtbl s') :
    ∃ tab l r, pgtbl = PGSIZE * r ∧ UserTable L s' tab l r (tf / PGSIZE) := by
  obtain ⟨l0, hl0, hu0, htf⟩ := h0.list
  cases l0 with
  | nil =>
    rw [procPgtblInit, bind_of_ok (pmemAlloc_nil hl0), if_pos rfl] at hrun
    cases hrun
  | cons r l0 =>
    have hr0 : PGSIZE * r ≠ 0 := by
      have := (hl0.page r (by simp)).1
      simp only [PGSIZE]; omega
    have hset : memset (PGSIZE * r) 0 PGSIZE (taken s false r) = .ok () (taken s false r) := by
      show EStateM.Result.ok () { taken s false r with
        mem := (taken s false r).mem.write (PGSIZE * r) PGSIZE (fun _ => 0) } = _
      rw [taken_clear]
    rw [procPgtblInit, bind_of_ok (pmemAlloc_cons hl0), if_neg hr0] at hrun
    dsimp only at hrun
    rw [bind_of_ok hset] at hrun
    obtain ⟨_, s1, hrun1, hrun⟩ := bind_ok.mp hrun
    obtain ⟨_, s2, hrun2, hrun⟩ := bind_ok.mp hrun
    cases hrun
    obtain ⟨tab, hf, hr, honly, hz⟩ := frames_root _ hl0 hu0
    have hone : pagesFor PGSIZE = 1 := by decide
    have htp : L.trampoline < 2 ^ 64 := by
      have h1 := L.trampoline_lt
      have h2 := L.etext_eq
      have h3 := (L.exitState_data ⟨0, by decide⟩)
      have h4 := L.allocBegin_le
      simp only [ALLOC_END, PGSIZE] at *; omega
    -- the trampoline
    obtain ⟨new1, tab1, l1, m1⟩ := mappages_of_ok hf.toPageTables hr (by decide) L.trampoline_aligned
      (by decide) (by decide) htp (by decide) hrun1
    rw [hone] at m1
    have hv1 : TRAMPOLINE / PGSIZE = TRAMPOLINE_VPN := by decide
    rw [hv1, show (PTE_R ||| PTE_X) ||| 1 = 11 by decide] at m1
    have hp1 : PGSIZE * (L.trampoline / PGSIZE + 1) ≤ 2 ^ 64 := by simp only [PGSIZE]; omega
    have hf1 := hf.map m1 (by decide) hp1 (by decide) fun w h1 h2 hw =>
      absurd (show w = TRAMPOLINE_VPN by omega) hw
    have hc1 := m1.leaf_cases (by decide) hp1
    -- only the trampoline is mapped now
    have hmap1 : ∀ {w}, ¬ IsTrampoline w → ¬ Mapped s1.mem tab1 w := by
      intro w hw
      rcases hc1 w with ⟨hin, -⟩ | ⟨-, heq⟩
      · exact absurd (show w = TRAMPOLINE_VPN by omega) hw
      · exact not_mapped_of_zero (heq.trans (hz w))
    -- the trapframe
    obtain ⟨new2, tab2, l2, m2⟩ := mappages_of_ok hf1.toPageTables (m1.keeps hr) (by decide) h0.aligned
      (by decide) (by decide) h0.lt (by decide) hrun2
    rw [hone] at m2
    have hv2 : TRAPFRAME / PGSIZE = TRAPFRAME_VPN := by decide
    rw [hv2, show (PTE_R ||| PTE_W) ||| 1 = 7 by decide] at m2
    have hp2 : PGSIZE * (tf / PGSIZE + 1) ≤ 2 ^ 64 := by
      have := h0.lt
      have := h0.aligned
      simp only [PGSIZE] at *; omega
    have hc2 := m2.leaf_cases (by decide) hp2
    have hf2 := hf1.map m2 (by decide) hp2 (by decide) fun w h1 h2 _ => by
      obtain rfl : w = TRAPFRAME_VPN := by omega
      rw [Nat.sub_self, Nat.add_zero]
      refine ⟨?_, ?_⟩
      · have hu := h0.user
        rw [InUser] at hu ⊢
        rw [m1.region.1, m1.region.2]
        exact hu
      · rintro (hk | ⟨j, v, hk⟩ | ⟨v, hv, hm, -⟩)
        · exact htf (List.mem_cons_of_mem _ (m1.sub hk))
        · rcases m1.fresh hk with hk | hk
          · exact htf (by rw [honly j v _ hk]; simp)
          · exact htf (List.mem_cons_of_mem _ hk)
        · exact hmap1 hv hm
    refine ⟨tab2, l2, r, rfl, hf2, m2.keeps (m1.keeps hr), ?_, ?_, ?_⟩
    · rcases hc2 TRAMPOLINE_VPN with ⟨hin, -⟩ | ⟨-, heq⟩
      · exact absurd hin (by decide)
      · rcases hc1 TRAMPOLINE_VPN with ⟨-, hleaf, -⟩ | ⟨hno, -⟩
        · rw [heq, hleaf, Nat.sub_self]
          rfl
        · exact absurd (show TRAMPOLINE_VPN ≤ TRAMPOLINE_VPN ∧ _ from ⟨Nat.le_refl _, by decide⟩) hno
    · rcases hc2 TRAPFRAME_VPN with ⟨-, hleaf, -⟩ | ⟨hno, -⟩
      · rw [hleaf, Nat.sub_self]
        rfl
      · exact absurd (show TRAPFRAME_VPN ≤ TRAPFRAME_VPN ∧ _ from ⟨Nat.le_refl _, by decide⟩) hno
    · rw [m2.region.1, m1.region.1]
      exact h0.text

theorem UserTable.alloc (h : UserTable L s tab l r tf) (hrun : UvmCall.run pgtbl .alloc s = .ok () s') :
    ∃ l', UserTable L s' tab l' r tf := by
  obtain ⟨page, s1, hrun1, hrun⟩ := bind_ok.mp hrun
  cases hrun
  cases l with
  | nil =>
    rw [pmemAlloc_nil h.frames.list] at hrun1
    cases hrun1
    exact ⟨[], { h with frames := { h.frames with list := h.frames.list.congr rfl fun _ _ _ _ => rfl } }⟩
  | cons c l =>
    rw [pmemAlloc_cons h.frames.list] at hrun1
    cases hrun1
    obtain ⟨hf, hleaf⟩ := h.frames.take
    exact ⟨l, hf, h.root, (hleaf _).trans h.trampoline, (hleaf _).trans h.trapframe, h.text⟩

/-- The page that `pmem_alloc` hands out is not used by the page table. -/
theorem UserTable.unused {c : Nat} (h : UserTable L s tab (c :: l) r tf) :
    UnusedPage (taken s false c) (PGSIZE * r) c := by
  obtain ⟨hf, hleaf⟩ := h.frames.take
  have hc : InUser s c := h.frames.user (.inl (by simp))
  refine ⟨hc, fun l' hl' => ?_, fun path hp ha => ?_, fun va f hva htr => ?_⟩
  · rw [hl'.unique hf.list]
    exact (List.nodup_cons.mp h.frames.list.nodup).1
  · obtain ⟨j, v, hk⟩ := (table_iff hf.table h.root).mp ⟨path, hp, ha⟩
    exact h.frames.apart hk (by simp)
  · obtain ⟨hm, hpa, -⟩ := (translate_some hf.table h.root hva).mp htr
    have hk : frameOf s.mem tab (va / PGSIZE) = c := by
      rw [frameOf, hleaf] at hpa
      exact Nat.eq_of_mul_eq_mul_left (by decide) hpa
    by_cases ht : IsTrampoline (va / PGSIZE)
    · -- the trampoline is below the region
      have h0 := (h.frames.list.page c (by simp)).2
      have h1 := hc.2.1
      have h2 := h.text
      have h3 := L.trampoline_aligned
      rw [ht, frameOf, h.trampoline, pteToPa_page (by decide) (by simp only [PGSIZE] at *; omega)] at hk
      simp only [PGSIZE] at *; omega
    · exact (h.frames.frame ht ((Mapped.congr (hleaf _)).mp hm)).1 (by rw [hk]; simp)

theorem UserTable.map {va pa len perm : Nat} (h : UserTable L s tab l r tf)
    (hok : UvmCall.Ok (PGSIZE * r) s (.map va pa len perm))
    (hrun : UvmCall.run (PGSIZE * r) (.map va pa len perm) s = .ok () s') :
    ∃ tab' l', UserTable L s' tab' l' r tf := by
  obtain ⟨⟨hva, hpa, hlen, hv, hp, hperm⟩, hnone, hfresh⟩ := hok
  obtain ⟨new, tab', l', hm⟩ := mappages_of_ok h.frames.toPageTables h.root hva hpa hlen hv
    (by omega) hperm hrun
  have hp' : PGSIZE * (pa / PGSIZE + pagesFor len) ≤ 2 ^ 64 := by
    simp only [pagesFor, PGSIZE] at *; omega
  have hv' : PGSIZE * (va / PGSIZE + pagesFor len) ≤ VA_MAX := by
    simp only [pagesFor, VA_MAX, PGSIZE] at *; omega
  have hodd := or_one_lt hperm
  -- the pages of the range were not mapped
  have hno : ∀ w, va / PGSIZE ≤ w → w < va / PGSIZE + pagesFor len → ¬ Mapped s.mem tab w := by
    intro w h1 h2
    have hw : PGSIZE * w < VA_MAX := by simp only [PGSIZE] at *; omega
    have hdiv : PGSIZE * w / PGSIZE = w := Nat.mul_div_cancel_left _ (by decide)
    have hin : InRange va len (PGSIZE * w) := by
      rw [← Nat.mul_div_cancel' (Nat.dvd_of_mod_eq_zero hva)]
      exact inRange_iff.mpr (by rw [hdiv]; exact ⟨h1, h2⟩)
    have := (translate_none h.frames.table h.root hw).mp (hnone _ hw hin)
    rwa [hdiv] at this
  have hkeep : ∀ {w}, Mapped s.mem tab w → leafAt s'.mem tab' w = leafAt s.mem tab w := by
    intro w hw
    rcases hm.leaf_cases hodd hp' w with ⟨hin, -⟩ | ⟨-, heq⟩
    · exact absurd hw (hno w hin.1 hin.2)
    · exact heq
  refine ⟨tab', l', h.frames.map hm hodd hp' hv' fun w h1 h2 _ => ?_, hm.keeps h.root, ?_, ?_, ?_⟩
  · have hk := hfresh (pa / PGSIZE + (w - va / PGSIZE)) (by simp only [PGSIZE] at *; omega)
      (by simp only [pagesFor, PGSIZE] at *; omega)
    exact ⟨hk.user, hk.not_used h.frames h.root⟩
  · rw [hkeep (mapped_of_flags h.trampoline (by decide) (by decide)).1, h.trampoline]
  · rw [hkeep (mapped_of_flags h.trapframe (by decide) (by decide)).1, h.trapframe]
  · rw [hm.region.1]; exact h.text

theorem UserTable.unmap {va len : Nat} {freeit : Bool} (h : UserTable L s tab l r tf)
    (hok : UvmCall.Ok (PGSIZE * r) s (.unmap va len freeit))
    (hrun : UvmCall.run (PGSIZE * r) (.unmap va len freeit) s = .ok () s') :
    ∃ l', UserTable L s' tab l' r tf := by
  obtain ⟨⟨hva, hlen, hv⟩, hmap⟩ := hok
  have hva' : PGSIZE * (va / PGSIZE) = va := Nat.mul_div_cancel' (Nat.dvd_of_mod_eq_zero hva)
  have htf : TRAPFRAME_VPN = 67108862 := by decide
  have htr : TRAMPOLINE_VPN = 67108863 := by decide
  have hhigh : va / PGSIZE + pagesFor len ≤ 67108862 := by
    simp only [pagesFor, TRAPFRAME, TRAMPOLINE, VA_MAX, PGSIZE] at *; omega
  have hd : ∀ w, va / PGSIZE ≤ w → w < va / PGSIZE + pagesFor len →
      (freeit = true → ¬ IsTrampoline w) ∧ Mapped s.mem tab w ∧
      pteFlags (leafAt s.mem tab w) ≠ PTE_V := by
    intro w h1 h2
    have hw : PGSIZE * w < VA_MAX := by simp only [VA_MAX, PGSIZE] at *; omega
    have hdiv : PGSIZE * w / PGSIZE = w := Nat.mul_div_cancel_left _ (by decide)
    have hin : InRange va len (PGSIZE * w) := by
      rw [← hva']
      exact inRange_iff.mpr (by rw [hdiv]; exact ⟨h1, h2⟩)
    obtain ⟨pa, f, heq, hf⟩ := hmap _ hw hin
    obtain ⟨hm, -, hfl⟩ := (translate_some h.frames.table h.root hw).mp heq
    rw [hdiv] at hm hfl
    exact ⟨fun _ (ht : w = TRAMPOLINE_VPN) => by omega, hm, by rwa [hfl]⟩
  obtain ⟨s1, hrun1, d⟩ := h.frames.unmapPages freeit (va / PGSIZE) len
    h.root hlen (by rw [hva']; simp only [TRAPFRAME, TRAMPOLINE, VA_MAX, PGSIZE] at *; omega) hd
  rw [hva'] at hrun1
  obtain rfl : s' = s1 := by
    have : vmUnmappages (PGSIZE * r) va len freeit s = .ok () s' := hrun
    rw [hrun1] at this
    injection this with _ h; exact h.symm
  refine ⟨_, d.frames, h.root, ?_, ?_, by rw [d.unmaps.region.1]; exact h.text⟩
  · rw [d.unmaps.leaf, if_neg (by omega), h.trampoline]
  · rw [d.unmaps.leaf, if_neg (by omega), h.trapframe]

theorem Built.userTable {s0 : Machine} (h0 : Start L s0 tf) (h : Built L s0 tf pgtbl s) :
    ∃ tab l r, pgtbl = PGSIZE * r ∧ UserTable L s tab l r (tf / PGSIZE) := by
  induction h with
  | init hrun => exact init_userTable h0 hrun
  | call c _ hok hrun ih =>
    obtain ⟨tab, l, r, rfl, hu⟩ := ih
    cases c with
    | alloc =>
      obtain ⟨l', hu'⟩ := hu.alloc hrun
      exact ⟨tab, l', r, rfl, hu'⟩
    | map va pa len perm =>
      obtain ⟨tab', l', hu'⟩ := hu.map hok hrun
      exact ⟨tab', l', r, rfl, hu'⟩
    | unmap va len freeit =>
      obtain ⟨l', hu'⟩ := hu.unmap hok hrun
      exact ⟨tab, l', r, rfl, hu'⟩

/-- `uvm_destroy_pgtbl` returns. Its calls of `pmem_free` are for pages that are all different: the
tables, and the frames of all mapped pages but the trampoline, among them the trapframe. -/
theorem destroy_exact {s0 : Machine} {trapframe : Nat} (h0 : Start L s0 trapframe)
    (h : Built L s0 trapframe pgtbl s) :
    ∃ s', ∃ calls l : List Nat, uvmDestroyPgtbl pgtbl s = .ok () s' ∧ FreeList s false l ∧
      FreeList s' false (calls.reverse ++ l) ∧ calls.Nodup ∧
      (∀ k, k ∈ calls ↔
        (∃ path, IsPath path ∧ tableAt s.mem pgtbl path = some (PGSIZE * k)) ∨
        ∃ va f, va < VA_MAX ∧ va / PGSIZE ≠ TRAMPOLINE / PGSIZE ∧
          translate s pgtbl va = some (PGSIZE * k, f)) ∧
      trapframe / PGSIZE ∈ calls ∧ L.trampoline / PGSIZE ∉ calls := by
  obtain ⟨tab, l, r, rfl, hu⟩ := h.userTable h0
  obtain ⟨s', ks, hrun, hlist, hnodup, hmem⟩ := uvmDestroyPgtbl_spec hu
  have hiff : ∀ k, (∃ w, w ≠ TRAMPOLINE_VPN ∧ Mapped s.mem tab w ∧ frameOf s.mem tab w = k) ↔
      ∃ va f, va < VA_MAX ∧ va / PGSIZE ≠ TRAMPOLINE / PGSIZE ∧
        translate s (PGSIZE * r) va = some (PGSIZE * k, f) := by
    intro k
    constructor
    · rintro ⟨w, hw, hm, rfl⟩
      have hva : PGSIZE * w < VA_MAX := hu.frames.low hm
      have hdiv : PGSIZE * w / PGSIZE = w := Nat.mul_div_cancel_left _ (by decide)
      exact ⟨PGSIZE * w, pteFlags (leafAt s.mem tab w), hva, by rwa [hdiv], (translate_some hu.frames.table
        hu.root hva).mpr (by rw [hdiv]; exact ⟨hm, rfl, rfl⟩)⟩
    · rintro ⟨va, f, hva, hne, htr⟩
      obtain ⟨hm, hf, -⟩ := (translate_some hu.frames.table hu.root hva).mp htr
      exact ⟨va / PGSIZE, hne, hm, Nat.eq_of_mul_eq_mul_left (show 0 < PGSIZE by decide) hf⟩
  refine ⟨s', ks, l, hrun, hu.frames.list, hlist, hnodup, fun k => ?_, ?_, fun htr => ?_⟩
  · rw [hmem, table_iff hu.frames.table hu.root, hiff]
  · refine (hmem _).mpr (.inr ⟨TRAPFRAME_VPN, by decide,
      (mapped_of_flags hu.trapframe (by decide) (by decide)).1, ?_⟩)
    have hlt := h0.lt
    have hal := h0.aligned
    rw [frameOf, hu.trapframe, pteToPa_page (by decide) (by simp only [PGSIZE] at *; omega),
      Nat.mul_div_cancel_left _ (by decide)]
  · -- all the pages are in the user region
    have huser : InUser s (L.trampoline / PGSIZE) := by
      rcases (hmem _).mp htr with hk | ⟨w, hw, hm, hf⟩
      · exact hu.frames.user (.inr (.inl hk))
      · exact hu.frames.user (.inr (.inr ⟨w, hw, hm, hf⟩))
    have h1 := huser.2.1
    have h2 := hu.text
    have h3 := L.trampoline_aligned
    simp only [PGSIZE] at *; omega

/-- Three free pages, and one for the trapframe. -/
def sixPages : Machine :=
  let link (m : Bytes) (n : Nat) : Bytes := Bytes.store 8 m (PGSIZE * n) (PGSIZE * (n + 1))
  { reset ([0x80500, 0x80501, 0x80502, 0x80503, 0x80504].foldl link fun _ => 0) with
    user := ⟨0x80500000, 0x80507000, 6, 0x80500000⟩ }

theorem start_sixPages : Start smallLayout sixPages 0x80506000 := by
  refine ⟨⟨[0x80500, 0x80501, 0x80502, 0x80503, 0x80504, 0x80505], ⟨⟨rfl, by decide +kernel,
    by decide +kernel, by decide +kernel, by decide +kernel, by decide +kernel,
    show Bytes.load 8 _ _ = 0 by decide +kernel⟩, by decide, by decide, by decide⟩, ?_, by decide⟩,
    by decide, by unfold InUser; decide, by decide, by decide⟩
  intro n hn
  simp only [List.mem_cons, List.not_mem_nil, or_false] at hn
  rcases hn with rfl | rfl | rfl | rfl | rfl | rfl <;> unfold InUser <;> decide

/-- A page table with one page of the user in it. -/
theorem destroy_exact_six : ∃ s s', Built smallLayout sixPages 0x80506000 0x80500000 s ∧
    (∃ f, translate s 0x80500000 PGSIZE = some (0x80503000, f)) ∧
    uvmDestroyPgtbl 0x80500000 s = .ok () s' := by
  -- what is mapped before and after is computed on the way
  obtain ⟨res, s3, hrun, hres⟩ := exists_of_returns
    (p := fun res => decide (res = (0x80500000, 0x80503000, none, some 0x80503000)))
    (r := (do
      let pgtbl ← procPgtblInit smallLayout 0x80506000
      let page ← pmemAlloc false
      let before := translate (← get) pgtbl PGSIZE
      vmMappages pgtbl PGSIZE page PGSIZE (PTE_R ||| PTE_W ||| PTE_U)
      return (pgtbl, page, before, (translate (← get) pgtbl PGSIZE).map Prod.fst)) sixPages)
    (by decide +kernel)
  obtain ⟨pgtbl, s1, hinit, hrun⟩ := bind_ok.mp hrun
  obtain ⟨page, s2, halloc, hrun⟩ := bind_ok.mp hrun
  obtain ⟨_, _, ⟨⟩, hrun⟩ := bind_ok.mp hrun
  obtain ⟨⟨⟩, s3', hmap, hrun⟩ := bind_ok.mp hrun
  cases hrun
  have hres := of_decide_eq_true hres
  simp only [Prod.mk.injEq] at hres
  obtain ⟨rfl, rfl, hbefore, hafter⟩ := hres
  obtain ⟨tab, l, r, hr, hu⟩ := init_userTable start_sixPages hinit
  have hb1 := Built.init hinit
  have hb2 : Built smallLayout sixPages 0x80506000 0x80500000 s2 :=
    .call .alloc hb1 trivial (bind_of_ok halloc)
  cases l with
  | nil => rw [pmemAlloc_nil hu.frames.list] at halloc; cases halloc
  | cons c l =>
    rw [pmemAlloc_cons hu.frames.list] at halloc
    injection halloc with hc hs2
    subst hs2
    obtain ⟨hf, -⟩ := hu.frames.take
    have hok : UvmCall.Ok 0x80500000 (taken s1 false c)
        (.map PGSIZE 0x80503000 PGSIZE (PTE_R ||| PTE_W ||| PTE_U)) := by
      refine ⟨by decide, fun v hv hin => ?_, fun k h1 h2 => ?_⟩
      · rw [hr] at hbefore ⊢
        rw [translate_none hf.table hu.root (by decide)] at hbefore
        rw [translate_none hf.table hu.root hv]
        have h1 := hin.1
        have h2 := hin.2
        rw [show v / PGSIZE = PGSIZE / PGSIZE by simp only [pgRoundDown, PGSIZE] at *; omega]
        exact hbefore
      · obtain rfl : k = c := by simp only [PGSIZE] at *; omega
        rw [hr]
        exact hu.unused
    have hb3 := hb2.call _ hok hmap
    obtain ⟨s', calls, l', hd, -⟩ := destroy_exact start_sixPages hb3
    obtain ⟨⟨pa, f⟩, htr, rfl⟩ := Option.map_eq_some_iff.mp hafter
    exact ⟨_, s', hb3, ⟨f, htr⟩, hd⟩

end Proc
end WhuOS
