import WhuOS.Mem.Fresh

/-!
# WhuOS.Mem.Unmap

`vm_unmappages` on a range of mapped pages: their frames go to the free list, first page first, and
no other address changes its leaf entry.
-/

namespace WhuOS
namespace Mem

open Lib Kern Sched

variable {L : Layout} {q : Slot} {s : Machine} {own : Nat → Owner} {l : List Nat}

/-- The frames of the `n` pages from page `a` on. -/
def frames (m : Bytes) (pgtbl a n : Nat) : List Nat :=
  (List.range n).map fun i => pteToPa (leafPte m pgtbl (PGSIZE * (a + i))) / PGSIZE

theorem frames_succ (m : Bytes) (pgtbl a n : Nat) :
    frames m pgtbl a (n + 1) =
      frames m pgtbl a n ++ [pteToPa (leafPte m pgtbl (PGSIZE * (a + n))) / PGSIZE] := by
  simp only [frames, List.range_succ, List.map_append, List.map_singleton]

structure UnmappedPages (L : Layout) (q : Slot) (s : Machine) (own : Nat → Owner) (l : List Nat)
    (r a n : Nat) (s' : Machine) (own' : Nat → Owner) : Prop where
  owned : Owned L s' own' ((frames s.mem (PGSIZE * r) a n).reverse ++ l)
  rest : s'.rest = s.rest
  owner : ∀ k, k ∉ frames s.mem (PGSIZE * r) a n → own' k = own k
  frame : ∀ k, k ∈ frames s.mem (PGSIZE * r) a n →
    own' k = .free ∧ ∃ i, i < n ∧ own k = .node q 0 (a + i)
  inside : ∀ i, i < n → leafPte s'.mem (PGSIZE * r) (PGSIZE * (a + i)) = 0
  outside : ∀ va, va < VA_MAX → va / PGSIZE < a ∨ a + n ≤ va / PGSIZE →
    leafPte s'.mem (PGSIZE * r) va = leafPte s.mem (PGSIZE * r) va
  mem : ∀ k, k ∉ frames s.mem (PGSIZE * r) a n → (∀ h v, own k = .node q h v → h = 0) →
    ∀ b, b / PGSIZE = k → s'.mem b = s.mem b

namespace UnmappedPages

theorem keeps {r a n : Nat} {s' : Machine} {own' : Nat → Owner}
    (u : UnmappedPages L q s own l r a n s' own') {k h v : Nat} {q' : Slot}
    (hk : own k = .node q' (h + 1) v) : own' k = .node q' (h + 1) v := by
  rw [u.owner k fun hm => ?_, hk]
  obtain ⟨-, i, -, hi⟩ := u.frame k hm
  rw [hk] at hi
  cases hi

theorem succ {r a n k : Nat} {s' s'' : Machine} {own' : Nat → Owner}
    (u : UnmappedPages L q s own l r a n s' own') (hlow : PGSIZE * (a + n) < VA_MAX)
    (hk : pteToPa (leafPte s.mem (PGSIZE * r) (PGSIZE * (a + n))) = PGSIZE * k)
    (p : UnmappedPage L q s' own' ((frames s.mem (PGSIZE * r) a n).reverse ++ l) r
      (PGSIZE * (a + n)) k s'') :
    UnmappedPages L q s own l r a (n + 1) s'' (Function.update own' k .free) := by
  have hkf : pteToPa (leafPte s.mem (PGSIZE * r) (PGSIZE * (a + n))) / PGSIZE = k := by
    rw [hk]; simp only [PGSIZE]; omega
  have hnew : k ∉ frames s.mem (PGSIZE * r) a n := fun hm => by
    have := (u.frame k hm).1
    rw [p.frame] at this
    cases this
  have hv : vpn (PGSIZE * (a + n)) 0 = a + n := by
    rw [vpn_zero]; simp only [PGSIZE]; omega
  have hown : own k = .node q 0 (a + n) := by rw [← u.owner k hnew, p.frame, hv]
  have hmem : ∀ j, j ∈ frames s.mem (PGSIZE * r) a (n + 1) ↔
      j ∈ frames s.mem (PGSIZE * r) a n ∨ j = k := by
    intro j; rw [frames_succ, hkf]; simp
  refine ⟨?_, p.rest.trans u.rest, fun j hj => ?_, fun j hj => ?_, fun i hi => ?_,
    fun va hva hout => ?_, fun j hj hq b hb => ?_⟩
  · have := p.owned
    rwa [frames_succ, hkf, List.reverse_append, List.reverse_singleton, List.singleton_append,
      List.cons_append]
  · obtain ⟨h1, h2⟩ := not_or.mp (mt (hmem j).mpr hj)
    rw [Function.update_of_ne h2, u.owner j h1]
  · by_cases hjk : j = k
    · subst hjk
      exact ⟨by simp, n, by omega, hown⟩
    · obtain ⟨h1, i, hi, h2⟩ := u.frame j (((hmem j).mp hj).resolve_right hjk)
      exact ⟨by rwa [Function.update_of_ne hjk], i, by omega, h2⟩
  · by_cases hin : i = n
    · subst hin; exact p.leaf.here
    · rw [p.leaf.other _ (by simp only [PGSIZE] at *; omega) (by simp only [PGSIZE]; omega)]
      exact u.inside i (by omega)
  · rw [p.leaf.other va hva (by simp only [PGSIZE] at *; omega)]
    exact u.outside va hva (by omega)
  · obtain ⟨h1, h2⟩ := not_or.mp (mt (hmem j).mpr hj)
    rw [p.mem j h2 (by rw [u.owner j h1]; exact hq) b hb, u.mem j h1 hq b hb]

end UnmappedPages

theorem wp_vmUnmappages {r a n : Nat} (w : Owned L s own l) (hr : own r = .node q 3 0) (hn : 0 < n)
    (hmax : PGSIZE * (a + n) ≤ VA_MAX)
    (hmapped : ∀ i, i < n → Unmappable L s.mem (PGSIZE * r) (PGSIZE * (a + i))) :
    wp (vmUnmappages (PGSIZE * r) (PGSIZE * a) (PGSIZE * n) true)
      (fun _ s' => ∃ own', UnmappedPages L q s own l r a n s' own') (fun _ _ => False) s := by
  have hal : PGSIZE * a % PGSIZE = 0 := Nat.mul_mod_right _ _
  have hnp : max (pgRoundUp (PGSIZE * n) / PGSIZE) 1 = n := by
    simp only [pgRoundUp, PGSIZE, VA_MAX] at *; omega
  have hend : (PGSIZE * a + PGSIZE * n) % 2 ^ 64 = PGSIZE * a + PGSIZE * n := by
    simp only [PGSIZE, VA_MAX] at *; omega
  have hcnt : (PGSIZE * a + PGSIZE * n - PGSIZE * a + (PGSIZE - 1)) / PGSIZE = n := by
    simp only [PGSIZE]; omega
  simp only [vmUnmappages, hal, ne_eq, not_true_eq_false, if_false, hnp, forPages, hend, hcnt]
  have hinit : UnmappedPages L q s own l r a 0 s own :=
    ⟨by simpa [frames] using w, rfl, fun _ _ => rfl, by simp [frames], by omega, fun _ _ _ => rfl,
      fun _ _ _ _ _ => rfl⟩
  have hloop := wp_forFrom (f := fun k => unmapPage (PGSIZE * r) (PGSIZE * a + PGSIZE * k) true)
    (E := fun _ _ => False)
    (I := fun j s' => ∃ own', UnmappedPages L q s own l r a j s' own') (s := s) n 0 ?_ ⟨own, hinit⟩
  · rwa [Nat.zero_add] at hloop
  rintro j s1 - hj ⟨own1, u⟩
  rw [Nat.zero_add] at hj
  have hva : PGSIZE * a + PGSIZE * j = PGSIZE * (a + j) := by simp only [PGSIZE]; omega
  have hlow := (hmapped j hj).low
  have hsame : leafPte s1.mem (PGSIZE * r) (PGSIZE * (a + j)) =
      leafPte s.mem (PGSIZE * r) (PGSIZE * (a + j)) :=
    u.outside _ hlow (.inr (by simp only [PGSIZE]; omega))
  rw [hva]
  refine wp_conseq (wp_unmapPage u.owned (u.keeps hr)) ?_ ?_
  · rintro - s2 ⟨-, k, hk, p⟩
    rw [hsame] at hk
    exact ⟨_, u.succ hlow hk p⟩
  · rintro _ _ ⟨hno, -⟩
    refine hno ?_
    exact (hmapped j hj).congr hsame

end Mem
end WhuOS
