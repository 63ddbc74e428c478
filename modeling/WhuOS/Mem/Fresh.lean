import WhuOS.Mem.Map

/-!
# WhuOS.Mem.Fresh

Mapping a range of fresh pages, the loop of `uvm_heap_grow` and of `uvm_mmap`. The number of pages
that it takes from the free list is known beforehand (`need`): a frame for every page, and a table
wherever the range enters a part of the address space that has none. `wp_freshPages` says that the
loop returns exactly if the range ends below `VA_MAX` and that many pages are free.
-/

namespace WhuOS
namespace Mem

open Lib Kern Sched

variable {L : Layout} {q : Slot} {s : Machine} {own : Nat → Owner} {l : List Nat}

variable {c r va perm : Nat} {t : List Nat}

theorem Owned.take_frame (w : Owned L s own (c :: t)) (v : Nat) :
    Extended L q s own (taken s false c) (Function.update own c (.node q 0 v)) t := by
  have hfree := w.free c (by simp)
  have hne : ∀ {k q' h v'}, own k = .node q' h v' → k ≠ c := by
    rintro k q' h v' hk rfl; rw [hfree] at hk; cases hk
  have w1 := w.take (o := .node q 0 v) (.inr (.inl ⟨q, v, rfl⟩))
  refine ⟨w1, rfl, ⟨fun k => ?_, fun hk _ a ha => ?_⟩, fun {r va} hr hva => ?_⟩
  · by_cases hkc : k = c
    · subst hkc; exact .inr ⟨hfree, 0, v, by simp⟩
    · exact .inl (by simp [hkc])
  · exact taken_outside (by rw [ha]; exact hne hk)
  · refine w.tree.leaf_eq w1.tree hr (by simpa [hne hr] using hr) hva (fun k hk => ⟨?_, ?_⟩) ?_
    · simpa [hne hk] using hk
    · exact entry_congr (vaToVpn_lt va 0) fun a ha => taken_outside (by rw [ha]; exact hne hk)
    · intro k hk hno
      by_cases hkc : k = c
      · subst hkc; simp at hk
      · exact absurd (by simpa [hkc] using hk) hno

theorem update_frame_nodes {v k h v' : Nat}
    (hk : Function.update own c (.node q 0 v) k = .node q h v') :
    own k = .node q h v' ∨ h = 0 ∧ v' = v := by
  by_cases hkc : k = c
  · subst hkc
    simp only [Function.update_self, Owner.node.injEq] at hk
    exact .inr ⟨hk.2.1.symm, hk.2.2.symm⟩
  · exact .inl (by simpa [hkc] using hk)

theorem missing_update_frame {v : Nat} (hc : own c = .free) (va : Nat) :
    missing (Function.update own c (.node q 0 v)) q va = missing own q va := by
  have h : ∀ h, 0 < h → lacks (Function.update own c (.node q 0 v)) q h va = lacks own q h va := by
    intro h hpos
    refine lacks_congr fun k => ⟨fun hk => ?_, fun hk => ?_⟩
    · rcases update_frame_nodes hk with hk | ⟨rfl, -⟩
      · exact hk
      · omega
    · have : k ≠ c := by rintro rfl; rw [hc] at hk; cases hk
      simpa [this] using hk
  simp only [missing, h 2 (by omega), h 1 (by omega)]

theorem MappedPage.after {s1 s' : Machine} {own1 own' : Nat → Owner} {l1 l' : List Nat}
    {p : Nat} (e : Extended L q s own s1 own1 l1) (hr : own r = .node q 3 0)
    (hn : ∀ k h v, own1 k = .node q h v → own k = .node q h v ∨ v = vpn va h)
    (mp : MappedPage L q s1 own1 r va p s' own' l') : MappedPage L q s own r va p s' own' l' := by
  refine ⟨mp.owned, mp.rest.trans e.rest, e.grows.trans mp.grows, ⟨mp.leaf.here, ?_⟩, mp.table, ?_⟩
  · intro va' hva' hne
    rw [mp.leaf.other va' hva' hne, e.leaf hr hva']
  · intro k h v hk
    rcases mp.nodes k h v hk with hk | hv
    · exact hn k h v hk
    · exact .inr hv

theorem wp_vmMappages_high {pgtbl pa : Nat} {Q : Unit → Machine → Prop}
    (hva : VA_MAX ≤ va) :
    wp (vmMappages pgtbl va pa PGSIZE perm) Q (fun _ _ => True) s := by
  have h : VA_MAX ≤ pgRoundDown va := by
    simp only [VA_MAX, pgRoundDown, PGSIZE] at *; omega
  simp only [vmMappages, PGSIZE, Nat.reduceEqDiff, if_false, mapLoop]
  simp only [wp_bind]
  unfold wp
  rw [vmGetpte_high true s h]
  trivial

/-- One page of `q` was mapped to a frame that had been free. -/
structure FreshPage (L : Layout) (q : Slot) (s : Machine) (own : Nat → Owner) (l : List Nat)
    (r va perm : Nat) (s' : Machine) (own' : Nat → Owner) (l' : List Nat) : Prop where
  low : va < VA_MAX
  mapped : ∃ k, own k = .free ∧ MappedPage L q s own r va (1024 * k + (perm ||| 1)) s' own' l'
  length : l.length = l'.length + (1 + missing own q va)

theorem wp_mapTaken (w : Owned L s own (c :: t))
    (hr : own r = .node q 3 0) (hal : va % PGSIZE = 0) (hperm : perm < 1024) :
    wp (vmMappages (PGSIZE * r) va (PGSIZE * c) PGSIZE perm)
      (fun _ s' => ∃ own' l', FreshPage L q s own (c :: t) r va perm s' own' l')
      (fun _ _ => VA_MAX ≤ va ∨ (c :: t).length < 1 + missing own q va) (taken s false c) := by
  have hfree := w.free c (by simp)
  rcases Nat.lt_or_ge va VA_MAX with hva | hva
  · have e := w.take_frame (q := q) (vpn va 0)
    refine wp_conseq (wp_vmMappages va c perm e.owned (e.grows.keeps hr (by simp)) hva hal hperm
      (.inl (by simp))) ?_ ?_
    · rintro - s' ⟨own', l', mp, hlen, -⟩
      refine ⟨own', l', hva, ⟨c, hfree, mp.after e hr fun k h v hk => ?_⟩, ?_⟩
      · rcases update_frame_nodes hk with hk | ⟨rfl, hv⟩
        · exact .inl hk
        · exact .inr hv
      · rw [missing_update_frame hfree] at hlen
        simp only [List.length_cons]; omega
    · rintro _ _ ⟨hlt, -⟩
      rw [missing_update_frame hfree] at hlt
      exact .inr (by simp only [List.length_cons]; omega)
  · exact wp_conseq (wp_vmMappages_high (Q := fun _ _ => False) hva) (fun _ _ h => h.elim)
      (fun _ _ _ => .inl hva)

theorem Owned.head_ne_zero (w : Owned L s own (c :: t)) :
    PGSIZE * c ≠ 0 := by
  have := w.page_pos (n := c) (by simp [w.free c]); simp only [PGSIZE]; omega

theorem wp_freshPage {msg : String} (w : Owned L s own l)
    (hr : own r = .node q 3 0) (hal : va % PGSIZE = 0) (hperm : perm < 1024) :
    wp (do
        let pa ← pmemAlloc false
        if pa = 0 then Kern.panic msg
        memset pa 0 PGSIZE
        vmMappages (PGSIZE * r) va pa PGSIZE perm)
      (fun _ s' => ∃ own' l', FreshPage L q s own l r va perm s' own' l')
      (fun _ _ => VA_MAX ≤ va ∨ l.length < 1 + missing own q va) s := by
  simp only [wp_bind]
  refine wp_pmemAlloc w (fun hl => ?_) (fun c t hl => ?_)
  · exact .inr (by rw [hl]; simp only [List.length_nil]; omega)
  subst hl
  simp only [w.head_ne_zero, if_false, wp_bind, wp_memset, taken_clear]
  exact wp_mapTaken w hr hal hperm

theorem wp_freshPage_proc {p : Slot} {msg : String} (w : Owned L s own l)
    (hr : own r = .node q 3 0) (hpg : (s.procs p).pgtbl = PGSIZE * r) (hal : va % PGSIZE = 0)
    (hperm : perm < 1024) :
    wp (do
        let pa ← pmemAlloc false
        if pa = 0 then Kern.panic msg
        memset pa 0 PGSIZE
        vmMappages (← getProc p).pgtbl va pa PGSIZE perm)
      (fun _ s' => ∃ own' l', FreshPage L q s own l r va perm s' own' l')
      (fun _ _ => VA_MAX ≤ va ∨ l.length < 1 + missing own q va) s := by
  simp only [wp_bind]
  refine wp_pmemAlloc w (fun hl => ?_) (fun c t hl => ?_)
  · exact .inr (by rw [hl]; simp only [List.length_nil]; omega)
  subst hl
  simp only [w.head_ne_zero, if_false, wp_bind, wp_memset, taken_clear, wp_getProc, taken_procs,
    hpg]
  exact wp_mapTaken w hr hal hperm

/-! ## The loop -/

/-- The tables that the page `va` needs, given that it is the first of the range or that the page
below it is mapped. -/
noncomputable def newTables (own : Nat → Owner) (q : Slot) (first : Bool) (va : Nat) : Nat :=
  (if first = true ∨ va % 2 ^ 30 = 0 then lacks own q 2 va else 0) +
  (if first = true ∨ va % 2 ^ 21 = 0 then lacks own q 1 va else 0)

/-- The pages taken from the free list for `n` pages from `va` on. -/
noncomputable def need (own : Nat → Owner) (q : Slot) : Bool → Nat → Nat → Nat
  | _, _, 0 => 0
  | first, va, n + 1 => 1 + newTables own q first va + need own q false (va + PGSIZE) n

theorem missing_eq_newTables (q : Slot) (first : Bool) (va : Nat) (t : Tree L s.mem own)
    (hal : va % PGSIZE = 0)
    (hin : first = true ∨ PGSIZE ≤ va ∧ ∃ k, own k = .node q 1 (vpn (va - PGSIZE) 1)) :
    missing own q va = newTables own q first va := by
  rcases hin with rfl | ⟨hge, k, hk⟩
  · simp [missing, newTables]
  obtain ⟨x, rfl⟩ : ∃ x, va = PGSIZE + x := ⟨va - PGSIZE, by omega⟩
  rw [Nat.add_sub_cancel_left] at hk
  obtain ⟨k2, hk2, -⟩ := t.up hk (by omega) (by omega)
  rw [vpn_div] at hk2
  -- inside a table's part of the address space the table is there already
  have h1 : ¬ (PGSIZE + x) % 2 ^ 21 = 0 → lacks own q 1 (PGSIZE + x) = 0 := fun h => by
    refine lacks_of_node (k := k) ?_
    rw [hk, show vpn (PGSIZE + x) 1 = vpn x 1 by simp only [vpn, PGSIZE] at *; omega]
  have h2 : ¬ (PGSIZE + x) % 2 ^ 30 = 0 → lacks own q 2 (PGSIZE + x) = 0 := fun h => by
    refine lacks_of_node (k := k2) ?_
    rw [hk2, show vpn (PGSIZE + x) 2 = vpn x 2 by simp only [vpn, PGSIZE] at *; omega]
  cases first with
  | true => simp [missing, newTables]
  | false =>
    simp only [missing, newTables, Bool.false_eq_true, false_or]
    by_cases h30 : (PGSIZE + x) % 2 ^ 30 = 0 <;> by_cases h21 : (PGSIZE + x) % 2 ^ 21 = 0 <;>
      simp only [h30, h21, h1, h2, if_true, if_false, not_false_eq_true]

/-- The nodes added for `va` are of no use above it, where the range enters a new part. -/
theorem need_congr {own' : Nat → Owner}
    (hold : ∀ k h v, own k = .node q h v → own' k = .node q h v)
    (hnew : ∀ k h v, own' k = .node q h v → own k = .node q h v ∨ v = vpn va h) :
    ∀ (n va' : Nat), va < va' → need own' q false va' n = need own q false va' n := by
  have hl : ∀ h va', vpn va' h ≠ vpn va h → lacks own' q h va' = lacks own q h va' := by
    refine fun h va' hne => lacks_congr fun k => ⟨fun hk => ?_, hold k h _⟩
    rcases hnew k h _ hk with hk | hv
    · exact hk
    · exact absurd hv hne
  intro n
  induction n with
  | zero => intro va' _; rfl
  | succ n ih =>
    intro va' hlt
    have h2 : va' % 2 ^ 30 = 0 → lacks own' q 2 va' = lacks own q 2 va' :=
      fun h => hl 2 va' (by simp only [vpn]; omega)
    have h1 : va' % 2 ^ 21 = 0 → lacks own' q 1 va' = lacks own q 1 va' :=
      fun h => hl 1 va' (by simp only [vpn]; omega)
    simp only [need, newTables, Bool.false_eq_true, false_or]
    rw [ih (va' + PGSIZE) (by omega)]
    by_cases h30 : va' % 2 ^ 30 = 0 <;> by_cases h21 : va' % 2 ^ 21 = 0 <;>
      simp only [h30, h21, h1, h2, if_true, if_false]

/-- The `n` pages from `va` on were mapped to frames that had been free. -/
structure FreshPages (L : Layout) (q : Slot) (s : Machine) (own : Nat → Owner) (r va n perm : Nat)
    (s' : Machine) (own' : Nat → Owner) (l' : List Nat) : Prop where
  owned : Owned L s' own' l'
  rest : s'.rest = s.rest
  grows : Grows q s.mem own s'.mem own'
  inside : ∀ va', va' < VA_MAX → va ≤ va' → va' < va + PGSIZE * n →
    ∃ k, own k = .free ∧ leafPte s'.mem (PGSIZE * r) va' = 1024 * k + (perm ||| 1)
  outside : ∀ va', va' < VA_MAX → (va' < va ∨ va + PGSIZE * n ≤ va') →
    leafPte s'.mem (PGSIZE * r) va' = leafPte s.mem (PGSIZE * r) va'

theorem leafPte_page {m : Bytes} {pgtbl va' : Nat} (h : va / PGSIZE = va' / PGSIZE) :
    leafPte m pgtbl va = leafPte m pgtbl va' := by
  have hv : ∀ level, vaToVpn va level = vaToVpn va' level := by
    intro level
    have hd : ∀ x : Nat, x / 2 ^ (12 + 9 * level) = x / PGSIZE / 2 ^ (9 * level) := by
      intro x; rw [Nat.div_div_eq_div_mul, Nat.pow_add]
    simp only [vaToVpn, hd, h]
  simp only [leafPte, walk, hv]

theorem wp_freshPages {f : Nat → MemM Unit} {R : Rest} (perm : Nat) : ∀ (n i va : Nat)
    (first : Bool) {s : Machine} {own : Nat → Owner} {l : List Nat},
    Owned L s own l → s.rest = R → own r = .node q 3 0 → va % PGSIZE = 0 →
    (first = true ∨ PGSIZE ≤ va ∧ ∃ k, own k = .node q 1 (vpn (va - PGSIZE) 1)) →
    (∀ j s own l, j < n → Owned L s own l → s.rest = R → own r = .node q 3 0 →
      wp (f (i + j))
        (fun _ s' => ∃ own' l', FreshPage L q s own l r (va + PGSIZE * j) perm s' own' l')
        (fun _ _ => VA_MAX ≤ va + PGSIZE * j ∨ l.length < 1 + missing own q (va + PGSIZE * j)) s) →
    wp (Kern.forFrom f i n)
      (fun _ s' => (0 < n → va + PGSIZE * n ≤ VA_MAX) ∧ need own q first va n ≤ l.length ∧
        ∃ own' l', l.length = l'.length + need own q first va n ∧
          FreshPages L q s own r va n perm s' own' l')
      (fun _ _ => ¬ (va + PGSIZE * n ≤ VA_MAX ∧ need own q first va n ≤ l.length)) s := by
  intro n
  induction n with
  | zero =>
    intro i va first s own l w _ _ _ _ _
    refine ⟨by omega, Nat.zero_le _, own, l, rfl, w, rfl, .refl .., ?_, fun _ _ _ => rfl⟩
    intro va' _ h1 h2; simp only [PGSIZE] at h2; omega
  | succ n ih =>
    intro i va first s own l w hR hr hal hin hf
    simp only [Kern.forFrom, wp_bind]
    have hmiss := missing_eq_newTables q first va w.tree hal hin
    have h0 := hf 0 s own l (by omega) w hR hr
    simp only [Nat.mul_zero, Nat.add_zero, hmiss] at h0
    refine wp_conseq h0 ?_ ?_
    · rintro - s1 ⟨own1, l1, hlow, ⟨k, hfree, mp⟩, hlen⟩
      have hneed : need own1 q false (va + PGSIZE) n = need own q false (va + PGSIZE) n :=
        need_congr (fun k h v hk => mp.grows.keeps hk (by simp)) mp.nodes n _
          (by simp only [PGSIZE]; omega)
      rw [hmiss] at hlen
      have hal1 : (va + PGSIZE) % PGSIZE = 0 := by simp only [PGSIZE] at *; omega
      have htab : ∃ k, own1 k = .node q 1 (vpn (va + PGSIZE - PGSIZE) 1) := by
        rw [Nat.add_sub_cancel]; exact mp.table
      have := ih (i + 1) (va + PGSIZE) false mp.owned (mp.rest.trans hR)
        (mp.grows.keeps hr (by simp)) hal1 (.inr ⟨by omega, htab⟩) (fun j s own l hj => by
          have := hf (j + 1) s own l (by omega)
          rwa [show i + (j + 1) = i + 1 + j by omega,
            show va + PGSIZE * (j + 1) = va + PGSIZE + PGSIZE * j by simp only [PGSIZE]; omega]
            at this)
      refine wp_conseq this ?_ ?_
      · rintro - s2 ⟨hmax, hle, own2, l2, hlen2, fp⟩
        rw [hneed] at hle hlen2
        refine ⟨fun _ => ?_, ?_, own2, l2, by simp only [need]; omega, fp.owned, fp.rest.trans mp.rest,
          mp.grows.trans fp.grows, fun va' hva' h1 h2 => ?_, fun va' hva' h => ?_⟩
        · rcases Nat.eq_zero_or_pos n with rfl | hpos
          · simp only [PGSIZE, VA_MAX] at *; omega
          · have := hmax hpos; simp only [PGSIZE] at *; omega
        · simp only [need]; omega
        · rcases Nat.lt_or_ge va' (va + PGSIZE) with hp | hp
          · refine ⟨k, hfree, ?_⟩
            rw [fp.outside va' hva' (.inl hp), ← mp.leaf.here]
            exact leafPte_page (by simp only [PGSIZE] at *; omega)
          · obtain ⟨c, hc, hleaf⟩ := fp.inside va' hva' hp (by simp only [PGSIZE] at *; omega)
            refine ⟨c, ?_, hleaf⟩
            rcases mp.grows.owner c with h | ⟨h, -⟩
            · rwa [h] at hc
            · exact h
        · rw [fp.outside va' hva' (by simp only [PGSIZE] at *; omega)]
          exact mp.leaf.other va' hva' (by simp only [PGSIZE] at *; omega)
      · rintro _ _ hstop ⟨h1, h2⟩
        refine hstop ⟨by simp only [PGSIZE] at *; omega, ?_⟩
        rw [hneed]; simp only [need] at h2; omega
    · rintro _ _ hstop ⟨h1, h2⟩
      simp only [need] at h2
      rcases hstop with h | h
      · simp only [PGSIZE, VA_MAX] at *; omega
      · omega

end Mem
end WhuOS
