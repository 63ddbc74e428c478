import WhuOS.Mem.Own

/-!
# WhuOS.Mem.Map

`vm_getpte`, `vm_mappages` and `vm_unmappages` on well-formed page tables, one page at a time.

* `Grows q`            — pages are only taken from the free list, and only for the process `q`.
* `missing`            — how many tables `vm_getpte` has to allocate for an address.
* `wp_vmGetpte_true`   — it allocates just these, and no address changes its leaf entry.
* `wp_vmMappages`      — one page is mapped; all others stay as they are.
* `wp_unmapPage`       — one page is unmapped and its frame freed, if it can be (`Unmappable`).
-/

namespace WhuOS
namespace Mem

open Lib Sched

namespace Tree

variable {L : Layout} {m m' : Bytes} {own own' : Nat → Owner} {q : Slot}

theorem height_le (t : Tree L m own) {n h v : Nat} (hn : own n = .node q h v) : h ≤ 3 := by
  rcases Nat.lt_or_ge h 3 with h3 | h3
  · omega
  · exact Nat.le_of_eq (t.top hn h3).1

theorem next (t : Tree L m own) {n h va : Nat} (hn : own n = .node q (h + 1) (vpn va (h + 1)))
    (hh : 0 < h) :
    (∃ k, own k = .node q h (vpn va h) ∧ entry m n (vaToVpn va h) % 2 = 1 ∧
      nextTable m (PGSIZE * n + 8 * vaToVpn va h) = some (PGSIZE * k)) ∨
    ((∀ k, own k ≠ .node q h (vpn va h)) ∧ entry m n (vaToVpn va h) % 2 = 0 ∧
      nextTable m (PGSIZE * n + 8 * vaToVpn va h) = none) := by
  have hi := vaToVpn_lt va h
  have hdef : nextTable m (PGSIZE * n + 8 * vaToVpn va h) =
      if pteHas (entry m n (vaToVpn va h)) PTE_V then some (pteToPa (entry m n (vaToVpn va h)))
      else none := rfl
  rcases Nat.mod_two_eq_zero_or_one (entry m n (vaToVpn va h)) with he | he
  · refine .inr ⟨fun k hk => ?_, he, ?_⟩
    · obtain ⟨r, hr, hre⟩ := t.up hk hh (by have := t.height_le hn; omega)
      rw [vpn_div] at hr
      obtain rfl := t.unique (by omega) hn hr
      rw [vpn_mod] at hre
      omega
    · rw [hdef, if_neg]
      rw [pteHas_V]; omega
  · rcases t.down hn hi he with ⟨k, hk, hown, -⟩ | ⟨h0, -⟩
    · rw [vpn_succ] at hown
      refine .inl ⟨k, hown, he, ?_⟩
      rw [hdef, if_pos ((pteHas_V _).mpr he), hk]
    · omega

theorem walk_cases (t : Tree L m own) {r va : Nat} (hr : own r = .node q 3 0) (hva : va < VA_MAX) :
    (∃ k, own k = .node q 1 (vpn va 1) ∧
      walk m (PGSIZE * r) va = some (PGSIZE * k + 8 * vaToVpn va 0) ∧
      leafPte m (PGSIZE * r) va = entry m k (vaToVpn va 0)) ∨
    ((∀ k, own k ≠ .node q 1 (vpn va 1)) ∧ walk m (PGSIZE * r) va = none ∧
      leafPte m (PGSIZE * r) va = 0) := by
  rw [← vpn_three hva] at hr
  rcases t.next hr (by omega) with ⟨k2, hk2, -, hw2⟩ | ⟨hk2, -, hw2⟩
  · rcases t.next hk2 (by omega) with ⟨k1, hk1, -, hw1⟩ | ⟨hk1, -, hw1⟩
    · exact .inl ⟨k1, hk1, by simp [walk, hw2, hw1], by simp [leafPte, walk, hw2, hw1, entry]⟩
    · exact .inr ⟨hk1, by simp [walk, hw2, hw1], by simp [leafPte, walk, hw2, hw1]⟩
  · refine .inr ⟨fun k hk => ?_, by simp [walk, hw2], by simp [leafPte, walk, hw2]⟩
    obtain ⟨r', hr', -⟩ := t.up hk (by omega) (by omega)
    rw [vpn_div] at hr'
    exact hk2 _ hr'

theorem leaf_of_table (t : Tree L m own) {r va k : Nat} (hr : own r = .node q 3 0)
    (hva : va < VA_MAX) (hk : own k = .node q 1 (vpn va 1)) :
    walk m (PGSIZE * r) va = some (PGSIZE * k + 8 * vaToVpn va 0) ∧
      leafPte m (PGSIZE * r) va = entry m k (vaToVpn va 0) := by
  rcases t.walk_cases hr hva with ⟨k', hk', hw⟩ | ⟨hno, -⟩
  · obtain rfl := t.unique (by omega) hk hk'
    exact hw
  · exact absurd hk (hno k)

theorem leaf_of_no_table (t : Tree L m own) {r va : Nat} (hr : own r = .node q 3 0)
    (hva : va < VA_MAX) (hno : ∀ k, own k ≠ .node q 1 (vpn va 1)) :
    walk m (PGSIZE * r) va = none ∧ leafPte m (PGSIZE * r) va = 0 := by
  rcases t.walk_cases hr hva with ⟨k', hk', -⟩ | ⟨-, hw⟩
  · exact absurd hk' (hno k')
  · exact hw

theorem table_of_leaf (t : Tree L m own) {r va : Nat} (hr : own r = .node q 3 0) (hva : va < VA_MAX)
    (h : leafPte m (PGSIZE * r) va ≠ 0) : ∃ k, own k = .node q 1 (vpn va 1) := by
  rcases t.walk_cases hr hva with ⟨k, hk, -⟩ | ⟨-, -, hl⟩
  · exact ⟨k, hk⟩
  · exact absurd hl h

theorem leaf_target (t : Tree L m own) {r va : Nat} (hr : own r = .node q 3 0)
    (hva : va < VA_MAX) (hv : leafPte m (PGSIZE * r) va % 2 = 1) :
    (∃ k, pteToPa (leafPte m (PGSIZE * r) va) = PGSIZE * k ∧ own k = .node q 0 (vpn va 0)) ∨
    (vpn va 0 = TRAMPOLINE_VPN ∧ pteToPa (leafPte m (PGSIZE * r) va) = L.trampoline) := by
  rcases t.walk_cases hr hva with ⟨k, hk, -, hl⟩ | ⟨-, -, hl⟩
  · rw [hl] at hv ⊢
    rcases t.down hk (vaToVpn_lt va 0) hv with ⟨c, hc, hown, -⟩ | ⟨-, htv, hpa⟩
    · exact .inl ⟨c, hc, by rwa [vpn_succ] at hown⟩
    · exact .inr ⟨by rwa [vpn_succ] at htv, hpa⟩
  · rw [hl] at hv; omega

/-- Two trees with the same lowest tables have the same leaf entries; a new table is empty. -/
theorem leaf_eq (t : Tree L m own) (t' : Tree L m' own') {r va : Nat} (hr : own r = .node q 3 0)
    (hr' : own' r = .node q 3 0) (hva : va < VA_MAX)
    (hold : ∀ k, own k = .node q 1 (vpn va 1) →
      own' k = .node q 1 (vpn va 1) ∧ entry m' k (vaToVpn va 0) = entry m k (vaToVpn va 0))
    (hnew : ∀ k, own' k = .node q 1 (vpn va 1) → own k ≠ .node q 1 (vpn va 1) →
      entry m' k (vaToVpn va 0) = 0) :
    leafPte m' (PGSIZE * r) va = leafPte m (PGSIZE * r) va := by
  rcases t.walk_cases hr hva with ⟨k, hk, -, hl⟩ | ⟨hno, -, hl⟩
  · rw [hl, (t'.leaf_of_table hr' hva (hold k hk).1).2, (hold k hk).2]
  · rcases t'.walk_cases hr' hva with ⟨k, hk, -, hl'⟩ | ⟨-, -, hl'⟩
    · rw [hl', hl, hnew k hk (hno k)]
    · rw [hl', hl]

theorem leaf_congr (t : Tree L m own) {r va : Nat} (hr : own r = .node q 3 0) (hva : va < VA_MAX)
    (h : ∀ {n q h v}, own n = .node q (h + 1) v → ∀ a, a / PGSIZE = n → m' a = m a) :
    leafPte m' (PGSIZE * r) va = leafPte m (PGSIZE * r) va := by
  have t' : Tree L m' own := t.congr fun n q k v hn hk => by
    obtain ⟨k, rfl⟩ : ∃ j, k = j + 1 := ⟨k - 1, by omega⟩
    exact h hn
  exact t.leaf_eq t' hr hr hva (fun k hk => ⟨hk, entry_congr (vaToVpn_lt va 0) (h hk)⟩)
    (fun k hk hno => absurd hk hno)

end Tree

/-! ## Pages taken for one process -/

/-- Free pages become nodes of `q`, and of the nodes only the tables of `q` are written. -/
structure Grows (q : Slot) (m : Bytes) (own : Nat → Owner) (m' : Bytes) (own' : Nat → Owner) :
    Prop where
  owner : ∀ n, own' n = own n ∨ own n = .free ∧ ∃ h v, own' n = .node q h v
  mem : ∀ {n q' h v}, own n = .node q' h v → (q' = q → h = 0) → ∀ a, a / PGSIZE = n → m' a = m a

namespace Grows

variable {q : Slot} {L : Layout} {m m' m'' : Bytes} {own own' own'' : Nat → Owner}

theorem refl (q : Slot) (m : Bytes) (own : Nat → Owner) : Grows q m own m own :=
  ⟨fun _ => .inl rfl, fun _ _ _ _ => rfl⟩

theorem keeps (g : Grows q m own m' own') {n : Nat} {o : Owner} (h : own n = o) (ho : o ≠ .free) :
    own' n = o := by
  rcases g.owner n with h' | ⟨h', -⟩
  · rw [h', h]
  · rw [h] at h'; exact absurd h' ho

theorem trans (g : Grows q m own m' own') (g' : Grows q m' own' m'' own'') :
    Grows q m own m'' own'' := by
  refine ⟨fun n => ?_, fun hn hq a ha => ?_⟩
  · rcases g.owner n with h | ⟨h, k, v, h'⟩
    · rcases g'.owner n with h' | ⟨h', hv⟩
      · exact .inl (h'.trans h)
      · exact .inr ⟨h ▸ h', hv⟩
    · refine .inr ⟨h, k, v, g'.keeps h' (by simp)⟩
  · rw [g'.mem (g.keeps hn (by simp)) hq a ha, g.mem hn hq a ha]

theorem others (g : Grows q m own m' own') {q' : Slot} (hq : q' ≠ q) {n h v : Nat} :
    own' n = .node q' h v ↔ own n = .node q' h v := by
  refine ⟨fun hn => ?_, fun hn => g.keeps hn (by simp)⟩
  rcases g.owner n with h' | ⟨-, _, _, h'⟩
  · rw [← h', hn]
  · rw [hn] at h'; cases h'; exact absurd rfl hq

theorem poke (g : Grows q m own m' own')
    (h : ∀ {n q' h v}, own n = .node q' h v → ∀ a, a / PGSIZE = n → m'' a = m' a) :
    Grows q m own m'' own' :=
  ⟨g.owner, fun hn hq a ha => (h hn a ha).trans (g.mem hn hq a ha)⟩

theorem leaf_others (g : Grows q m own m' own') (t : Tree L m own) (t' : Tree L m' own')
    {q' : Slot} (hq : q' ≠ q) {r va : Nat} (hr : own r = .node q' 3 0) (hva : va < VA_MAX) :
    leafPte m' (PGSIZE * r) va = leafPte m (PGSIZE * r) va := by
  refine t.leaf_eq t' hr (g.keeps hr (by simp)) hva (fun k hk => ⟨g.keeps hk (by simp), ?_⟩) ?_
  · exact entry_congr (vaToVpn_lt va 0) (g.mem hk fun h => absurd h hq)
  · intro k hk hno; exact absurd ((g.others hq).mp hk) hno

end Grows

/-- Tables were added below the root of `q`, and no address has another leaf entry. -/
structure Extended (L : Layout) (q : Slot) (s : Machine) (own : Nat → Owner) (s' : Machine)
    (own' : Nat → Owner) (l' : List Nat) : Prop where
  owned : Owned L s' own' l'
  rest : s'.rest = s.rest
  grows : Grows q s.mem own s'.mem own'
  leaf : ∀ {r va}, own r = .node q 3 0 → va < VA_MAX →
    leafPte s'.mem (PGSIZE * r) va = leafPte s.mem (PGSIZE * r) va

theorem Extended.trans {L : Layout} {q : Slot} {s s' s'' : Machine} {own own' own'' : Nat → Owner}
    {l' l'' : List Nat} (e : Extended L q s own s' own' l') (e' : Extended L q s' own' s'' own'' l'') :
    Extended L q s own s'' own'' l'' :=
  ⟨e'.owned, e'.rest.trans e.rest, e.grows.trans e'.grows, fun hr hva =>
    (e'.leaf (e.grows.keeps hr (by simp)) hva).trans (e.leaf hr hva)⟩

section Lacks

open Classical

/-- 1 if the node of height `h` on the walk for `va` has no page. -/
noncomputable def lacks (own : Nat → Owner) (q : Slot) (h va : Nat) : Nat :=
  if ∃ k, own k = .node q h (vpn va h) then 0 else 1

/-- The tables to be allocated for `va`. -/
noncomputable def missing (own : Nat → Owner) (q : Slot) (va : Nat) : Nat :=
  lacks own q 2 va + lacks own q 1 va

theorem lacks_of_node {own : Nat → Owner} {q : Slot} {h va k : Nat}
    (hk : own k = .node q h (vpn va h)) : lacks own q h va = 0 := if_pos ⟨k, hk⟩

theorem lacks_of_none {own : Nat → Owner} {q : Slot} {h va : Nat}
    (hk : ∀ k, own k ≠ .node q h (vpn va h)) : lacks own q h va = 1 :=
  if_neg fun ⟨k, h⟩ => hk k h

theorem lacks_congr {own own' : Nat → Owner} {q : Slot} {h va : Nat}
    (hk : ∀ k, own' k = .node q h (vpn va h) ↔ own k = .node q h (vpn va h)) :
    lacks own' q h va = lacks own q h va := by
  simp only [lacks, hk]

theorem missing_of_table {L : Layout} {m : Bytes} {own : Nat → Owner} {q : Slot} {va k : Nat}
    (t : Tree L m own) (hk : own k = .node q 1 (vpn va 1)) : missing own q va = 0 := by
  obtain ⟨k2, hk2, -⟩ := t.up hk (by omega) (by omega)
  rw [vpn_div] at hk2
  simp only [missing, lacks_of_node hk, lacks_of_node hk2]

theorem missing_le (own : Nat → Owner) (q : Slot) (va : Nat) : missing own q va ≤ 2 := by
  simp only [missing, lacks]
  split <;> split <;> omega

end Lacks

section Alloc

variable {L : Layout} {q : Slot} {s : Machine} {own : Nat → Owner} {l : List Nat}

theorem wp_walkLevel_true {n h va : Nat} (w : Owned L s own l)
    (hn : own n = .node q (h + 1) (vpn va (h + 1))) (hh : 0 < h) :
    Kern.wp (walkLevel (PGSIZE * n) va h true)
      (fun res s' => (res = none ∧ l.length < lacks own q h va ∧ s'.starved = true) ∨
        ∃ own' l' k, Extended L q s own s' own' l' ∧
          (∀ k h' v', own' k = .node q h' v' → own k = .node q h' v' ∨ h' = h ∧ v' = vpn va h) ∧
          res = some (PGSIZE * k) ∧ own' k = .node q h (vpn va h) ∧
          l.length = l'.length + lacks own q h va)
      (fun _ _ => False) s := by
  have hi := vaToVpn_lt va h
  simp only [walkLevel, Kern.wp_bind, wp_load64]
  rcases w.tree.next hn hh with ⟨k, hk, he, hnext⟩ | ⟨hno, he, -⟩
  · have hV : pteHas (Bytes.load 8 s.mem (PGSIZE * n + 8 * vaToVpn va h)) PTE_V = true :=
      (pteHas_V _).mpr he
    simp only [nextTable, hV, if_true, Option.some.injEq] at hnext
    simp only [hV, if_true, Kern.wp_pure, hnext]
    exact .inr ⟨own, l, k, ⟨w, rfl, .refl .., fun _ _ => rfl⟩, fun _ _ _ => .inl, rfl, hk,
      by rw [lacks_of_node hk]; rfl⟩
  have hV : pteHas (Bytes.load 8 s.mem (PGSIZE * n + 8 * vaToVpn va h)) PTE_V = false := by
    rw [Bool.eq_false_iff, ne_eq, pteHas_V]; simp only [entry] at he; omega
  simp only [hV, Bool.false_eq_true, if_false, Bool.not_true, Kern.wp_bind]
  refine wp_pmemAlloc w (fun hl => ?_) (fun c t hl => ?_)
  · exact .inl ⟨rfl, by rw [lacks_of_none hno, hl]; decide, rfl⟩
  subst hl
  have hfree := w.free c (by simp)
  have hc0 : PGSIZE * c ≠ 0 := by
    have := w.page_pos (n := c) (by simp [hfree]); simp only [PGSIZE]; omega
  have hc64 : PGSIZE * c < 2 ^ 64 := by
    have := w.page_lt (n := c) (by simp [hfree]); omega
  have hnc : n ≠ c := by rintro rfl; rw [hfree] at hn; cases hn
  simp only [hc0, if_false, Kern.wp_bind, wp_memset, taken_clear, wp_store64, table_or, Kern.wp_pure]
  -- the new page in hand, then linked
  have w1 := w.take (o := .other) (.inl rfl)
  have hn1 : Function.update own c .other n = .node q (h + 1) (vpn va (h + 1)) := by simpa [hnc]
  have hsame : ∀ k, k ≠ c → k ≠ n → ∀ a, a / PGSIZE = k →
      Bytes.store 8 (taken s false c).mem (PGSIZE * n + 8 * vaToVpn va h) (1024 * c + 1) a = s.mem a := by
    intro k hkc hkn a ha
    rw [store_outside hi (by rwa [ha]), taken_outside (by rwa [ha])]
  have he1 : entry (taken s false c).mem n (vaToVpn va h) % 2 = 0 := by
    rw [entry_congr hi (fun a ha => taken_outside (by rwa [ha]))]; exact he
  have htree := w1.tree.link hn1 hh hi he1 (by simp) (fun a => taken_inside) hc64
  rw [vpn_succ, Function.update_idem] at htree
  have hold : ∀ {k q' h' v'}, own k = .node q' h' v' →
      Function.update own c (.node q h (vpn va h)) k = .node q' h' v' := by
    intro k q' h' v' hk
    have : k ≠ c := by rintro rfl; rw [hfree] at hk; cases hk
    simpa [this] using hk
  have hnew : ∀ {k q' h' v'}, Function.update own c (.node q h (vpn va h)) k = .node q' h' v' →
      own k = .node q' h' v' ∨ k = c ∧ h' = h ∧ v' = vpn va h := by
    intro k q' h' v' hk
    by_cases hkc : k = c
    · subst hkc
      simp only [Function.update_self, Owner.node.injEq] at hk
      exact .inr ⟨rfl, hk.2.1.symm, hk.2.2.symm⟩
    · exact .inl (by simpa [hkc] using hk)
  refine .inr ⟨Function.update own c (.node q h (vpn va h)), t, c, ⟨?_, rfl, ⟨?_, ?_⟩, ?_⟩, ?_, rfl,
    by simp, by rw [lacks_of_none hno]; rfl⟩
  · refine ⟨?_, w1.nodup, ?_, w1.count, ?_, w.above, w.below, htree, fun k hk => w1.listed k ?_⟩
    · refine w1.chain.congr fun k hk a ha => ?_
      have hkf := w.free k (by simp [hk])
      refine store_outside hi ?_
      rw [ha]; rintro rfl; rw [hkf] at hn; cases hn
    · intro k hk
      have := w1.free k hk
      by_cases hkc : k = c
      · subst hkc; simp at this
      · simpa [hkc] using this
    · intro k hk
      refine w.region k ?_
      by_cases hkc : k = c
      · subst hkc; simp [hfree]
      · simpa [hkc] using hk
    · by_cases hkc : k = c
      · subst hkc; simp at hk
      · simpa [hkc] using hk
  · intro k
    by_cases hkc : k = c
    · subst hkc; exact .inr ⟨hfree, h, vpn va h, by simp⟩
    · exact .inl (by simp [hkc])
  · intro k q' h' v' hk hkq
    refine hsame k ?_ ?_
    · rintro rfl; rw [hfree] at hk; cases hk
    · rintro rfl; rw [hn] at hk; cases hk; have := hkq rfl; omega
  · intro r va' hr hva'
    refine w.tree.leaf_eq htree hr (hold hr) hva' (fun k hk => ⟨hold hk, ?_⟩) ?_
    · refine entry_congr (vaToVpn_lt va' 0) (hsame k ?_ ?_)
      · rintro rfl; rw [hfree] at hk; cases hk
      · rintro rfl; rw [hn] at hk; simp at hk; omega
    · intro k hk hno'
      rcases hnew hk with hk | ⟨rfl, -⟩
      · exact absurd hk hno'
      · refine entry_zero (vaToVpn_lt va' 0) fun a ha => ?_
        rw [store_outside hi (by rw [ha]; exact hnc.symm), taken_inside ha]
  · intro k h' v' hk
    rcases hnew hk with hk | ⟨-, hh'⟩
    · exact .inl hk
    · exact .inr hh'

theorem wp_vmGetpte_true {r va : Nat} (w : Owned L s own l) (hr : own r = .node q 3 0)
    (hva : va < VA_MAX) :
    Kern.wp (vmGetpte (PGSIZE * r) va true)
      (fun res s' => (res = none ∧ l.length < missing own q va ∧ s'.starved = true) ∨
        ∃ own' l' k, Extended L q s own s' own' l' ∧
          (∀ k h v, own' k = .node q h v → own k = .node q h v ∨ 0 < h ∧ v = vpn va h) ∧
          res = some (PGSIZE * k + 8 * vaToVpn va 0) ∧ own' k = .node q 1 (vpn va 1) ∧
          l.length = l'.length + missing own q va)
      (fun _ _ => False) s := by
  rw [← vpn_three hva] at hr
  simp only [vmGetpte, ge_iff_le, Nat.not_le.mpr hva, if_false, Kern.wp_bind]
  refine Kern.wp_conseq (wp_walkLevel_true w hr (by omega)) ?_ (fun _ _ h => h)
  rintro res2 s2 (⟨rfl, hlt, hs⟩ | ⟨own2, l2, k2, e2, hn2, rfl, hk2, hlen2⟩)
  · exact .inl ⟨rfl, by simp only [missing]; omega, hs⟩
  simp only [Kern.wp_bind]
  -- the first step has added no table of height 1
  have hl1 : lacks own2 q 1 va = lacks own q 1 va := by
    refine lacks_congr fun k => ⟨fun hk => ?_, fun hk => e2.grows.keeps hk (by simp)⟩
    rcases hn2 _ _ _ hk with hk | hk
    · exact hk
    · omega
  refine Kern.wp_conseq (wp_walkLevel_true e2.owned hk2 (by omega)) ?_ (fun _ _ h => h)
  rintro res1 s1 (⟨rfl, hlt, hs⟩ | ⟨own1, l1, k1, e1, hn1, rfl, hk1, hlen1⟩)
  · exact .inl ⟨rfl, by simp only [missing]; omega, hs⟩
  have hnodes : ∀ k h v, own1 k = .node q h v → own k = .node q h v ∨ 0 < h ∧ v = vpn va h := by
    intro k h v hk
    rcases hn1 k h v hk with hk | ⟨rfl, hv⟩
    · rcases hn2 k h v hk with hk | ⟨rfl, hv⟩
      · exact .inl hk
      · exact .inr ⟨by omega, hv⟩
    · exact .inr ⟨by omega, hv⟩
  exact .inr ⟨own1, l1, k1, e2.trans e1, hnodes, rfl, hk1, by simp only [missing]; omega⟩

/-- The leaf entry of `va` is now `p`, and all others of `q` are as before. -/
structure LeafSet (m : Bytes) (r va p : Nat) (m' : Bytes) : Prop where
  here : leafPte m' (PGSIZE * r) va = p
  other : ∀ va', va' < VA_MAX → va' / PGSIZE ≠ va / PGSIZE →
    leafPte m' (PGSIZE * r) va' = leafPte m (PGSIZE * r) va'

theorem leafSet_store {m : Bytes} {r va k p : Nat} (t : Tree L m own) (hr : own r = .node q 3 0)
    (hva : va < VA_MAX) (hk : own k = .node q 1 (vpn va 1)) (hp : p < 2 ^ 64)
    (t' : Tree L (Bytes.store 8 m (PGSIZE * k + 8 * vaToVpn va 0) p) own) :
    LeafSet m r va p (Bytes.store 8 m (PGSIZE * k + 8 * vaToVpn va 0) p) := by
  have hi := vaToVpn_lt va 0
  refine ⟨?_, fun va' hva' hne => ?_⟩
  · rw [(t'.leaf_of_table hr hva hk).2, entry_store hi hi hp, if_pos ⟨rfl, rfl⟩]
  · refine t.leaf_eq t' hr hr hva' (fun c hc => ⟨hc, ?_⟩) (fun c hc hno => absurd hc hno)
    rw [entry_store hi (vaToVpn_lt va' 0) hp, if_neg]
    rintro ⟨rfl, hv⟩
    rw [hk] at hc
    simp only [Owner.node.injEq, true_and] at hc
    have h1 := vpn_succ va 0
    have h2 := vpn_succ va' 0
    simp only [vpn_zero, Nat.zero_add] at h1 h2
    omega

theorem Owned.setLeaf {k v i p : Nat} (w : Owned L s own l) (hk : own k = .node q 1 v)
    (hi : i < 512) (hp : p < 2 ^ 64)
    (hto : p % 2 = 1 → (∃ c, pteToPa p = PGSIZE * c ∧ own c = .node q 0 (512 * v + i)) ∨
      512 * v + i = TRAMPOLINE_VPN ∧ pteToPa p = L.trampoline) :
    Owned L { s with mem := Bytes.store 8 s.mem (PGSIZE * k + 8 * i) p } own l := by
  refine { w with chain := w.chain.congr fun n hn a ha => store_outside hi ?_, tree := ?_ }
  · rw [ha]; rintro rfl; rw [w.free n hn] at hk; cases hk
  · exact w.tree.setLeaf hk hi hp hto

theorem Grows.setLeaf {m : Bytes} {k v i p : Nat} (hk : own k = .node q 1 v) (hi : i < 512) :
    Grows q m own (Bytes.store 8 m (PGSIZE * k + 8 * i) p) own := by
  refine ⟨fun _ => .inl rfl, fun hn hq a ha => store_outside hi ?_⟩
  rw [ha]; rintro rfl; rw [hk] at hn; cases hn; have := hq rfl; omega

theorem Owned.writeFrame {k v : Nat} {m' : Bytes} (w : Owned L s own l) (hk : own k = .node q 0 v)
    (hm : ∀ a, a / PGSIZE ≠ k → m' a = s.mem a) : Owned L { s with mem := m' } own l := by
  refine w.setMem fun n hn a ha => hm a ?_
  rw [ha]; rintro rfl
  rcases hn with hn | ⟨_, _, _, hn⟩ <;> rw [hk] at hn <;> cases hn

theorem Tree.leaf_writeFrame {k v : Nat} {m m' : Bytes} (t : Tree L m own)
    (hk : own k = .node q 0 v) (hm : ∀ a, a / PGSIZE ≠ k → m' a = m a) {q' : Slot} {r va : Nat}
    (hr : own r = .node q' 3 0) (hva : va < VA_MAX) :
    leafPte m' (PGSIZE * r) va = leafPte m (PGSIZE * r) va := by
  refine t.leaf_congr hr hva fun hn a ha => hm a ?_
  rw [ha]; rintro rfl; rw [hk] at hn; cases hn

/-- The page `va` of `q` was mapped with the entry `p`. -/
structure MappedPage (L : Layout) (q : Slot) (s : Machine) (own : Nat → Owner) (r va p : Nat)
    (s' : Machine) (own' : Nat → Owner) (l' : List Nat) : Prop where
  owned : Owned L s' own' l'
  rest : s'.rest = s.rest
  grows : Grows q s.mem own s'.mem own'
  leaf : LeafSet s.mem r va p s'.mem
  table : ∃ k, own' k = .node q 1 (vpn va 1)
  nodes : ∀ k h v, own' k = .node q h v → own k = .node q h v ∨ v = vpn va h

theorem Owned.root_page (w : Owned L s own l) {r : Nat} (hr : own r = .node q 3 0) :
    L.trampoline < 2 ^ 32 := by
  have h1 := w.region r (by simp [hr])
  have h2 := w.etext_le
  have h3 := w.below
  have h4 : PHYSTOP < 2 ^ 32 := by decide
  have h5 := L.trampoline_lt
  omega

theorem pgRoundDown_of_aligned {va : Nat} (h : va % PGSIZE = 0) : pgRoundDown va = va := by
  simp only [pgRoundDown, PGSIZE] at *; omega

theorem wp_vmMappages {r : Nat} (va k perm : Nat) (w : Owned L s own l) (hr : own r = .node q 3 0)
    (hva : va < VA_MAX) (hal : va % PGSIZE = 0) (hperm : perm < 1024)
    (hto : own k = .node q 0 (vpn va 0) ∨ vpn va 0 = TRAMPOLINE_VPN ∧ PGSIZE * k = L.trampoline) :
    Kern.wp (vmMappages (PGSIZE * r) va (PGSIZE * k) PGSIZE perm)
      (fun _ s' => ∃ own' l',
        MappedPage L q s own r va (1024 * k + (perm ||| 1)) s' own' l' ∧
          l.length = l'.length + missing own q va ∧
          ∀ k v, own' k = .node q 0 v → own k = .node q 0 v)
      (fun _ s' => l.length < missing own q va ∧ s'.starved = true) s := by
  have hk64 : PGSIZE * k < 2 ^ 32 := by
    rcases hto with hk | ⟨-, hk⟩
    · exact w.page_lt (by simp [hk])
    · rw [hk]; exact w.root_page hr
  have hend : pgRoundDown ((va + PGSIZE - 1) % 2 ^ 64) = va := by
    simp only [pgRoundDown, PGSIZE, VA_MAX] at *; omega
  simp only [vmMappages, PGSIZE, Nat.reduceEqDiff, if_false, mapLoop]
  simp only [Kern.wp_bind]
  rw [pgRoundDown_of_aligned hal]
  refine Kern.wp_conseq (wp_vmGetpte_true w hr hva) ?_ (fun _ _ h => h.elim)
  rintro res s' (⟨rfl, hlt, hs⟩ | ⟨own', l', c, e, hnodes, rfl, hc, hlen⟩)
  · exact ⟨hlt, hs⟩
  have hp : 1024 * k + (perm ||| 1) < 2 ^ 64 := by
    have := or_one_lt hperm; simp only [PGSIZE] at hk64; omega
  have hi := vaToVpn_lt va 0
  have hr' := e.grows.keeps hr (by simp)
  have hw : Owned L { s' with
      mem := Bytes.store 8 s'.mem (PGSIZE * c + 8 * vaToVpn va 0) (1024 * k + (perm ||| 1)) }
      own' l' := by
    refine e.owned.setLeaf hc hi hp fun _ => ?_
    rw [vpn_succ, pteToPa_page (or_one_lt hperm) (by omega)]
    rcases hto with hk | hk
    · exact .inl ⟨k, rfl, e.grows.keeps hk (by simp)⟩
    · exact .inr hk
  simp only [Kern.wp_bind, wp_store64, leaf_or k hperm, hend, if_true, Kern.wp_pure]
  have hleaf := leafSet_store e.owned.tree hr' hva hc hp hw.tree
  refine ⟨own', l', ⟨hw, e.rest, e.grows.trans (.setLeaf hc hi), ⟨hleaf.here, fun va' hva' hne => ?_⟩,
    ⟨c, hc⟩, fun k h v hk => (hnodes k h v hk).imp id And.right⟩, hlen, fun k v hk => ?_⟩
  · rw [← e.leaf hr hva']
    exact hleaf.other va' hva' hne
  · exact (hnodes k 0 v hk).resolve_right fun h => absurd h.1 (by decide)

/-- The page `va` of `q` was unmapped, and its frame `k` is the first free page. -/
structure UnmappedPage (L : Layout) (q : Slot) (s : Machine) (own : Nat → Owner) (l : List Nat)
    (r va k : Nat) (s' : Machine) : Prop where
  frame : own k = .node q 0 (vpn va 0)
  owned : Owned L s' (Function.update own k .free) (k :: l)
  rest : s'.rest = s.rest
  leaf : LeafSet s.mem r va 0 s'.mem
  mem : ∀ n, n ≠ k → (∀ h v, own n = .node q h v → h = 0) → ∀ a, a / PGSIZE = n → s'.mem a = s.mem a

theorem pmemFree_trampoline {Q : Unit → Machine → Prop} (w : Owned L s own l) :
    Kern.wp (pmemFree L.trampoline false) Q
      (fun e s' => e = .panic "pmem_free: page out of region bounds" ∧ s' = s) s := by
  have h1 := w.etext_le
  have h2 : L.trampoline < s.user.beginAddr := by have := L.trampoline_lt; omega
  simp only [pmemFree, getRegion, Kern.wp_bind, Kern.wp_get, Kern.wp_pure, Bool.false_eq_true,
    if_false, L.trampoline_aligned, ne_eq, not_true_eq_false, h2, decide_true, Bool.true_or,
    if_true, Kern.wp_panic]
  exact ⟨trivial, trivial⟩

/-- The page `va` is mapped by a leaf entry to a page other than the trampoline. -/
structure Unmappable (L : Layout) (m : Bytes) (pgtbl va : Nat) : Prop where
  low : va < VA_MAX
  valid : pteHas (leafPte m pgtbl va) PTE_V = true
  leaf : pteFlags (leafPte m pgtbl va) ≠ PTE_V
  page : pteToPa (leafPte m pgtbl va) ≠ L.trampoline

theorem Unmappable.congr {m m' : Bytes} {pgtbl va : Nat} (h : Unmappable L m pgtbl va)
    (he : leafPte m' pgtbl va = leafPte m pgtbl va) : Unmappable L m' pgtbl va := by
  obtain ⟨h1, h2, h3, h4⟩ := h
  exact ⟨h1, by rwa [he], by rwa [he], by rwa [he]⟩

theorem Owned.ne_trampoline (w : Owned L s own l) {k : Nat} (hk : own k ≠ .other) :
    PGSIZE * k ≠ L.trampoline := by
  have h1 := w.region k hk
  have h2 := w.etext_le
  have h3 := L.trampoline_lt
  omega

theorem wp_unmapPage {r va : Nat} (w : Owned L s own l) (hr : own r = .node q 3 0) :
    Kern.wp (unmapPage (PGSIZE * r) va true)
      (fun _ s' => Unmappable L s.mem (PGSIZE * r) va ∧
        ∃ k, pteToPa (leafPte s.mem (PGSIZE * r) va) = PGSIZE * k ∧
          UnmappedPage L q s own l r va k s')
      (fun _ s' => ¬ Unmappable L s.mem (PGSIZE * r) va ∧ s' = s) s := by
  simp only [unmapPage, Kern.wp_bind, wp_vmGetpte_false]
  split
  case isFalse => rename_i h; exact ⟨fun hu => h hu.low, trivial⟩
  rename_i hva
  rcases w.tree.walk_cases hr hva with ⟨c, hc, hw, hl⟩ | ⟨-, hw, hl⟩
  case inr =>
    rw [hw]
    refine ⟨fun hu => ?_, rfl⟩
    have := hu.valid
    rw [hl] at this
    cases this
  have hi := vaToVpn_lt va 0
  have hent : Bytes.load 8 s.mem (PGSIZE * c + 8 * vaToVpn va 0) = leafPte s.mem (PGSIZE * r) va :=
    hl.symm
  simp only [hw, Kern.wp_bind, wp_load64, hent]
  cases hv : pteHas (leafPte s.mem (PGSIZE * r) va) PTE_V with
  | false =>
    simp only [Bool.not_false, if_true, Kern.wp_bind, Kern.wp_panic, and_true]
    intro hu
    rw [hu.valid] at hv
    cases hv
  | true =>
    simp only [Bool.not_true, Bool.false_eq_true, if_false]
    split
    · rename_i hf
      simp only [Kern.wp_bind, Kern.wp_panic, and_true]
      exact fun hu => hu.leaf hf
    rename_i hf
    have hodd : leafPte s.mem (PGSIZE * r) va % 2 = 1 := (pteHas_V _).mp hv
    simp only [if_true, Kern.wp_bind]
    rcases w.tree.leaf_target hr hva hodd with ⟨k, hk, hown⟩ | ⟨-, hk⟩
    · have hpage := w.ne_trampoline (k := k) (by simp [hown])
      rw [hk]
      refine wp_pmemFree (w.region k (by simp [hown])) ?_
      have hc' : own c = .node q 1 (vpn va 0 / 512) := by rw [vpn_div]; exact hc
      have hg := w.give hown hc'
      rw [vpn_mod] at hg
      have hck : c ≠ k := by rintro rfl; rw [hown] at hc; cases hc
      have hfre : Tree L (given s false k).mem own :=
        w.tree.congr fun n q' h v hn hpos a ha => given_outside (by
          rw [ha]; rintro rfl; rw [hown] at hn; cases hn; omega)
      have ht : Tree L (Bytes.store 8 (given s false k).mem (PGSIZE * c + 8 * vaToVpn va 0) 0) own :=
        hfre.setLeaf hc hi (by decide) (by omega)
      have hls := leafSet_store hfre hr hva hc (by decide) ht
      refine ⟨⟨hva, hv, hf, by rwa [hk]⟩, k, rfl, hown, hg, rfl,
        ⟨hls.here, fun va' hva' hne => ?_⟩, fun n hn hq a ha => ?_⟩
      · rw [hls.other va' hva' hne]
        refine w.tree.leaf_eq hfre hr hr hva' (fun n hn => ⟨hn, ?_⟩) (fun n hn hno => absurd hn hno)
        refine entry_congr (vaToVpn_lt va' 0) fun a ha => given_outside ?_
        rw [ha]; rintro rfl; rw [hown] at hn; cases hn
      · dsimp only
        rw [store_outside hi, given_outside (by rwa [ha])]
        rw [ha]; rintro rfl; have := hq _ _ hc; omega
    · rw [hk]
      refine Kern.wp_conseq (pmemFree_trampoline (Q := fun _ _ => False) w) (fun _ _ h => h.elim) ?_
      rintro _ _ ⟨-, rfl⟩
      exact ⟨fun hu => hu.page hk, rfl⟩

end Alloc

end Mem
end WhuOS
