import WhuOS.Mem.Pmem

/-!
# WhuOS.Mem.Table

Page tables, and `vm_mappages` and `vm_unmappages` on them.

The tables are known by a ghost map: `tab j v` is the page of table `v` of level `j`, where level 2
is the root and table `v` of level `j + 1` has the tables `512 * v + i` of level `j` below it. The
entries of level 0 are free (`leafAt`), so the same frame may be mapped at several addresses.

* `PageTable`            — the entries above level 0 are the links that `tab` says.
* `Building`             — with the free list, and a bound on the tables still to come.
* `vmMappages_spec`      — a range of pages is mapped, everything else stays.
* `vmUnmappages_spec`    — a range of pages is unmapped, everything else stays.
-/

namespace WhuOS
namespace Mem

open Lib Kern

variable {m : Bytes} {tab : Nat → Nat → Option Nat} {j v n i k : Nat}

/-! ## The tables -/

/-- An entry above level 0 is a pointer to the table in page `k`, or it is invalid. -/
def Points (pte : Nat) : Option Nat → Prop
  | some k => pteHas pte PTE_V = true ∧ pteCheck pte = true ∧ pteToPa pte = PGSIZE * k
  | none => pteHas pte PTE_V = false

theorem pteHas_flags {mask : Nat} (pte : Nat) (h : mask < 1024) :
    pteHas pte mask = pteHas (pteFlags pte) mask := by
  have hlt : pte &&& mask < 2 ^ 10 := Nat.lt_of_le_of_lt Nat.and_le_right h
  have heq : pte &&& mask = pteFlags pte &&& mask := by
    rw [← Nat.mod_eq_of_lt hlt, Nat.and_mod_two_pow, Nat.mod_eq_of_lt (show mask < 2 ^ 10 from h)]
    rfl
  rw [pteHas, pteHas, heq]

variable {f r a : Nat} {freeit : Bool}

theorem pteFlags_page (n : Nat) (hf : f < 1024) : pteFlags (1024 * n + f) = f := by
  simp only [pteFlags]; omega

theorem points_table (h : PGSIZE * k < 2 ^ 64) : Points (1024 * k + 1) (some k) := by
  refine ⟨(pteHas_V _).mpr (by omega), ?_, pteToPa_page (by decide) h⟩
  rw [pteCheck, pteHas_flags _ (by decide), pteFlags_page k (by decide)]
  decide

theorem points_zero : Points 0 none := pteHas_zero PTE_V

/-- The tables `v` of level `j`. -/
def IsPlace (j v : Nat) : Prop := j = 2 ∧ v = 0 ∨ j = 1 ∧ v < 512 ∨ j = 0 ∧ v < 512 * 512

instance (j v : Nat) : Decidable (IsPlace j v) := inferInstanceAs (Decidable (_ ∨ _))

theorem isPlace_child (h : IsPlace (j + 1) v) (hi : i < 512) : IsPlace j (512 * v + i) := by
  unfold IsPlace at *; omega

structure PageTable (m : Bytes) (tab : Nat → Nat → Option Nat) : Prop where
  links : ∀ {j v n i}, tab (j + 1) v = some n → i < 512 →
    Points (entry m n i) (tab j (512 * v + i))
  parent : ∀ {j v k}, tab j v = some k → j < 2 → ∃ n, tab (j + 1) (v / 512) = some n
  place : ∀ {j v n}, tab j v = some n → IsPlace j v
  inj : ∀ {j v j' v' n}, tab j v = some n → tab j' v' = some n → j = j' ∧ v = v'
  page : ∀ {j v n}, tab j v = some n → PGSIZE * n < 2 ^ 64

/-- The entry for page `v`; 0 if there is no table for it. -/
def leafAt (m : Bytes) (tab : Nat → Nat → Option Nat) (v : Nat) : Nat :=
  match tab 0 (v / 512) with
  | some k => entry m k (v % 512)
  | none => 0

namespace PageTable

theorem nextTable_eq (h : PageTable m tab) (hn : tab (j + 1) v = some n) (hi : i < 512) :
    nextTable m (PGSIZE * n + 8 * i) = (tab j (512 * v + i)).map (PGSIZE * ·) := by
  have he : Points (Bytes.load 8 m (PGSIZE * n + 8 * i)) _ := h.links hn hi
  cases hk : tab j (512 * v + i) with
  | none =>
    rw [hk] at he
    exact if_neg (Bool.eq_false_iff.mp he)
  | some k =>
    rw [hk] at he
    rw [nextTable, if_pos he.1, he.2.2]
    rfl

variable {r : Nat}

theorem walk_eq (h : PageTable m tab) {va : Nat} (hr : tab 2 0 = some r) (hva : va < VA_MAX) :
    walk m (PGSIZE * r) va = (tab 0 (vpn va 1)).map fun k => PGSIZE * k + 8 * vaToVpn va 0 := by
  have h2 : 512 * 0 + vaToVpn va 2 = vpn va 2 := by
    have := vpn_succ va 2
    rwa [vpn_three hva] at this
  have h1 : 512 * vpn va 2 + vaToVpn va 1 = vpn va 1 := vpn_succ va 1
  have hup : vpn va 1 / 512 = vpn va 2 := vpn_div va 1
  rw [walk, h.nextTable_eq hr (vaToVpn_lt va 2), h2]
  cases hmid : tab 1 (vpn va 2) with
  | none =>
    cases hk : tab 0 (vpn va 1) with
    | none => rfl
    | some k =>
      obtain ⟨n, hn⟩ := h.parent hk (by decide)
      rw [hup, hmid] at hn; cases hn
  | some n =>
    simp only [Option.map_some]
    rw [h.nextTable_eq hmid (vaToVpn_lt va 1), h1]
    cases tab 0 (vpn va 1) <;> rfl

theorem leafPte_eq (h : PageTable m tab) {va : Nat} (hr : tab 2 0 = some r) (hva : va < VA_MAX) :
    leafPte m (PGSIZE * r) va = leafAt m tab (va / PGSIZE) := by
  have h0 : va / PGSIZE / 512 = vpn va 1 := vpn_div va 0
  have hlow : va / PGSIZE % 512 = vaToVpn va 0 := vpn_mod va 0
  rw [leafPte, h.walk_eq hr hva, leafAt, h0, hlow]
  cases tab 0 (vpn va 1) <;> rfl

theorem isTable (h : PageTable m tab) {a : Nat} (hr : tab 2 0 = some r)
    (ha : IsTable m (PGSIZE * r) a) : ∃ j v n, tab j v = some n ∧ a = PGSIZE * n := by
  rcases ha with rfl | ⟨i, hi, b, hb, ha⟩
  · exact ⟨2, 0, r, hr, rfl⟩
  rw [h.nextTable_eq hr hi, Option.map_eq_some_iff] at hb
  obtain ⟨n, hn, rfl⟩ := hb
  rcases ha with rfl | ⟨i', hi', ha⟩
  · exact ⟨1, _, n, hn, rfl⟩
  rw [h.nextTable_eq hn hi', Option.map_eq_some_iff] at ha
  obtain ⟨k, hk, rfl⟩ := ha
  exact ⟨0, _, k, hk, rfl⟩

theorem congr {m' : Bytes} (h : PageTable m tab)
    (hm : ∀ j v n, tab j v = some n → ∀ a, a / PGSIZE = n → m' a = m a) :
    PageTable m' tab ∧ ∀ v, leafAt m' tab v = leafAt m tab v := by
  refine ⟨⟨fun hn hi => ?_, h.parent, h.place, h.inj, h.page⟩, fun v => ?_⟩
  · rw [entry_congr hi (hm _ _ _ hn)]
    exact h.links hn hi
  · unfold leafAt
    cases hk : tab 0 (v / 512) with
    | none => rfl
    | some k => exact entry_congr (Nat.mod_lt _ (by decide)) (hm _ _ _ hk)

theorem setLeaf (h : PageTable m tab) {p : Nat} (hk : tab 0 v = some k) (hi : i < 512)
    (hp : p < 2 ^ 64) :
    PageTable (Bytes.store 8 m (PGSIZE * k + 8 * i) p) tab ∧
      ∀ w, leafAt (Bytes.store 8 m (PGSIZE * k + 8 * i) p) tab w =
        if w = 512 * v + i then p else leafAt m tab w := by
  refine ⟨⟨fun {j u n i'} hn hi' => ?_, h.parent, h.place, h.inj, h.page⟩, fun w => ?_⟩
  · rw [entry_store hi hi' hp, if_neg]
    · exact h.links hn hi'
    rintro ⟨rfl, -⟩
    have := (h.inj hn hk).1
    omega
  · unfold leafAt
    cases hw : tab 0 (w / 512) with
    | none =>
      rw [if_neg]
      rintro rfl
      rw [show (512 * v + i) / 512 = v by omega, hk] at hw; cases hw
    | some c =>
      dsimp only
      rw [entry_store hi (Nat.mod_lt _ (by decide)) hp]
      by_cases hwv : w = 512 * v + i
      · subst hwv
        rw [show (512 * v + i) / 512 = v by omega, hk] at hw
        cases hw
        rw [if_pos ⟨rfl, by omega⟩, if_pos rfl]
      · rw [if_neg hwv, if_neg]
        rintro ⟨rfl, hmod⟩
        have := (h.inj hw hk).2
        omega

/-- A cleared page becomes a table of level `j`, below entry `i` of the table in page `n`. -/
theorem link (h : PageTable m tab) {c : Nat} (hj : j < 2) (hn : tab (j + 1) v = some n) (hi : i < 512)
    (hnone : tab j (512 * v + i) = none) (hc : ∀ j v, tab j v ≠ some c)
    (hz : ∀ a, a / PGSIZE = c → m a = 0) (hp : PGSIZE * c < 2 ^ 64) :
    PageTable (Bytes.store 8 m (PGSIZE * n + 8 * i) (1024 * c + 1))
        (upd tab j (upd (tab j) (512 * v + i) (some c))) ∧
      ∀ w, leafAt (Bytes.store 8 m (PGSIZE * n + 8 * i) (1024 * c + 1))
        (upd tab j (upd (tab j) (512 * v + i) (some c))) w = leafAt m tab w := by
  have hp' : 1024 * c + 1 < 2 ^ 64 := by simp only [PGSIZE] at hp; omega
  have hnew : ∀ {j' v' k}, upd tab j (upd (tab j) (512 * v + i) (some c)) j' v' = some k →
      (j' = j ∧ v' = 512 * v + i) ∧ k = c ∨ tab j' v' = some k := by
    intro j' v' k hk
    rw [upd_pair] at hk
    split at hk
    · rename_i hjv; cases hk; exact .inl ⟨hjv, rfl⟩
    · exact .inr hk
  have hold : ∀ {j' v' k}, tab j' v' = some k →
      upd tab j (upd (tab j) (512 * v + i) (some c)) j' v' = some k := by
    intro j' v' k hk
    rw [upd_pair, if_neg]
    · exact hk
    · rintro ⟨rfl, rfl⟩; rw [hnone] at hk; cases hk
  -- the new table is empty
  have hzero : ∀ {i'}, i' < 512 → entry m c i' = 0 := fun hi' => entry_zero hi' hz
  have hnc : n ≠ c := by rintro rfl; exact hc _ _ hn
  refine ⟨⟨fun {j' u n' i'} hn' hi' => ?_, fun {j' u k} hk hj' => ?_, fun {j' u k} hk => ?_,
    fun {j1 v1 j2 v2 k} h1 h2 => ?_, fun {j' u k} hk => ?_⟩, fun w => ?_⟩
  · rw [entry_store hi hi' hp', upd_pair]
    rcases hnew hn' with ⟨⟨hj', hu⟩, rfl⟩ | hno
    · rw [if_neg (by rintro ⟨rfl, -⟩; exact hnc rfl), hzero hi', if_neg (by omega)]
      -- a table below the new one would have it as its parent
      cases hk : tab j' (512 * u + i') with
      | none => exact points_zero
      | some k =>
        obtain ⟨n'', hn''⟩ := h.parent hk (by omega)
        rw [hj', show (512 * u + i') / 512 = u by omega, hu, hnone] at hn''
        cases hn''
    · by_cases hhere : n' = n ∧ i' = i
      · obtain ⟨rfl, rfl⟩ := hhere
        obtain ⟨hj', rfl⟩ := h.inj hno hn
        obtain rfl : j' = j := by omega
        rw [if_pos ⟨rfl, rfl⟩, if_pos ⟨rfl, rfl⟩]
        exact points_table hp
      · rw [if_neg hhere, if_neg]
        · exact h.links hno hi'
        rintro ⟨rfl, hw⟩
        obtain rfl : u = v := by omega
        rw [hn] at hno
        cases hno
        exact hhere ⟨rfl, by omega⟩
  · rcases hnew hk with ⟨⟨rfl, rfl⟩, rfl⟩ | hk
    · exact ⟨n, by rw [show (512 * v + i) / 512 = v by omega]; exact hold hn⟩
    · obtain ⟨n', hn'⟩ := h.parent hk hj'
      exact ⟨n', hold hn'⟩
  · rcases hnew hk with ⟨⟨rfl, rfl⟩, rfl⟩ | hk
    · exact isPlace_child (h.place hn) hi
    · exact h.place hk
  · rcases hnew h1 with ⟨⟨rfl, rfl⟩, rfl⟩ | ho1 <;> rcases hnew h2 with ⟨⟨rfl, rfl⟩, hc2⟩ | ho2
    · exact ⟨rfl, rfl⟩
    · exact absurd ho2 (hc _ _)
    · rw [hc2] at ho1; exact absurd ho1 (hc _ _)
    · exact h.inj ho1 ho2
  · rcases hnew hk with ⟨-, rfl⟩ | hk
    · exact hp
    · exact h.page hk
  · unfold leafAt
    rw [upd_pair]
    by_cases hw : 0 = j ∧ w / 512 = 512 * v + i
    · rw [if_pos hw]
      dsimp only
      obtain ⟨rfl, hw⟩ := hw
      rw [hw, hnone, entry_store hi (Nat.mod_lt _ (by decide)) hp',
        if_neg (by rintro ⟨rfl, -⟩; exact hnc rfl), hzero (Nat.mod_lt _ (by decide))]
    · rw [if_neg hw]
      cases hk : tab 0 (w / 512) with
      | none => rfl
      | some k =>
        dsimp only
        rw [entry_store hi (Nat.mod_lt _ (by decide)) hp', if_neg]
        rintro ⟨rfl, -⟩
        have := (h.inj hk hn).1
        omega

end PageTable

/-! ## With the free list -/

/-- The tables, and the list `l` of free pages. -/
structure PageTables (s : Machine) (tab : Nat → Nat → Option Nat) (l : List Nat) : Prop where
  list : FreeList s false l
  table : PageTable s.mem tab
  apart : ∀ {j v n}, tab j v = some n → n ∉ l

/-- From one state to the next: the tables `new` are made of pages of the list, and some pages get
new entries `put`. -/
structure Maps (s : Machine) (tab : Nat → Nat → Option Nat) (l : List Nat) (put : Nat → Option Nat)
    (new : List (Nat × Nat)) (s' : Machine) (tab' : Nat → Nat → Option Nat) (l' : List Nat) :
    Prop where
  tables : PageTables s' tab' l'
  keeps : ∀ {j v n}, tab j v = some n → tab' j v = some n
  fresh : ∀ {j v n}, tab' j v = some n → tab j v = some n ∨ n ∈ l
  sub : l' ⊆ l
  leaf : ∀ v, leafAt s'.mem tab' v = (put v).getD (leafAt s.mem tab v)
  mem : ∀ a, (∀ j v, tab' j v ≠ some (a / PGSIZE)) → s'.mem a = s.mem a
  region : s'.user.beginAddr = s.user.beginAddr ∧ s'.user.endAddr = s.user.endAddr
  added : ∀ j v, tab' j v ≠ none ↔ tab j v ≠ none ∨ (j, v) ∈ new
  absent : ∀ p ∈ new, tab p.1 p.2 = none
  nodup : new.Nodup
  count : new.length + l'.length = l.length

/-- There are not enough free pages for the tables `new`, which are missing. -/
structure Short (tab : Nat → Nat → Option Nat) (l : List Nat) (new : List (Nat × Nat)) : Prop where
  absent : ∀ p ∈ new, tab p.1 p.2 = none
  nodup : new.Nodup
  count : l.length < new.length

variable {s s' s'' : Machine} {tab' tab'' : Nat → Nat → Option Nat} {l l' l'' : List Nat}
  {put put' : Nat → Option Nat} {new new' : List (Nat × Nat)}

theorem Maps.refl (b : PageTables s tab l) : Maps s tab l (fun _ => none) [] s tab l := by
  refine ⟨b, fun h => h, .inl, List.Subset.refl l, fun _ => rfl, fun _ _ => rfl, ⟨rfl, rfl⟩,
    fun _ _ => ?_, ?_, List.nodup_nil, ?_⟩
  · simp
  · simp
  · simp

theorem Maps.disjoint (h : Maps s tab l put new s' tab' l') (hab : ∀ p ∈ new', tab' p.1 p.2 = none) :
    (new'.Nodup → (new ++ new').Nodup) ∧ ∀ p ∈ new ++ new', tab p.1 p.2 = none := by
  have hold : ∀ p ∈ new', p ∉ new := fun p hp hp' => (h.added p.1 p.2).mpr (.inr hp') (hab p hp)
  refine ⟨fun hn => List.nodup_append.mpr ⟨h.nodup, hn, ?_⟩, fun p hp => ?_⟩
  · rintro p hp q hq rfl; exact hold p hq hp
  · rcases List.mem_append.mp hp with hp | hp
    · exact h.absent p hp
    · by_contra hne
      exact (h.added p.1 p.2).mpr (.inl hne) (hab p hp)

theorem Maps.trans (h : Maps s tab l put new s' tab' l') (h' : Maps s' tab' l' put' new' s'' tab'' l'') :
    Maps s tab l (fun v => (put' v).or (put v)) (new ++ new') s'' tab'' l'' := by
  obtain ⟨hnodup, habsent⟩ := h.disjoint h'.absent
  refine ⟨h'.tables, fun hn => h'.keeps (h.keeps hn), fun hn => ?_, fun x hx => h.sub (h'.sub hx),
    fun v => ?_, fun a ha => ?_, ⟨h'.region.1.trans h.region.1, h'.region.2.trans h.region.2⟩,
    fun j v => ?_, habsent, hnodup h'.nodup, ?_⟩
  · rcases h'.fresh hn with hn | hn
    · exact h.fresh hn
    · exact .inr (h.sub hn)
  · rw [h'.leaf v, h.leaf v]
    cases put' v <;> rfl
  · rw [h'.mem a ha, h.mem a fun j v hk => ha j v (h'.keeps hk)]
  · rw [h'.added, h.added, List.mem_append, or_assoc]
  · have h1 := h.count
    have h2 := h'.count
    rw [List.length_append]; omega

theorem Maps.short (h : Maps s tab l put new s' tab' l') (h' : Short tab' l' new') :
    Short tab l (new ++ new') := by
  obtain ⟨hnodup, habsent⟩ := h.disjoint h'.absent
  refine ⟨habsent, hnodup h'.nodup, ?_⟩
  have h1 := h.count
  have h2 := h'.count
  rw [List.length_append]; omega

theorem PageTables.link {c : Nat} (b : PageTables s tab (c :: l)) (hj : j < 2) (hn : tab (j + 1) v = some n)
    (hi : i < 512) (hnone : tab j (512 * v + i) = none) {m' : Bytes}
    (hm : m' = (taken s false c).mem) :
    Maps s tab (c :: l) (fun _ => none) [(j, 512 * v + i)]
      { taken s false c with mem := Bytes.store 8 m' (PGSIZE * n + 8 * i) (1024 * c + 1) }
      (upd tab j (upd (tab j) (512 * v + i) (some c))) l := by
  subst hm
  have hc : ∀ j v, tab j v ≠ some c := fun j v h => b.apart h (by simp)
  have hcl : c ∉ l := (List.nodup_cons.mp b.list.nodup).1
  obtain ⟨ht1, hl1⟩ := b.table.congr fun j v k hk a ha =>
    show (taken s false c).mem a = s.mem a from
      taken_outside (by rw [ha]; rintro rfl; exact hc _ _ hk)
  have hz : ∀ a, a / PGSIZE = c → (taken s false c).mem a = 0 := fun a => taken_inside
  obtain ⟨ht2, hl2⟩ := ht1.link hj hn hi hnone hc hz (b.list.page c (by simp)).2
  have hnl : n ∉ l := fun h => b.apart hn (List.mem_cons_of_mem _ h)
  have hkeeps : ∀ {j' v' k}, tab j' v' = some k →
      upd tab j (upd (tab j) (512 * v + i) (some c)) j' v' = some k := by
    intro j' v' k hk
    rw [upd_pair, if_neg]
    · exact hk
    · rintro ⟨rfl, rfl⟩; rw [hnone] at hk; cases hk
  refine ⟨⟨?_, ht2, fun {j' v' k} hk hkl => ?_⟩, hkeeps, fun {j' v' k} hk => ?_,
    List.subset_cons_self c l, fun w => (hl2 w).trans (hl1 w), fun a ha => ?_, ⟨rfl, rfl⟩,
    fun j' v' => ?_, by simpa using hnone, List.nodup_singleton _, by simp [Nat.add_comm]⟩
  · refine b.list.taken.congr rfl fun k hk a ha => store_outside hi ?_
    rw [ha]; rintro rfl; exact hnl hk
  · rw [upd_pair] at hk
    split at hk
    · cases hk; exact hcl hkl
    · exact b.apart hk (List.mem_cons_of_mem _ hkl)
  · rw [upd_pair] at hk
    split at hk
    · cases hk; exact .inr (by simp)
    · exact .inl hk
  · have hac : a / PGSIZE ≠ c := fun h => ha j (512 * v + i) (by rw [upd_pair, if_pos ⟨rfl, rfl⟩, h])
    exact (store_outside hi fun h => ha _ _ (h ▸ hkeeps hn)).trans (taken_outside hac)
  · rw [upd_pair, List.mem_singleton, Prod.mk.injEq]
    split
    · rename_i h; simp [h]
    · rename_i h; simp [h]

theorem tables_root (hl : FreeList s false (r :: l)) : ∃ tab,
    PageTables (taken s false r) tab l ∧ tab 2 0 = some r ∧ (∀ j v, tab j v ≠ none ↔ (j, v) = (2, 0)) ∧
      ∀ v, leafAt (taken s false r).mem tab v = 0 := by
  have hroot : ∀ {j v n : Nat}, (if j = 2 ∧ v = 0 then some r else none) = some n →
      (j = 2 ∧ v = 0) ∧ n = r := by
    intro j v n h
    split at h
    · rename_i hjv; cases h; exact ⟨hjv, rfl⟩
    · cases h
  refine ⟨fun j v => if j = 2 ∧ v = 0 then some r else none,
    ⟨hl.taken, ⟨fun {j v n i} hn hi => ?_, fun hk hj => ?_, fun hk => .inl (hroot hk).1,
      fun h1 h2 => ?_, fun hk => ?_⟩, fun hk => ?_⟩, if_pos ⟨rfl, rfl⟩, fun j v => ?_, fun v => ?_⟩
  · obtain ⟨⟨hj, -⟩, rfl⟩ := hroot hn
    rw [if_neg (by omega), entry_zero hi fun a ha => ?_]
    · exact points_zero
    exact taken_inside ha
  · have := (hroot hk).1.1
    omega
  · obtain ⟨⟨rfl, rfl⟩, -⟩ := hroot h1
    obtain ⟨⟨rfl, rfl⟩, -⟩ := hroot h2
    exact ⟨rfl, rfl⟩
  · obtain ⟨-, rfl⟩ := hroot hk
    exact (hl.page _ (by simp)).2
  · obtain ⟨-, rfl⟩ := hroot hk
    exact (List.nodup_cons.mp hl.nodup).1
  · by_cases h : j = 2 ∧ v = 0
    · simp [h]
    · simp [h]
  · simp [leafAt]

/-! ## `vm_mappages` -/

/-- One level of the walk finds the table or makes it, or there is no page for it. -/
theorem walkLevel_spec (va : Nat) (b : PageTables s tab l) (hj : j < 2) (hn : tab (j + 1) v = some n) :
    (∃ k new s' tab' l', walkLevel (PGSIZE * n) va (j + 1) true s = .ok (some (PGSIZE * k)) s' ∧
      Maps s tab l (fun _ => none) new s' tab' l' ∧
      tab' j (512 * v + vaToVpn va (j + 1)) = some k ∧ new ⊆ [(j, 512 * v + vaToVpn va (j + 1))]) ∨
    (∃ s', walkLevel (PGSIZE * n) va (j + 1) true s = .ok none s' ∧
      Short tab l [(j, 512 * v + vaToVpn va (j + 1))]) := by
  have hi := vaToVpn_lt va (j + 1)
  have he : Points (Bytes.load 8 s.mem (PGSIZE * n + 8 * vaToVpn va (j + 1))) _ := b.table.links hn hi
  rw [walkLevel, bind_of_ok (load64_run ..)]
  cases hk : tab j (512 * v + vaToVpn va (j + 1)) with
  | some k =>
    rw [hk] at he
    refine .inl ⟨k, [], s, tab, l, ?_, .refl b, hk, List.nil_subset _⟩
    simp only [he.1, if_true, he.2.2]
    rfl
  | none =>
    have hV : pteHas (Bytes.load 8 s.mem (PGSIZE * n + 8 * vaToVpn va (j + 1))) PTE_V = false := by
      rw [hk] at he; exact he
    cases l with
    | nil =>
      refine .inr ⟨{ s with starved := true }, ?_, by simpa using hk, List.nodup_singleton _, by simp⟩
      simp only [hV, Bool.false_eq_true, if_false, Bool.not_true,
        bind_of_ok (pmemAlloc_nil b.list)]
      rfl
    | cons c l =>
      refine .inl ⟨c, _, _, _, l, ?_, b.link hj hn hi hk (taken_clear s false c),
        by rw [upd_pair]; simp, List.Subset.refl _⟩
      have hpos : PGSIZE * c ≠ 0 := by
        have := (b.list.page c (by simp)).1
        simp only [PGSIZE]; omega
      simp only [hV, Bool.false_eq_true, if_false, Bool.not_true,
        bind_of_ok (pmemAlloc_cons b.list), hpos, table_or]
      rfl

/-- The tables for the pages `v .. v + n - 1`. -/
def Spans (v n : Nat) (new : List (Nat × Nat)) : Prop :=
  ∀ p ∈ new, ∃ w, v ≤ w ∧ w < v + n ∧ (p = (1, w / 512 / 512) ∨ p = (0, w / 512))

theorem Spans.append (h : Spans v n new) (h' : Spans v n new') : Spans v n (new ++ new') :=
  fun p hp => (List.mem_append.mp hp).elim (h p) (h' p)

theorem Spans.mono (h : Spans j k new) (h1 : v ≤ j) (h2 : j + k ≤ v + n) : Spans v n new := fun p hp => by
  obtain ⟨w, hw1, hw2, hp⟩ := h p hp
  exact ⟨w, by omega, by omega, hp⟩

theorem vmGetpte_spec (b : PageTables s tab l) (hr : tab 2 0 = some r) (hv : PGSIZE * v < VA_MAX) :
    (∃ k new s' tab' l', vmGetpte (PGSIZE * r) (PGSIZE * v) true s =
        .ok (some (PGSIZE * k + 8 * (v % 512))) s' ∧
      Maps s tab l (fun _ => none) new s' tab' l' ∧ tab' 0 (v / 512) = some k ∧ Spans v 1 new) ∨
    (∃ new s', vmGetpte (PGSIZE * r) (PGSIZE * v) true s = .ok none s' ∧ Short tab l new ∧
      Spans v 1 new) := by
  have hv1 : vpn (PGSIZE * v) 1 = v / 512 := by simp only [vpn, PGSIZE]; omega
  have hv2 : vpn (PGSIZE * v) 2 = v / 512 / 512 := by simp only [vpn, PGSIZE]; omega
  have hv0 : vaToVpn (PGSIZE * v) 0 = v % 512 := by simp only [vaToVpn, PGSIZE]; omega
  have h2 : 512 * 0 + vaToVpn (PGSIZE * v) 2 = v / 512 / 512 := by
    have := vpn_succ (PGSIZE * v) 2
    rwa [vpn_three hv, hv2] at this
  have h1 : 512 * (v / 512 / 512) + vaToVpn (PGSIZE * v) 1 = v / 512 := by
    have := vpn_succ (PGSIZE * v) 1
    rwa [hv1, hv2] at this
  have hspan1 : Spans v 1 [(1, v / 512 / 512)] := fun p hp =>
    ⟨v, Nat.le_refl v, by omega, .inl (List.mem_singleton.mp hp)⟩
  have hspan0 : Spans v 1 [(0, v / 512)] := fun p hp =>
    ⟨v, Nat.le_refl v, by omega, .inr (List.mem_singleton.mp hp)⟩
  simp only [vmGetpte, ge_iff_le, Nat.not_le.mpr hv, if_false]
  rcases walkLevel_spec (PGSIZE * v) b (by decide) hr with
    ⟨n, new1, s1, tab1, l1, hrun1, m1, hn, hsub1⟩ | ⟨s1, hrun1, hshort⟩
  · rw [h2] at hn hsub1
    rcases walkLevel_spec (PGSIZE * v) m1.tables (by decide) hn with
      ⟨k, new2, s2, tab2, l2, hrun2, m2, hk, hsub2⟩ | ⟨s2, hrun2, hshort⟩
    · rw [h1] at hk hsub2
      refine .inl ⟨k, _, s2, tab2, l2, ?_, m1.trans m2, hk,
        Spans.append (fun p hp => hspan1 p (hsub1 hp)) fun p hp => hspan0 p (hsub2 hp)⟩
      simp only [bind_of_ok hrun1, bind_of_ok hrun2, hv0]
      rfl
    · rw [h1] at hshort
      refine .inr ⟨_, s2, ?_, m1.short hshort, Spans.append (fun p hp => hspan1 p (hsub1 hp)) hspan0⟩
      simp only [bind_of_ok hrun1, bind_of_ok hrun2]
      rfl
  · rw [h2] at hshort
    refine .inr ⟨_, s1, ?_, hshort, hspan1⟩
    simp only [bind_of_ok hrun1]
    rfl

/-- The pages from `v` on are mapped to the pages from `p` on, which go round at `2 ^ 52`. -/
def leaves (v p n f : Nat) (w : Nat) : Option Nat :=
  if v ≤ w ∧ w < v + n then some (1024 * ((p + (w - v)) % 2 ^ 52) + f) else none

theorem leaves_succ (v p n f : Nat) :
    (fun w => (leaves (v + 1) (p + 1) n f w).or (leaves v p 1 f w)) = leaves v p (n + 1) f := by
  funext w
  unfold leaves
  by_cases h1 : v + 1 ≤ w ∧ w < v + 1 + n
  · rw [if_pos h1, Option.some_or, if_pos (by omega), show p + 1 + (w - (v + 1)) = p + (w - v) by omega]
  · rw [if_neg h1, Option.none_or]
    by_cases h2 : w = v
    · rw [if_pos (by omega), if_pos (by omega)]
    · rw [if_neg (by omega), if_neg (by omega)]

theorem Maps.store {p perm : Nat} (m : Maps s tab l (fun _ => none) new s' tab' l')
    (hk : tab' 0 (v / 512) = some k) (hperm : perm < 1024) :
    Maps s tab l (leaves v p 1 (perm ||| 1)) new
      { s' with
        mem := Bytes.store 8 s'.mem (PGSIZE * k + 8 * (v % 512))
          (paToPte (PGSIZE * (p % 2 ^ 52)) ||| perm ||| PTE_V) } tab' l' := by
  have hi : v % 512 < 512 := Nat.mod_lt _ (by decide)
  have hodd := or_one_lt hperm
  have hp : p % 2 ^ 52 < 2 ^ 52 := Nat.mod_lt _ (by decide)
  have h512 : 512 * (v / 512) + v % 512 = v := Nat.div_add_mod v 512
  obtain ⟨ht, hleaf⟩ := m.tables.table.setLeaf (p := 1024 * (p % 2 ^ 52) + (perm ||| 1)) hk hi
    (by omega)
  rw [leaf_or _ hperm]
  refine { m with tables := ⟨?_, ht, m.tables.apart⟩, leaf := fun w => ?_, mem := fun a ha => ?_ }
  · refine m.tables.list.congr rfl fun n hn a ha => store_outside hi ?_
    rw [ha]; rintro rfl; exact m.tables.apart hk hn
  · refine (hleaf w).trans ?_
    rw [h512, leaves]
    by_cases hw : w = v
    · subst hw
      rw [if_pos rfl, if_pos (by omega), Nat.sub_self]
      rfl
    · rw [if_neg hw, if_neg (by omega)]
      exact m.leaf w
  · exact (store_outside hi fun h => ha _ _ (h ▸ hk)).trans (m.mem a ha)

/-- The loop of `vm_mappages` over `n + 1` pages: they are mapped, or a table cannot be made. -/
theorem mapLoop_spec {perm : Nat} (hperm : perm < 1024) : ∀ (n fuel v p : Nat) {s : Machine}
    {tab : Nat → Nat → Option Nat} {l : List Nat}, n < fuel → PageTables s tab l →
    tab 2 0 = some r → PGSIZE * (v + n) < VA_MAX →
    (∃ new s' tab' l', mapLoop (PGSIZE * r) (PGSIZE * (v + n)) perm fuel (PGSIZE * v)
        (PGSIZE * (p % 2 ^ 52)) s = .ok () s' ∧
      Maps s tab l (leaves v p (n + 1) (perm ||| 1)) new s' tab' l' ∧ Spans v (n + 1) new) ∨
    (∃ new s', mapLoop (PGSIZE * r) (PGSIZE * (v + n)) perm fuel (PGSIZE * v)
        (PGSIZE * (p % 2 ^ 52)) s = .error (.panic "vm_mappages: failed to get PTE") s' ∧
      Short tab l new ∧ Spans v (n + 1) new) := by
  intro n
  induction n with
  | zero =>
    intro fuel v p s tab l hfuel b hr hv
    obtain ⟨fuel, rfl⟩ : ∃ f, fuel = f + 1 := ⟨fuel - 1, by omega⟩
    rw [Nat.add_zero] at hv ⊢
    rcases vmGetpte_spec b hr hv with
      ⟨k, new, s1, tab1, l1, hrun, m1, hk, hspan⟩ | ⟨new, s1, hrun, hshort, hspan⟩
    · refine .inl ⟨new, _, tab1, l1, ?_, m1.store (p := p) hk hperm, hspan⟩
      rw [mapLoop, bind_of_ok hrun]
      dsimp only
      rw [bind_of_ok (store64_run ..), if_pos rfl]
      rfl
    · refine .inr ⟨new, s1, ?_, hshort, hspan⟩
      rw [mapLoop, bind_of_ok hrun]
      rfl
  | succ n ih =>
    intro fuel v p s tab l hfuel b hr hv
    obtain ⟨fuel, rfl⟩ : ∃ f, fuel = f + 1 := ⟨fuel - 1, by omega⟩
    have hv' : v + 1 + n = v + (n + 1) := by omega
    have hne : ¬ PGSIZE * v = PGSIZE * (v + (n + 1)) := by simp only [PGSIZE]; omega
    have hpa : (PGSIZE + PGSIZE * (p % 2 ^ 52)) % 2 ^ 64 = PGSIZE * ((p + 1) % 2 ^ 52) := by
      simp only [PGSIZE]; omega
    rcases vmGetpte_spec (v := v) b hr (by simp only [PGSIZE] at *; omega) with
      ⟨k, new, s1, tab1, l1, hrun, m1, hk, hspan⟩ | ⟨new, s1, hrun, hshort, hspan⟩
    · have m2 := m1.store (p := p) hk hperm
      have hspan' : Spans v (n + 1 + 1) new := hspan.mono (Nat.le_refl v) (by omega)
      rcases ih fuel (v + 1) (p + 1) (by omega) m2.tables (m2.keeps hr) (by rw [hv']; exact hv) with
        ⟨new3, s3, tab3, l3, hrun3, m3, hspan3⟩ | ⟨new3, s3, hrun3, hshort3, hspan3⟩ <;>
        rw [hv'] at hrun3
      · refine .inl ⟨_, s3, tab3, l3, ?_, by rw [← leaves_succ]; exact m2.trans m3,
          hspan'.append (hspan3.mono (by omega) (by omega))⟩
        rw [mapLoop, bind_of_ok hrun]
        dsimp only
        rw [bind_of_ok (store64_run ..), if_neg hne, hpa]
        exact hrun3
      · refine .inr ⟨_, s3, ?_, m2.short hshort3, hspan'.append (hspan3.mono (by omega) (by omega))⟩
        rw [mapLoop, bind_of_ok hrun]
        dsimp only
        rw [bind_of_ok (store64_run ..), if_neg hne, hpa]
        exact hrun3
    · refine .inr ⟨new, s1, ?_, hshort, hspan.mono (Nat.le_refl v) (by omega)⟩
      rw [mapLoop, bind_of_ok hrun]
      rfl

/-- The number of pages that `len` bytes from the start of a page need. -/
def pagesFor (len : Nat) : Nat := (len + (PGSIZE - 1)) / PGSIZE

theorem vmMappages_spec (v p len perm : Nat) (b : PageTables s tab l) (hr : tab 2 0 = some r)
    (hperm : perm < 1024) (hlen : 0 < len) (hv : PGSIZE * v + len ≤ VA_MAX)
    (hp : PGSIZE * p < 2 ^ 64) :
    (∃ new s' tab' l', vmMappages (PGSIZE * r) (PGSIZE * v) (PGSIZE * p) len perm s = .ok () s' ∧
      Maps s tab l (leaves v p (pagesFor len) (perm ||| 1)) new s' tab' l' ∧
      Spans v (pagesFor len) new) ∨
    (∃ new s', vmMappages (PGSIZE * r) (PGSIZE * v) (PGSIZE * p) len perm s =
        .error (.panic "vm_mappages: failed to get PTE") s' ∧
      Short tab l new ∧ Spans v (pagesFor len) new) := by
  obtain ⟨n, hn⟩ : ∃ k, pagesFor len = k + 1 := ⟨pagesFor len - 1, by
    simp only [pagesFor, PGSIZE]; omega⟩
  have hdown : pgRoundDown (PGSIZE * v) = PGSIZE * v := by simp only [pgRoundDown, PGSIZE]; omega
  have hend : pgRoundDown ((PGSIZE * v + len - 1) % 2 ^ 64) = PGSIZE * (v + n) := by
    rw [Nat.mod_eq_of_lt (by simp only [VA_MAX, PGSIZE] at *; omega)]
    simp only [pgRoundDown, pagesFor, PGSIZE] at *; omega
  have hmod : p % 2 ^ 52 = p := Nat.mod_eq_of_lt (by simp only [PGSIZE] at hp; omega)
  have hv' : PGSIZE * (v + n) < VA_MAX := by simp only [pagesFor, VA_MAX, PGSIZE] at *; omega
  rw [hn, vmMappages, if_neg (by omega), hdown, hend]
  have := mapLoop_spec (p := p) hperm n (VA_MAX / PGSIZE + 1) v
    (by simp only [VA_MAX, PGSIZE] at *; omega) b hr hv'
  rwa [hmod] at this

/-! ## `vm_unmappages` -/

/-- The pages `v .. v + n - 1` lose their entries. -/
structure Unmaps (s : Machine) (tab : Nat → Nat → Option Nat) (v n : Nat) (s' : Machine) : Prop where
  table : PageTable s'.mem tab
  leaf : ∀ w, leafAt s'.mem tab w = if v ≤ w ∧ w < v + n then 0 else leafAt s.mem tab w
  region : s'.user.beginAddr = s.user.beginAddr ∧ s'.user.endAddr = s.user.endAddr

/-- A leaf entry that `vm_unmappages` accepts: with `freeit` its frame must be one that `pmem_free`
accepts, and none of the tables. -/
structure Detachable (s : Machine) (tab : Nat → Nat → Option Nat) (freeit : Bool) (pte : Nat) : Prop where
  valid : pteHas pte PTE_V = true
  leaf : pteFlags pte ≠ PTE_V
  frame : freeit = true → (s.user.beginAddr ≤ pteToPa pte ∧ pteToPa pte < s.user.endAddr) ∧
    ∀ j w, tab j w ≠ some (pteToPa pte / PGSIZE)

theorem pteToPa_lt (pte : Nat) : pteToPa pte < 2 ^ 64 := Nat.mod_lt _ (by decide)

theorem pteToPa_aligned (pte : Nat) : PGSIZE * (pteToPa pte / PGSIZE) = pteToPa pte := by
  simp only [pteToPa, PGSIZE]; omega

/-- The state after the entry at `a` is cleared and, with `freeit`, the frame `f` freed. -/
def detached (s : Machine) (freeit : Bool) (f a : Nat) : Machine :=
  { if freeit then given s false f else s with
    mem := Bytes.store 8 (if freeit then given s false f else s).mem a 0 }

theorem detached_outside (hi : i < 512) (hk : a / PGSIZE ≠ k)
    (hf : freeit = true → a / PGSIZE ≠ f) :
    (detached s freeit f (PGSIZE * k + 8 * i)).mem a = s.mem a := by
  refine (store_outside hi hk).trans ?_
  cases freeit with
  | false => rfl
  | true => exact given_outside (hf rfl)

theorem detached_region (s : Machine) (freeit : Bool) (f a : Nat) :
    (detached s freeit f a).user.beginAddr = s.user.beginAddr ∧
      (detached s freeit f a).user.endAddr = s.user.endAddr := by
  cases freeit <;> exact ⟨rfl, rfl⟩

theorem unmapPage_run (h : PageTable s.mem tab) (hr : tab 2 0 = some r)
    (hv : PGSIZE * v < VA_MAX) (hd : Detachable s tab freeit (leafAt s.mem tab v)) :
    ∃ k, tab 0 (v / 512) = some k ∧ unmapPage (PGSIZE * r) (PGSIZE * v) freeit s =
      .ok () (detached s freeit (pteToPa (leafAt s.mem tab v) / PGSIZE) (PGSIZE * k + 8 * (v % 512))) := by
  have hv1 : vpn (PGSIZE * v) 1 = v / 512 := by simp only [vpn, PGSIZE]; omega
  have hv0 : vaToVpn (PGSIZE * v) 0 = v % 512 := by simp only [vaToVpn, PGSIZE]; omega
  obtain ⟨k, hk⟩ : ∃ k, tab 0 (v / 512) = some k := by
    cases hk : tab 0 (v / 512) with
    | some k => exact ⟨k, rfl⟩
    | none =>
      have := hd.valid
      simp [leafAt, hk, pteHas_zero] at this
  have hpte : leafAt s.mem tab v = Bytes.load 8 s.mem (PGSIZE * k + 8 * (v % 512)) := by
    rw [leafAt, hk]; rfl
  have hwalk : vmGetpte (PGSIZE * r) (PGSIZE * v) false s =
      .ok (some (PGSIZE * k + 8 * (v % 512))) s := by
    rw [vmGetpte_false s hv, h.walk_eq hr hv, hv1, hv0, hk]; rfl
  obtain ⟨hV, hF, hfree⟩ := hd
  rw [hpte] at hV hF hfree ⊢
  refine ⟨k, hk, ?_⟩
  rw [unmapPage, bind_of_ok hwalk]
  dsimp only
  rw [bind_of_ok (load64_run ..)]
  simp only [hV, Bool.not_true, Bool.false_eq_true, if_false, hF]
  cases freeit with
  | false => rfl
  | true =>
    have hrun := pmemFree_eq (s := s) (k := false)
      (n := pteToPa (Bytes.load 8 s.mem (PGSIZE * k + 8 * (v % 512))) / PGSIZE)
      (by rw [pteToPa_aligned]; exact (hfree rfl).1)
    rw [pteToPa_aligned] at hrun
    rw [if_pos rfl, bind_of_ok hrun]
    rfl

theorem unmaps_detached (freeit : Bool) (h : PageTable s.mem tab)
    (hk : tab 0 (v / 512) = some k) (hf : freeit = true → ∀ j w, tab j w ≠ some f) :
    Unmaps s tab v 1 (detached s freeit f (PGSIZE * k + 8 * (v % 512))) := by
  have hi : v % 512 < 512 := Nat.mod_lt _ (by decide)
  have h512 : 512 * (v / 512) + v % 512 = v := Nat.div_add_mod v 512
  obtain ⟨ht, hl⟩ : PageTable (if freeit then given s false f else s).mem tab ∧
      ∀ w, leafAt (if freeit then given s false f else s).mem tab w = leafAt s.mem tab w :=
    h.congr fun j w c hc a ha => by
      cases freeit with
      | false => rfl
      | true => exact given_outside (by rw [ha]; rintro rfl; exact hf rfl j w hc)
  obtain ⟨ht', hl'⟩ := ht.setLeaf hk hi (p := 0) (by decide)
  refine ⟨ht', fun w => (hl' w).trans ?_, detached_region ..⟩
  rw [hl w, h512]
  exact if_congr (by omega) rfl rfl

theorem Unmaps.trans {s1 s2 : Machine} {b : Nat} (h1 : Unmaps s tab v a s1)
    (h2 : Unmaps s1 tab (v + a) b s2) : Unmaps s tab v (a + b) s2 := by
  refine ⟨h2.table, fun w => ?_, h2.region.1.trans h1.region.1, h2.region.2.trans h1.region.2⟩
  rw [h2.leaf w, h1.leaf w]
  by_cases hb : v + a ≤ w ∧ w < v + a + b
  · rw [if_pos hb, if_pos (by omega)]
  · rw [if_neg hb]
    exact if_congr (by omega) rfl rfl

theorem vmUnmappages_eq {pgtbl len : Nat} (hlen : 0 < len)
    (hv : PGSIZE * v + len ≤ VA_MAX) : vmUnmappages pgtbl (PGSIZE * v) len freeit =
      Kern.forFrom (fun k => unmapPage pgtbl (PGSIZE * v + PGSIZE * k) freeit) 0 (pagesFor len) := by
  have hal : PGSIZE * v % PGSIZE = 0 := Nat.mul_mod_right ..
  have hpages : max (pgRoundUp len / PGSIZE) 1 = pagesFor len := by
    rw [pgRoundUp, Nat.mod_eq_of_lt (by simp only [VA_MAX, PGSIZE] at *; omega)]
    simp only [pagesFor, PGSIZE]; omega
  have hend : (PGSIZE * v + PGSIZE * pagesFor len) % 2 ^ 64 = PGSIZE * v + PGSIZE * pagesFor len :=
    Nat.mod_eq_of_lt (by simp only [pagesFor, VA_MAX, PGSIZE] at *; omega)
  have hcount : (PGSIZE * v + PGSIZE * pagesFor len - PGSIZE * v + (PGSIZE - 1)) / PGSIZE =
      pagesFor len := by
    rw [Nat.add_sub_cancel_left]; simp only [PGSIZE]; omega
  rw [vmUnmappages, hpages, if_neg (by rw [hal]; simp), forPages, hend, hcount]

end Mem
end WhuOS
