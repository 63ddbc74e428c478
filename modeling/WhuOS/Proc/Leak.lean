import WhuOS.Proc.Exhaust

/-!
# WhuOS.Proc.Leak

What becomes of the pages that `proc_fork` takes. Every one should have a place in the child: its
trapframe, a table of its page table, or the frame of one page. `vm_mappages` replaces an entry
without a look at the old one, so a page that is mapped twice loses its first frame. `proc_fork` maps
a stack page of its own before it copies the parent's stack over it.
-/

namespace WhuOS
namespace Proc

open Lib Kern Mem Sched

variable {L : Layout} {p np : Slot} {s s' : Machine} {own own' : Nat → Owner} {l l' : List Nat}
  {r rn t k n : Nat} {gs : List Frame}

/-! ## The free list as a list -/

/-- The pages on the list that starts at the address `a`. -/
def listPages (m : Bytes) : Nat → Nat → List Nat
  | 0, _ => []
  | fuel + 1, a => if a = 0 then [] else a / PGSIZE :: listPages m fuel (Bytes.load 8 m a)

def freePages (s : Machine) : List Nat := listPages s.mem s.user.allocable s.user.listHead

theorem listPages_eq {m : Bytes} : ∀ {l : List Nat} {a : Nat}, Chain m a l 0 → (∀ n ∈ l, 0 < n) →
    listPages m l.length a = l := by
  intro l
  induction l with
  | nil => intro a _ _; rfl
  | cons n l ih =>
    intro a hc hpos
    have hn := hpos n (by simp)
    have ha : a = PGSIZE * n := hc.1
    have hdiv : a / PGSIZE = n := by rw [ha]; simp only [PGSIZE]; omega
    rw [List.length_cons, listPages, if_neg (by rw [ha]; simp only [PGSIZE]; omega), hdiv, ha,
      ih hc.2 fun c hc => hpos c (by simp [hc])]

theorem freePages_eq (w : Owned L s own l) : freePages s = l := by
  rw [freePages, w.count]
  exact listPages_eq w.chain fun n hn => w.page_pos (by simp [w.free n hn])

/-! ## Places -/

/-- The page `v` is mapped to the page at the address `a`. -/
def FrameOf (m : Bytes) (pgtbl v a : Nat) : Prop :=
  validPage m pgtbl v = true ∧ pteToPa (leafPte m pgtbl (PGSIZE * v)) = a

def IsTrapframe (s : Machine) (q : Slot) (n : Nat) : Prop := (s.procs q).tf = PGSIZE * n

/-- Another page than the trapframe, mapped at exactly one address. -/
def IsLeaf (s : Machine) (q : Slot) (n : Nat) : Prop := ¬ IsTrapframe s q n ∧
  ∃ v, FrameOf s.mem (s.procs q).pgtbl v (PGSIZE * n) ∧
    ∀ u, FrameOf s.mem (s.procs q).pgtbl u (PGSIZE * n) → u = v

/-- The page `n` is exactly one of the trapframe, a table and a leaf frame of `q`. -/
def Placed (s : Machine) (q : Slot) (n : Nat) : Prop :=
  IsTrapframe s q n ∧ ¬ IsTable s.mem (s.procs q).pgtbl (PGSIZE * n) ∧ ¬ IsLeaf s q n ∨
  ¬ IsTrapframe s q n ∧ IsTable s.mem (s.procs q).pgtbl (PGSIZE * n) ∧ ¬ IsLeaf s q n ∨
  ¬ IsTrapframe s q n ∧ ¬ IsTable s.mem (s.procs q).pgtbl (PGSIZE * n) ∧ IsLeaf s q n

/-- Every page that has left the free list has a place in `q`. -/
def NoLeak (s s' : Machine) (q : Slot) : Prop :=
  ∀ n, n ∈ freePages s → n ∉ freePages s' → Placed s' q n

theorem nextTable_entry (m : Bytes) (n i : Nat) : nextTable m (PGSIZE * n + 8 * i) =
    if pteHas (entry m n i) PTE_V then some (pteToPa (entry m n i)) else none := rfl

theorem nextTable_iff {m : Bytes} (tr : Tree L m own) {h v i b : Nat}
    (hn : own n = .node np (h + 1) v) (hh : 0 < h) (hi : i < 512)
    (hb : nextTable m (PGSIZE * n + 8 * i) = some b) :
    ∃ c, b = PGSIZE * c ∧ own c = .node np h (512 * v + i) := by
  rw [nextTable_entry] at hb
  split at hb
  · rename_i hV
    rcases tr.down hn hi ((pteHas_V _).mp hV) with ⟨c, hc, hown, -⟩ | ⟨h0, -⟩
    · exact ⟨c, by rw [← Option.some.inj hb, hc], hown⟩
    · omega
  · cases hb

theorem nextTable_up {m : Bytes} (tr : Tree L m own) {h v : Nat} (hn : own n = .node np h v)
    (h0 : 0 < h) (h3 : h < 3) (hlt : PGSIZE * n < 2 ^ 64) :
    ∃ c, own c = .node np (h + 1) (v / 512) ∧
      nextTable m (PGSIZE * c + 8 * (v % 512)) = some (PGSIZE * n) := by
  obtain ⟨c, hc, he⟩ := tr.up hn h0 h3
  refine ⟨c, hc, ?_⟩
  rw [nextTable_entry, he, if_pos ((pteHas_V _).mpr (by omega)), pteToPa_page (by decide) hlt]

theorem isTable_iff (w : Owned L s own l) (hr : own r = .node np 3 0) :
    IsTable s.mem (PGSIZE * r) (PGSIZE * n) ↔ ∃ h v, own n = .node np (h + 1) v := by
  have hinj : ∀ {a b : Nat}, PGSIZE * a = PGSIZE * b → a = b := by
    intro a b hab; simp only [PGSIZE] at hab; omega
  have hlt : ∀ {c q h v}, own c = .node q h v → PGSIZE * c < 2 ^ 64 := fun {c} _ _ _ hc => by
    have := w.page_lt (n := c) (by simp [hc]); omega
  constructor
  · rintro (he | ⟨i, hi, b, hb, he | ⟨j, hj, hj'⟩⟩)
    · exact ⟨2, 0, hinj he ▸ hr⟩
    · obtain ⟨c, hc, hown⟩ := nextTable_iff w.tree hr (by decide) hi hb
      exact ⟨1, _, hinj (he.trans hc) ▸ hown⟩
    · obtain ⟨c, rfl, hown⟩ := nextTable_iff w.tree hr (by decide) hi hb
      obtain ⟨d, hd, hown'⟩ := nextTable_iff w.tree hown (by decide) hj hj'
      exact ⟨0, _, hinj hd ▸ hown'⟩
  · -- up from the node to the root
    have htwo : ∀ {c v}, own c = .node np 2 v →
        nextTable s.mem (PGSIZE * r + 8 * (v % 512)) = some (PGSIZE * c) := by
      intro c v hc
      obtain ⟨d, hd, hnext⟩ := nextTable_up w.tree hc (by decide) (by decide) (hlt hc)
      obtain ⟨-, hv⟩ := w.tree.top hd (by decide)
      obtain rfl : d = r := w.tree.root_unique (hv ▸ hd) hr
      exact hnext
    rintro ⟨h, v, hn⟩
    have hle := w.tree.height_le hn
    obtain rfl | rfl | rfl : h = 2 ∨ h = 1 ∨ h = 0 := by omega
    · obtain ⟨-, rfl⟩ := w.tree.top hn (by decide)
      exact .inl (by rw [w.tree.root_unique hn hr])
    · exact .inr ⟨_, Nat.mod_lt _ (by decide), _, htwo hn, .inl rfl⟩
    · obtain ⟨c, hc, hnext⟩ := nextTable_up w.tree hn (by decide) (by decide) (hlt hn)
      exact .inr ⟨_, Nat.mod_lt _ (by decide), _, htwo hc, .inr ⟨_, Nat.mod_lt _ (by decide), hnext⟩⟩

/-! ## The child's pages -/

namespace Forked

theorem pgtbl_eq (f : Forked L p np s own l r s' own' l' rn t k gs) :
    (s'.procs np).pgtbl = PGSIZE * rn := by
  obtain ⟨o, ho⟩ := f.procs
  rw [ho, Function.update_self]

theorem isTrapframe_iff (f : Forked L p np s own l r s' own' l' rn t k gs) :
    IsTrapframe s' np n ↔ n = t := by
  obtain ⟨o, ho⟩ := f.procs
  rw [IsTrapframe, ho, Function.update_self]
  simp only [PGSIZE]; omega

theorem flags_ok (f : Forked L p np s own l r s' own' l' rn t k gs) {c : Frame}
    (hc : c ∈ gs ++ [stackFrame k]) : c.flags < 1024 ∧ c.flags % 2 = 1 := by
  rcases List.mem_append.mp hc with hc | hc
  · have h := f.copies c hc
    obtain ⟨-, hodd⟩ := validPage_iff.mp h.valid
    rw [h.flags, pteFlags]
    omega
  · obtain rfl := List.mem_singleton.mp hc
    exact ⟨show 23 < 1024 by decide, show 23 % 2 = 1 by decide⟩

theorem frame_lt (f : Forked L p np s own l r s' own' l' rn t k gs) {c : Frame}
    (hc : c ∈ gs ++ [stackFrame k]) : PGSIZE * c.frame < 2 ^ 64 := by
  have := f.owned.page_lt (n := c.frame) (by simp [(f.fresh c hc).2])
  omega

theorem frame_inj (f : Forked L p np s own l r s' own' l' rn t k gs) {c d : Frame}
    (hc : c ∈ gs ++ [stackFrame k]) (hd : d ∈ gs ++ [stackFrame k]) (h : c.frame = d.frame) : c = d :=
  List.inj_on_of_nodup_map f.distinct hc hd h

theorem frameOf_iff (f : Forked L p np s own l r s' own' l' rn t k gs) {c : Frame}
    (hc : c ∈ gs ++ [stackFrame k]) (v : Nat) :
    FrameOf s'.mem (s'.procs np).pgtbl v (PGSIZE * c.frame) ↔
      PGSIZE * v < VA_MAX ∧ frameAt (gs ++ [stackFrame k]) v = some c := by
  rw [FrameOf, f.pgtbl_eq, validPage_iff]
  constructor
  · rintro ⟨⟨hv, hodd⟩, hpa⟩
    refine ⟨hv, ?_⟩
    rw [f.leaf v hv] at hodd hpa
    cases hat : frameAt (gs ++ [stackFrame k]) v with
    | some d =>
      have hd := List.mem_of_find?_eq_some hat
      rw [hat] at hpa
      have hpage := pteToPa_page (f.flags_ok hd).1 (f.frame_lt hd)
      rw [f.frame_inj hd hc (by simp only [PGSIZE] at *; omega)]
    | none =>
      exfalso
      rw [hat] at hodd hpa
      simp only [newLeaf] at hodd hpa
      split at hpa
      · -- the trampoline is not in the region
        have hne := f.owned.ne_trampoline (k := c.frame) (by simp [(f.fresh c hc).2])
        have h1 := L.trampoline_aligned
        have h2 := f.owned.root_page f.root
        rw [pteToPa_page (by decide) (by simp only [PGSIZE] at *; omega)] at hpa
        simp only [PGSIZE] at *; omega
      · split at hpa
        · have ht := f.owned.page_lt (n := t) (by simp [f.frame])
          rw [pteToPa_page (by decide) (by omega)] at hpa
          exact f.apart c hc (by simp only [PGSIZE] at *; omega)
        · rename_i h1 h2
          rw [if_neg h1, if_neg h2] at hodd
          cases hodd
  · rintro ⟨hv, hat⟩
    have hl : leafPte s'.mem (PGSIZE * rn) (PGSIZE * v) = 1024 * c.frame + c.flags := by
      rw [f.leaf v hv, hat]
    obtain ⟨h1, h2⟩ := f.flags_ok hc
    exact ⟨⟨hv, by rw [hl]; omega⟩, by rw [hl]; exact pteToPa_page h1 (f.frame_lt hc)⟩

theorem taken (f : Forked L p np s own l r s' own' l' rn t k gs) (w : Owned L s own l) (hn : n ∈ l)
    (hn' : n ∉ l') : n = t ∨ (∃ c ∈ gs ++ [stackFrame k], c.frame = n) ∨
      ∃ h v, own' n = .node np (h + 1) v := by
  have hfree := w.free n hn
  have hne : own' n ≠ .free := fun h => hn' (f.owned.listed n h)
  rcases f.grows.owner n with h | ⟨-, h, v, hv⟩
  · exact absurd (h.trans hfree) hne
  · cases h with
    | zero =>
      rcases f.frames n v hv with h | ⟨c, hc, hcn, -⟩
      · exact .inl h
      · exact .inr (.inl ⟨c, hc, hcn⟩)
    | succ h => exact .inr (.inr ⟨h, v, hv⟩)

theorem isTable_iff' (f : Forked L p np s own l r s' own' l' rn t k gs) :
    IsTable s'.mem (s'.procs np).pgtbl (PGSIZE * n) ↔ ∃ h v, own' n = .node np (h + 1) v := by
  rw [f.pgtbl_eq]
  exact isTable_iff f.owned f.root

theorem placed_frame_iff (f : Forked L p np s own l r s' own' l' rn t k gs) {c : Frame}
    (hc : c ∈ gs ++ [stackFrame k]) :
    Placed s' np c.frame ↔
      PGSIZE * c.page < VA_MAX ∧ frameAt (gs ++ [stackFrame k]) c.page = some c := by
  have htf : ¬ IsTrapframe s' np c.frame := fun h => f.apart c hc (f.isTrapframe_iff.mp h)
  have htab : ¬ IsTable s'.mem (s'.procs np).pgtbl (PGSIZE * c.frame) := by
    rw [f.isTable_iff']
    rintro ⟨h, v, hn⟩
    rw [(f.fresh c hc).2] at hn
    cases hn
  have hpage : ∀ v, frameAt (gs ++ [stackFrame k]) v = some c → v = c.page := fun v h => by
    have := List.find?_some h
    simpa [eq_comm] using this
  have hleaf : IsLeaf s' np c.frame ↔
      PGSIZE * c.page < VA_MAX ∧ frameAt (gs ++ [stackFrame k]) c.page = some c := by
    simp only [IsLeaf, htf, not_false_eq_true, true_and, f.frameOf_iff hc]
    constructor
    · rintro ⟨v, hv, -⟩
      rw [← hpage v hv.2]; exact hv
    · exact fun h => ⟨c.page, h, fun u hu => hpage u hu.2⟩
  simp only [Placed, htf, htab, false_and, not_false_eq_true, true_and, false_or, hleaf]

theorem pages_eq (f : Forked L p np s own l r s' own' l' rn t k gs) :
    (gs ++ [stackFrame k]).map Frame.page = (USTACK_VPN :: forkPlan s p).reverse := by
  rw [List.map_append, f.pages, List.reverse_cons]
  rfl

theorem page_lt (f : Forked L p np s own l r s' own' l' rn t k gs) {c : Frame}
    (hc : c ∈ gs ++ [stackFrame k]) : PGSIZE * c.page < VA_MAX := by
  rcases List.mem_append.mp hc with hc | hc
  · exact (validPage_iff.mp (f.copies c hc).valid).1
  · obtain rfl := List.mem_singleton.mp hc
    exact show PGSIZE * USTACK_VPN < VA_MAX by decide

theorem noLeak_iff (f : Forked L p np s own l r s' own' l' rn t k gs) (w : Owned L s own l) :
    NoLeak s s' np ↔ ∀ c ∈ gs ++ [stackFrame k], frameAt (gs ++ [stackFrame k]) c.page = some c := by
  rw [NoLeak, freePages_eq w, freePages_eq f.owned]
  constructor
  · intro h c hc
    obtain ⟨hfree, hnode⟩ := f.fresh c hc
    have hgone : c.frame ∉ l' := fun hm => by
      rw [f.owned.free _ hm] at hnode; cases hnode
    exact ((f.placed_frame_iff hc).mp (h c.frame (w.listed _ hfree) hgone)).2
  · intro h n hn hn'
    rcases f.taken w hn hn' with rfl | ⟨c, hc, rfl⟩ | hnode
    · -- the trapframe is no table
      have htf : IsTrapframe s' np n := f.isTrapframe_iff.mpr rfl
      refine .inl ⟨htf, fun htab => ?_, fun hleaf => hleaf.1 htf⟩
      obtain ⟨h, v, hn⟩ := f.isTable_iff'.mp htab
      rw [f.frame] at hn; cases hn
    · exact (f.placed_frame_iff hc).mpr ⟨f.page_lt hc, h c hc⟩
    · -- a table is no frame
      have hnt : ¬ IsTrapframe s' np n := fun htf => by
        obtain rfl := f.isTrapframe_iff.mp htf
        obtain ⟨h, v, hn⟩ := hnode
        rw [f.frame] at hn; cases hn
      refine .inr (.inl ⟨hnt, f.isTable_iff'.mpr hnode, ?_⟩)
      rintro ⟨-, v, ⟨hval, hpa⟩, -⟩
      obtain ⟨h, u, hn⟩ := hnode
      rw [f.pgtbl_eq] at hval hpa
      obtain ⟨hv, hodd⟩ := validPage_iff.mp hval
      rcases f.owned.tree.leaf_target f.root hv hodd with ⟨c, hc, hown⟩ | ⟨-, htr⟩
      · obtain rfl : n = c := by
          rw [hpa] at hc; simp only [PGSIZE] at hc; omega
        rw [hn] at hown; cases hown
      · exact f.owned.ne_trampoline (k := n) (by simp [hn]) (hpa.symm.trans htr)

end Forked

/-- Of frames mapped one after the other each is still there exactly if no page was mapped twice. -/
theorem frameAt_self_iff {fs : List Frame} (hnd : (fs.map Frame.frame).Nodup) :
    (∀ c ∈ fs, frameAt fs c.page = some c) ↔ (fs.map Frame.page).Nodup := by
  constructor
  · intro h
    refine (List.Nodup.of_map _ hnd).map_on fun c hc d hd hcd => ?_
    have h1 := h c hc
    rw [hcd, h d hd] at h1
    exact (Option.some.inj h1).symm
  · intro h c hc
    cases hat : frameAt fs c.page with
    | none =>
      have := List.find?_eq_none.mp hat c hc
      simp at this
    | some d =>
      have hd := List.mem_of_find?_eq_some hat
      have hpage : d.page = c.page := by simpa using List.find?_some hat
      rw [List.inj_on_of_nodup_map h hd hc hpage]

theorem forked_of_run (h : Ready L p s own l r) {res : Int} (hrun : procFork L p s = .ok res s')
    (hres : res ≠ -1) (hnp : findUnused s = some np) :
    ∃ own' l' rn t k gs, Forked L p np s own l r s' own' l' rn t k gs := by
  have := wp_ok (wp_procFork h) hrun
  rw [hnp] at this
  rcases this with ⟨-, ⟨-, hm, -⟩ | ⟨-, hm, -⟩ | ⟨-, hf⟩⟩
  · exact absurd hm hres
  · exact absurd hm hres
  · exact hf

/-- A successful `proc_fork` leaks no page exactly if no page is mapped twice: the copied pages are
all different, and the stack page below the trapframe is not among them. -/
theorem fork_no_leak_iff (h : Ready L p s own l r) {res : Int} (hrun : procFork L p s = .ok res s')
    (hres : res ≠ -1) (hnp : findUnused s = some np) :
    NoLeak s s' np ↔ (USTACK_VPN :: forkPlan s p).Nodup := by
  obtain ⟨own', l', rn, t, k, gs, f⟩ := forked_of_run h hrun hres hnp
  rw [f.noLeak_iff h.owned, frameAt_self_iff f.distinct, f.pages_eq, List.nodup_reverse]

/-! ## The first process -/

theorem Booted.forkClear (hb : Booted L p r t s own l) : ForkClear s p := by
  have h1 := hb.validPage_eq (v := 1) (by decide)
  have h2 := hb.validPage_eq (v := USTACK_VPN) (by decide)
  have hwin := Duplicates.stuck_range (validPage s.mem (PGSIZE * r)) (MMAP_BEGIN / PGSIZE) 8096
  rw [ForkClear, hb.proc]
  dsimp only
  rw [copySteps_first]
  refine ⟨?_, .none _⟩
  unfold stuck at hwin ⊢
  rw [List.any_append, hwin]
  simp only [List.any_cons, List.any_nil, h1, h2, true_or, or_true, decide_true, Bool.not_true,
    Bool.and_false, Bool.or_false]

/-- With enough free pages, and nothing unmapped in the way, `proc_fork` returns the new pid. -/
theorem Ready.fork_returns (h : Ready L p s own l r) (hclear : ForkClear s p)
    (hnp : findUnused s = some np) (hpid : 0 ≤ s.globalPid) (hlen : forkDemand s p ≤ l.length) :
    ∃ s', procFork L p s = .ok s.globalPid s' := by
  have hdemand : 5 ≤ forkDemand s p := by
    rw [forkDemand, cost_cons, cost]; omega
  obtain ⟨res, s', hrun, hpost⟩ := wp_returns (wp_procFork h) (by
    rintro e s' ⟨np, -, ⟨-, -, hlt, -⟩ | ⟨hneg | ⟨-, hcl⟩, -⟩⟩
    · omega
    · omega
    · exact hcl hclear)
  rw [hnp] at hpost
  rcases hpost with ⟨-, ⟨hl0, -⟩ | ⟨hl4, -⟩ | ⟨hres, -⟩⟩
  · rw [hl0, List.length_nil] at hlen; omega
  · omega
  · exact ⟨s', by rw [hrun, hres]⟩

theorem fork_small : ∃ s s' r t own l np, boot smallLayout 0 (reset fun _ => 0) = .ok () s ∧
    Booted smallLayout 0 r t s own l ∧ findUnused s = some np ∧
    procFork smallLayout 0 s = .ok 2 s' := by
  obtain ⟨s, r, t, own, l, hs, hb, hpid, hl⟩ := boot_small
  obtain ⟨np, hnp⟩ := Option.ne_none_iff_exists'.mp hb.findUnused_ne
  obtain ⟨s', hrun⟩ := hb.ready.fork_returns hb.forkClear hnp (by omega)
    (by rw [hb.forkDemand_eq]; omega)
  exact ⟨s, s', r, t, own, l, np, hs, hb, hnp, by rw [hrun, hpid]⟩

theorem fork_no_leak_iff_boot : ∃ s s' np, boot smallLayout 0 (reset fun _ => 0) = .ok () s ∧
    procFork smallLayout 0 s = .ok 2 s' ∧
    (NoLeak s s' np ↔ (USTACK_VPN :: forkPlan s 0).Nodup) := by
  obtain ⟨s, s', r, t, own, l, np, hs, hb, hnp, hrun⟩ := fork_small
  exact ⟨s, s', np, hs, hrun, fork_no_leak_iff hb.ready hrun (by decide) hnp⟩

/-- The child of the first process has lost the stack page that `proc_fork` made for it. -/
theorem fork_leaks_stack : ∃ s s' np, boot smallLayout 0 (reset fun _ => 0) = .ok () s ∧
    findUnused s = some np ∧ procFork smallLayout 0 s = .ok 2 s' ∧ ¬ NoLeak s s' np := by
  obtain ⟨s, s', r, t, own, l, np, hs, hb, hnp, hrun⟩ := fork_small
  refine ⟨s, s', np, hs, hnp, hrun, fun hno => ?_⟩
  obtain ⟨own', l', rn, t', k, gs, f⟩ := forked_of_run hb.ready hrun (by decide) hnp
  rw [f.noLeak_iff hb.inv.owned, frameAt_self_iff f.distinct, f.pages_eq, List.nodup_reverse,
    hb.forkPlan_eq] at hno
  exact absurd hno (by decide)

end Proc
end WhuOS
