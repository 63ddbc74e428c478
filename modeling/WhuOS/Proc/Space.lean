import WhuOS.Mem.Fresh
import WhuOS.Proc.Model

/-!
# WhuOS.Proc.Space

The address space of a new process: `proc_pgtbl_init` and `proc_alloc` on a well-formed memory.

* `NewSpace`     — a page table with the trampoline and the trapframe, and nothing below them.
* `wp_procAlloc` — `proc_alloc` takes four pages and gives the slot such a page table.
-/

namespace WhuOS
namespace Proc

open Lib Kern Mem Sched

variable {L : Layout} {np : Slot} {s : Machine} {own : Nat → Owner} {l : List Nat}

/-- The page table with root `r` maps the trampoline and the trapframe page `t` only. -/
structure NewSpace (L : Layout) (np : Slot) (m : Bytes) (own : Nat → Owner) (r t : Nat) : Prop where
  root : own r = .node np 3 0
  frame : own t = .node np 0 TRAPFRAME_VPN
  trampoline : leafPte m (PGSIZE * r) TRAMPOLINE = 1024 * (L.trampoline / PGSIZE) + 11
  trapframe : leafPte m (PGSIZE * r) TRAPFRAME = 1024 * t + 7
  low : ∀ va, va < TRAPFRAME → leafPte m (PGSIZE * r) va = 0
  tables : ∀ n h v, own n = .node np h v → 0 < h → v = vpn TRAMPOLINE h
  frames : ∀ n v, own n = .node np 0 v → n = t

theorem wp_procPgtblInit (np : Slot) {t : Nat} (w : Owned L s own l)
    (ht : own t = .node np 0 TRAPFRAME_VPN)
    (hno : ∀ n h v, own n = .node np h v → h = 0 ∧ n = t) :
    wp (procPgtblInit L (PGSIZE * t))
      (fun res s' => ∃ own' l' r, res = PGSIZE * r ∧ Owned L s' own' l' ∧ s'.rest = s.rest ∧
        Grows np s.mem own s'.mem own' ∧ NewSpace L np s'.mem own' r t ∧ l.length = l'.length + 3)
      (fun _ s' => l.length < 3 ∧ s'.starved = true) s := by
  simp only [procPgtblInit, wp_bind]
  refine wp_pmemAlloc w (fun hl => ?_) (fun r l1 hl => ?_)
  · simp only [if_true]
    refine ⟨?_, rfl⟩
    rw [hl]; decide
  subst hl
  have hfree := w.free r (by simp)
  have hr0 : PGSIZE * r ≠ 0 := by
    have := w.page_pos (n := r) (by simp [hfree]); simp only [PGSIZE]; omega
  simp only [hr0, if_false, wp_bind, wp_memset, taken_clear]
  -- the root, with no table below it
  have w1 := w.take (o := .node np 3 0) (.inr (.inr ⟨np, rfl, fun k hk => by
    have := (hno _ _ _ hk).1; omega, fun a ha => taken_inside ha⟩))
  have g1 : Grows np s.mem own (taken s false r).mem (Function.update own r (.node np 3 0)) := by
    refine ⟨fun k => ?_, fun {n q' h v} hn _ a ha => taken_outside ?_⟩
    · by_cases hkr : k = r
      · subst hkr; exact .inr ⟨hfree, 3, 0, by simp⟩
      · exact .inl (by simp [hkr])
    · rw [ha]; rintro rfl; rw [hfree] at hn; cases hn
  have hr1 : Function.update own r (.node np 3 0) r = .node np 3 0 := by simp
  have hno1 : ∀ h, 0 < h → h < 3 → ∀ k v, Function.update own r (.node np 3 0) k ≠ .node np h v := by
    intro h hpos hlt k v hk
    by_cases hkr : k = r
    · subst hkr; simp at hk; omega
    · have := (hno k h v (by simpa [hkr] using hk)).1; omega
  have hleaf1 : ∀ va, va < VA_MAX → leafPte (taken s false r).mem (PGSIZE * r) va = 0 := fun va hva =>
    (w1.tree.leaf_of_no_table hr1 hva fun k => hno1 1 (by omega) (by omega) k _).2
  have hmiss1 : missing (Function.update own r (.node np 3 0)) np TRAMPOLINE = 2 := by
    simp only [missing, lacks_of_none fun k => hno1 2 (by omega) (by omega) k _,
      lacks_of_none fun k => hno1 1 (by omega) (by omega) k _]
  have htramp : PGSIZE * (L.trampoline / PGSIZE) = L.trampoline := by
    have := L.trampoline_aligned; simp only [PGSIZE] at *; omega
  -- the trampoline needs both tables
  have hmap1 := wp_vmMappages TRAMPOLINE (L.trampoline / PGSIZE) (PTE_R ||| PTE_X) w1 hr1
    (by decide) (by decide) (by decide) (.inr ⟨by decide, htramp⟩)
  rw [htramp] at hmap1
  refine wp_conseq hmap1 ?_ ?_
  · rintro - s2 ⟨own2, l2, mp2, hlen2, hf2⟩
    obtain ⟨k, hk⟩ := mp2.table
    have hmiss2 : missing own2 np TRAPFRAME = 0 :=
      missing_of_table mp2.owned.tree (k := k)
        (by rw [hk, show vpn TRAMPOLINE 1 = vpn TRAPFRAME 1 by decide])
    have ht1 := g1.keeps ht (by simp)
    have ht2 := mp2.grows.keeps ht1 (by simp)
    have hr2 := mp2.grows.keeps hr1 (by simp)
    refine wp_conseq (wp_vmMappages TRAPFRAME t (PTE_R ||| PTE_W) mp2.owned hr2
      (by decide) (by decide) (by decide) (.inl
        (by rw [ht2, show vpn TRAPFRAME 0 = TRAPFRAME_VPN by decide]))) ?_ ?_
    · rintro - s3 ⟨own3, l3, mp3, hlen3, hf3⟩
      refine ⟨own3, l3, r, rfl, mp3.owned, mp3.rest.trans mp2.rest,
        (g1.trans mp2.grows).trans mp3.grows, ⟨mp3.grows.keeps hr2 (by simp),
          mp3.grows.keeps ht2 (by simp), ?_, mp3.leaf.here, fun va hva => ?_, fun n h v hn hh => ?_,
          fun n v hn => ?_⟩, ?_⟩
      · rw [mp3.leaf.other TRAMPOLINE (by decide) (by decide)]
        exact mp2.leaf.here
      · have hmax : va < VA_MAX := by simp only [TRAPFRAME, TRAMPOLINE, VA_MAX, PGSIZE] at *; omega
        rw [mp3.leaf.other va hmax (by simp only [TRAPFRAME, TRAMPOLINE, VA_MAX, PGSIZE] at *; omega),
          mp2.leaf.other va hmax (by simp only [TRAPFRAME, TRAMPOLINE, VA_MAX, PGSIZE] at *; omega)]
        exact hleaf1 va hmax
      · -- both pages are in the part of the lowest table
        have hwalk : vpn TRAPFRAME h = vpn TRAMPOLINE h := by
          obtain ⟨h, rfl⟩ : ∃ j, h = j + 1 := ⟨h - 1, by omega⟩
          have := mp3.owned.tree.height_le hn
          obtain rfl | rfl | rfl : h = 0 ∨ h = 1 ∨ h = 2 := by omega
          all_goals decide
        rcases mp3.nodes n h v hn with hn | rfl
        · rcases mp2.nodes n h v hn with hn | rfl
          · by_cases hnr : n = r
            · subst hnr
              rw [hr1] at hn; cases hn
              rfl
            · have := (hno n h v (by simpa [hnr] using hn)).1
              omega
          · rfl
        · exact hwalk
      · have hn1 := hf2 n v (hf3 n v hn)
        by_cases hnr : n = r
        · subst hnr; rw [hr1] at hn1; cases hn1
        · exact (hno n 0 v (by simpa [hnr] using hn1)).2
      · rw [hmiss1] at hlen2
        rw [hmiss2] at hlen3
        simp only [List.length_cons]; omega
    · rintro _ _ ⟨h, -⟩
      rw [hmiss2] at h; omega
  · rintro _ _ ⟨h, hs⟩
    rw [hmiss1] at h
    exact ⟨by simp only [List.length_cons]; omega, hs⟩

/-- The slot after `proc_alloc`. -/
def fresh (q : Mem.Proc) (pid : Int) (r t : Nat) : Mem.Proc :=
  { q with
    pid := pid, parent := none, sleepSpace := none, pgtbl := PGSIZE * r, heapTop := 0,
    ustackPages := 0, mmap := none, tf := PGSIZE * t }

/-- `proc_alloc` has set up the slot `np`. -/
structure NewProc (L : Layout) (np : Slot) (s : Machine) (own : Nat → Owner) (r t : Nat)
    (s' : Machine) (own' : Nat → Owner) (l' : List Nat) : Prop where
  owned : Owned L s' own' l'
  rest : s'.rest = { s.rest with
    procs := Function.update s.procs np (fresh (s.procs np) s.globalPid r t)
    globalPid := incInt s.globalPid }
  grows : Grows np s.mem own s'.mem own'
  space : NewSpace L np s'.mem own' r t

theorem exitState_outside (w : Owned L s own l) {m : Bytes} {n v : Nat} (hn : own n ≠ .other)
    (a : Nat) (ha : a / PGSIZE = n) : Bytes.store 4 m (L.exitState np) v a = m a := by
  have h1 := w.region n hn
  have h2 := w.above
  have h3 := (L.exitState_data np).2
  refine Bytes.write_outside (.inr ?_)
  simp only [PGSIZE] at *; omega

theorem NewSpace.congr {m m' : Bytes} {r t : Nat} (h : NewSpace L np m own r t) (tr : Tree L m own)
    (hm : ∀ {n q h v}, own n = .node q (h + 1) v → ∀ a, a / PGSIZE = n → m' a = m a) :
    NewSpace L np m' own r t := by
  refine ⟨h.root, h.frame, ?_, ?_, fun va hva => ?_, h.tables, h.frames⟩
  · rw [tr.leaf_congr h.root (by decide) hm, h.trampoline]
  · rw [tr.leaf_congr h.root (by decide) hm, h.trapframe]
  · rw [tr.leaf_congr h.root (by simp only [TRAPFRAME, TRAMPOLINE, VA_MAX, PGSIZE] at *; omega) hm,
      h.low va hva]

/-- `proc_alloc` finds no slot, or no page for the trapframe, or takes four pages. -/
theorem wp_procAlloc (w : Owned L s own l)
    (hno : ∀ q, (s.procs q).state = .unused → ∀ n h v, own n ≠ .node q h v) :
    wp (procAlloc L)
      (fun res s' => match findUnused s with
        | none => res = none ∧ s' = s
        | some np => 0 ≤ s.globalPid ∧
          (res = none ∧ l = [] ∧ s' = { s with
              procs := Function.update s.procs np { s.procs np with pid := s.globalPid, tf := 0 }
              globalPid := incInt s.globalPid
              starved := true } ∨
          res = some np ∧ ∃ r t own' l', NewProc L np s own r t s' own' l' ∧
            l.length = l'.length + 4))
      (fun _ s' => s.globalPid < 0 ∧ s'.starved = s.starved ∨
        0 ≤ s.globalPid ∧ 0 < l.length ∧ l.length < 4 ∧ s'.starved = true) s := by
  simp only [procAlloc, wp_bind, wp_get]
  cases hfu : findUnused s with
  | none => exact ⟨rfl, rfl⟩
  | some np =>
    have hun : (s.procs np).state = .unused := by
      have := List.find?_some hfu; simpa using this
    simp only [wp_bind, allocPid, wp_get, wp_assert, wp_set, wp_pure,
      wp_setProc, decide_eq_true_eq]
    split
    case isFalse => rename_i hpid; exact .inl ⟨by omega, trivial⟩
    rename_i hpid
    refine wp_pmemAlloc (l := l) (w.ofRest rfl rfl) (fun hl => ?_) (fun t l1 hl => ?_)
    · simp only [if_true, wp_pure]
      exact ⟨hpid, .inl ⟨trivial, hl, by simp⟩⟩
    subst hl
    have hfree := w.free t (by simp)
    have ht0 : PGSIZE * t ≠ 0 := by
      have := w.page_pos (n := t) (by simp [hfree]); simp only [PGSIZE]; omega
    simp only [ht0, if_false, wp_bind, wp_memset, taken_clear_le (show TF_SIZE ≤ PGSIZE by decide)]
    have e1 := w.take_frame (q := np) TRAPFRAME_VPN
    refine wp_conseq (wp_procPgtblInit np (t := t) (e1.owned.ofRest rfl rfl)
      (by simp) fun n h v hn => ?_) ?_ ?_
    · by_cases hnt : n = t
      · subst hnt
        simp only [Function.update_self, Owner.node.injEq] at hn
        exact ⟨hn.2.1.symm, rfl⟩
      · exact absurd (by simpa [hnt] using hn) (hno np hun n h v)
    · rintro - s2 ⟨own2, l2, r, rfl, w2, hrest, hg, hns, hlen⟩
      have hr0 : PGSIZE * r ≠ 0 := by
        have := w2.page_pos (n := r) (by simp [hns.root]); simp only [PGSIZE]; omega
      simp only [wp_bind, wp_setProc, hr0, if_false, setExitState, wp_modify,
        wp_pure]
      have hstatic : ∀ {n q' h v}, own2 n = .node q' h v → ∀ a, a / PGSIZE = n →
          Bytes.store 4 s2.mem (L.exitState np) 0 a = s2.mem a :=
        fun hn a ha => exitState_outside w2 (by simp [hn]) a ha
      refine ⟨hpid, .inr ⟨trivial, r, t, own2, l2, ⟨?_, ?_, ?_, ?_⟩, ?_⟩⟩
      · refine (w2.setMem fun n hn a ha => ?_).ofRest rfl rfl
        refine exitState_outside w2 ?_ a ha
        rcases hn with hn | ⟨q, k, v, hn⟩ <;> simp [hn]
      · simp only [Machine.rest, Rest.mk.injEq] at hrest ⊢
        obtain ⟨h1, h2, h3, h4, h5, h6, h7, h8, h9⟩ := hrest
        simp only [h1, h2, h3, h4, h5, h6, h7, h8, h9, Function.update_idem, Function.update_self, fresh,
          taken_user, and_self]
      · refine (e1.grows.trans hg).poke fun hn a ha => ?_
        exact hstatic ((e1.grows.trans hg).keeps hn (by simp)) a ha
      · exact hns.congr w2.tree fun hn => hstatic hn
      · simp only [List.length_cons]; omega
    · rintro _ _ ⟨h, hs⟩
      exact .inr ⟨hpid, by simp, by simp only [List.length_cons]; omega, hs⟩

end Proc
end WhuOS
