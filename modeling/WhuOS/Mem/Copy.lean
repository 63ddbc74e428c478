import WhuOS.Mem.Walk

/-!
# WhuOS.Mem.Copy

The user copies of `kernel/mem/uvm.c`: `uvm_copyin`, `uvm_copyout` and `uvm_copyin_str`. Each one
walks the page table for every page of the user range and moves the bytes through the frame it
finds; the history variable `accesses` records the entry and the bytes.

None of them looks at `PTE_U` or at the permission. `copies_user_only` says exactly when that does
no harm; the trapframe page shows that it can (`copyout_reaches_trapframe`).
-/

namespace WhuOS
namespace Mem

open Lib Kern

/-! ## The model -/

def kernelAccess (L : Layout) (write : Bool) : Nat → Bool :=
  if write then kernelWrites L else kernelReads L

/-- One `memmove` between user memory at `pa`, in the frame of `pte`, and the kernel at `k`. -/
def userMove (L : Layout) (write : Bool) (pte pa k n : Nat) : MemM Unit := do
  touch (kernelAccess L write) (pteToPa pte)
  modify fun s => { s with accesses := s.accesses ++ [⟨write, pte, pa, n⟩] }
  if write then memmove pa k n else memmove k pa n

/-- The loop of `uvm_copyin` and `uvm_copyout` over the user range `[u, u + len)`. Every pass moves
at least one byte, so `len` passes are enough. -/
def copyLoop (L : Layout) (write : Bool) (msg : String) (pgtbl : Nat) :
    Nat → Nat → Nat → Nat → MemM Unit
  | 0, _, _, len => if len = 0 then return () else throw .hang
  | fuel + 1, u, k, len =>
    if len = 0 then return ()
    else do
      let va0 := pgRoundDown u
      match ← vmGetpte pgtbl va0 false with
      | none => Kern.panic msg
      | some a =>
        let pte ← load64 a
        if !pteHas pte PTE_V then Kern.panic msg
        let n := min (PGSIZE - (u - va0)) len
        userMove L write pte (pteToPa pte + (u - va0)) k n
        copyLoop L write msg pgtbl fuel (va0 + PGSIZE) (k + n) (len - n)

def uvmCopyin (L : Layout) (pgtbl dst src len : Nat) : MemM Unit :=
  copyLoop L false "uvm_copyin: invalid page" pgtbl len src dst len

def uvmCopyout (L : Layout) (pgtbl dst src len : Nat) : MemM Unit :=
  copyLoop L true "uvm_copyout: invalid page" pgtbl len dst src len

/-- The inner loop of `uvm_copyin_str` over `n` bytes of one page: was a NUL found? -/
def copyStrPage (L : Layout) (pte : Nat) : Nat → Nat → Nat → MemM Bool
  | 0, _, _ => return false
  | n + 1, p, dst => do
    touch (kernelReads L) (pteToPa pte)
    modify fun s => { s with accesses := s.accesses ++ [⟨false, pte, p, 1⟩] }
    let c := (← get).mem p
    memmove dst p 1
    if c = 0 then return true
    else copyStrPage L pte n (p + 1) (dst + 1)

/-- The outer loop of `uvm_copyin_str`. -/
def copyStrLoop (L : Layout) (pgtbl : Nat) : Nat → Nat → Nat → Nat → MemM Unit
  | 0, _, _, maxlen => if maxlen = 0 then return () else throw .hang
  | fuel + 1, src, dst, maxlen =>
    if maxlen = 0 then return ()
    else do
      let va0 := pgRoundDown src
      match ← vmGetpte pgtbl va0 false with
      | none => Kern.panic "uvm_copyin_str: invalid page"
      | some a =>
        let pte ← load64 a
        if !pteHas pte PTE_V then Kern.panic "uvm_copyin_str: invalid page"
        let n := min (PGSIZE - (src - va0)) maxlen
        let gotNull ← copyStrPage L pte n (pteToPa pte + (src - va0)) dst
        if gotNull then return ()
        else copyStrLoop L pgtbl fuel (va0 + PGSIZE) (dst + n) (maxlen - n)

def uvmCopyinStr (L : Layout) (pgtbl dst src maxlen : Nat) : MemM Unit :=
  copyStrLoop L pgtbl maxlen src dst maxlen

/-! ## What a copy touches, from the state before it -/

/-- Page `v` has a byte of `[u, u + len)`. -/
def inPages (u len v : Nat) : Prop := v % PGSIZE = 0 ∧ max u v < min (v + PGSIZE) (u + len)

/-- A copy gets through page `v`: it is mapped, and the kernel can access its frame. -/
def Opens (L : Layout) (write : Bool) (m : Bytes) (pgtbl v : Nat) : Prop :=
  v < VA_MAX ∧ pteHas (leafPte m pgtbl v) PTE_V = true ∧
    kernelAccess L write (pteToPa (leafPte m pgtbl v)) = true

/-- The entry lets the user itself make the access. -/
def UserMay (write : Bool) (pte : Nat) : Prop :=
  pteHas pte PTE_V = true ∧ pteHas pte PTE_U = true ∧
    pteHas pte (if write then PTE_W else PTE_R) = true

instance (write : Bool) (pte : Nat) : Decidable (UserMay write pte) :=
  inferInstanceAs (Decidable (_ ∧ _))

/-- Bytes that a copy may store to. -/
def Stores (L : Layout) (write : Bool) (m : Bytes) (pgtbl u k len a : Nat) : Prop :=
  if write then
    ∃ v, inPages u len v ∧ Opens L write m pgtbl v ∧
      pteToPa (leafPte m pgtbl v) ≤ a ∧ a < pteToPa (leafPte m pgtbl v) + PGSIZE
  else k ≤ a ∧ a < k + len

/-- What the copy stores to is not an entry that its walks read. -/
def Apart (L : Layout) (write : Bool) (m : Bytes) (pgtbl u k len : Nat) : Prop :=
  ∀ a, Stores L write m pgtbl u k len a → ∀ w, inPages u len w → ¬ onWalk m pgtbl w a

/-- Every recorded access stays inside the frame of its entry, and the user could have made it. -/
def InUserMemory (l : List UserAccess) : Prop :=
  ∀ a ∈ l, UserMay a.write a.pte ∧ pteToPa a.pte ≤ a.addr ∧ a.addr + a.len ≤ pteToPa a.pte + PGSIZE

/-! ## Going through the pages of a range -/

/-- Where the part of `[u, u + len)` in page `w` ends. -/
def pageLen (u len w : Nat) : Nat := min (w + PGSIZE) (u + len) - max u w

section Pages

variable (opens : Nat → Prop) (stops : Nat → Nat → Nat → Bool)

/-- The accesses of a loop over the pages of `[u, u + len)`: `part v a n` are those for the `n` bytes
from `a` on in page `v`; the loop ends at a page that does not open or that stops it. -/
def pagesTrace [DecidablePred opens] (part : Nat → Nat → Nat → List UserAccess) :
    Nat → Nat → Nat → List UserAccess
  | 0, _, _ => []
  | fuel + 1, u, len =>
    if len = 0 then []
    else
      let va0 := pgRoundDown u
      let n := min (PGSIZE - (u - va0)) len
      if opens va0 then
        part va0 u n ++ if stops va0 u n then [] else pagesTrace part fuel (va0 + PGSIZE) (len - n)
      else []

/-- The loop over `[u, u + len)` gets to page `v`. -/
def Visits (u len v : Nat) : Prop :=
  inPages u len v ∧ (∀ w, inPages u len w → w ≤ v → opens w) ∧
    ∀ w, inPages u len w → w < v → stops w (max u w) (pageLen u len w) = false

theorem pgRoundDown_le (u : Nat) : pgRoundDown u ≤ u ∧ u < pgRoundDown u + PGSIZE ∧
    pgRoundDown u % PGSIZE = 0 := by
  unfold pgRoundDown PGSIZE; omega

theorem inPages_le {u len v : Nat} (h : inPages u len v) : pgRoundDown u ≤ v ∧ v % PGSIZE = 0 := by
  obtain ⟨h1, h2⟩ := h
  unfold pgRoundDown
  simp only [PGSIZE] at *
  omega

theorem pageLen_first (u len : Nat) :
    pageLen u len (pgRoundDown u) = min (PGSIZE - (u - pgRoundDown u)) len ∧
      max u (pgRoundDown u) = u := by
  obtain ⟨h1, h2, -⟩ := pgRoundDown_le u
  unfold pageLen; omega

theorem inPages_cons {u len : Nat} (hlen : len ≠ 0) (v : Nat) :
    inPages u len v ↔ v = pgRoundDown u ∨
      inPages (pgRoundDown u + PGSIZE) (len - min (PGSIZE - (u - pgRoundDown u)) len) v := by
  obtain ⟨h1, h2, h3⟩ := pgRoundDown_le u
  constructor
  · intro h
    obtain ⟨h4, h5⟩ := inPages_le h
    obtain ⟨-, h6⟩ := h
    by_cases hv : v = pgRoundDown u
    · exact .inl hv
    · have hstep : pgRoundDown u + PGSIZE ≤ v := by simp only [PGSIZE] at *; omega
      exact .inr ⟨h5, by omega⟩
  · rintro (rfl | ⟨ha, hb⟩)
    · exact ⟨h3, by omega⟩
    · exact ⟨ha, by omega⟩

theorem pageLen_rest {u len : Nat} (v : Nat)
    (hv : inPages (pgRoundDown u + PGSIZE) (len - min (PGSIZE - (u - pgRoundDown u)) len) v) :
    max (pgRoundDown u + PGSIZE) v = max u v ∧
    pageLen (pgRoundDown u + PGSIZE) (len - min (PGSIZE - (u - pgRoundDown u)) len) v =
      pageLen u len v ∧ pgRoundDown u < v := by
  obtain ⟨h1, h2, h3⟩ := pgRoundDown_le u
  obtain ⟨h4, h5⟩ := inPages_le hv
  have h7 : pgRoundDown (pgRoundDown u + PGSIZE) = pgRoundDown u + PGSIZE := by
    unfold pgRoundDown PGSIZE; omega
  obtain ⟨-, hb⟩ := hv
  rw [h7] at h4
  unfold pageLen
  refine ⟨by omega, by omega, by omega⟩

theorem visits_cons {u len : Nat} (hlen : len ≠ 0) (v : Nat) :
    Visits opens stops u len v ↔ opens (pgRoundDown u) ∧
      (v = pgRoundDown u ∨
        stops (pgRoundDown u) u (min (PGSIZE - (u - pgRoundDown u)) len) = false ∧
        Visits opens stops (pgRoundDown u + PGSIZE)
          (len - min (PGSIZE - (u - pgRoundDown u)) len) v) := by
  have hcons := inPages_cons (u := u) hlen
  have hrest := @pageLen_rest u len
  obtain ⟨hfl, hfm⟩ := pageLen_first u len
  constructor
  · rintro ⟨hin, hop, hst⟩
    have hfirst : inPages u len (pgRoundDown u) := (hcons _).mpr (.inl rfl)
    have hle := (inPages_le hin).1
    refine ⟨hop _ hfirst hle, ?_⟩
    rcases (hcons v).mp hin with rfl | hr
    · exact .inl rfl
    · have hlt := (hrest v hr).2.2
      refine .inr ⟨?_, hr, fun w hw hwv => hop w ((hcons w).mpr (.inr hw)) hwv, ?_⟩
      · have := hst _ hfirst hlt
        rwa [hfl, hfm] at this
      · intro w hw hwv
        obtain ⟨e1, e2, -⟩ := hrest w hw
        rw [e1, e2]
        exact hst w ((hcons w).mpr (.inr hw)) hwv
  · rintro ⟨hop, rfl | ⟨hst, hr, hop', hst'⟩⟩
    · refine ⟨(hcons _).mpr (.inl rfl), ?_, ?_⟩
      · intro w hw hwv
        have : w = pgRoundDown u := Nat.le_antisymm hwv (inPages_le hw).1
        rw [this]; exact hop
      · intro w hw hwv; have := (inPages_le hw).1; omega
    · refine ⟨(hcons v).mpr (.inr hr), ?_, ?_⟩
      · intro w hw hwv
        rcases (hcons w).mp hw with rfl | hw'
        · exact hop
        · exact hop' w hw' hwv
      · intro w hw hwv
        rcases (hcons w).mp hw with rfl | hw'
        · rwa [hfl, hfm]
        · obtain ⟨e1, e2, -⟩ := hrest w hw'
          rw [← e1, ← e2]; exact hst' w hw' hwv

theorem mem_pagesTrace [DecidablePred opens] (part : Nat → Nat → Nat → List UserAccess)
    (a : UserAccess) :
    ∀ (fuel u len : Nat), len ≤ fuel →
      (a ∈ pagesTrace opens stops part fuel u len ↔
        ∃ v, Visits opens stops u len v ∧ a ∈ part v (max u v) (pageLen u len v)) := by
  intro fuel
  induction fuel with
  | zero =>
    intro u len hle
    have : len = 0 := by omega
    subst this
    simp only [pagesTrace, List.not_mem_nil, false_iff]
    rintro ⟨v, ⟨⟨-, h⟩, -⟩, -⟩
    omega
  | succ fuel ih =>
    intro u len hle
    by_cases hlen : len = 0
    · subst hlen
      simp only [pagesTrace, if_true, List.not_mem_nil, false_iff]
      rintro ⟨v, ⟨⟨-, h⟩, -⟩, -⟩
      omega
    · have hn : len - min (PGSIZE - (u - pgRoundDown u)) len ≤ fuel := by
        obtain ⟨h4, h5, h6⟩ := pgRoundDown_le u
        omega
      have ih' := ih (pgRoundDown u + PGSIZE) _ hn
      simp only [visits_cons opens stops hlen]
      obtain ⟨hfl, hfm⟩ := pageLen_first u len
      simp only [pagesTrace, if_neg hlen]
      by_cases hop : opens (pgRoundDown u)
      · simp only [hop, if_true, List.mem_append, true_and]
        constructor
        · rintro (hp | hp)
          · exact ⟨_, .inl rfl, by rwa [hfm, hfl]⟩
          · split at hp
            · simp at hp
            · rename_i hst
              obtain ⟨v, hv, hpv⟩ := ih'.mp hp
              obtain ⟨e1, e2, -⟩ := pageLen_rest v hv.1
              exact ⟨v, .inr ⟨by simpa using hst, hv⟩, by rwa [← e1, ← e2]⟩
        · rintro ⟨v, rfl | ⟨hst, hv⟩, hp⟩
          · rw [hfm, hfl] at hp; exact .inl hp
          · obtain ⟨e1, e2, -⟩ := pageLen_rest v hv.1
            refine .inr ?_
            rw [if_neg (by simp [hst])]
            exact ih'.mpr ⟨v, hv, by rwa [e1, e2]⟩
      · simp [hop]

end Pages

/-! ## `uvm_copyin` and `uvm_copyout` -/

instance (L : Layout) (write : Bool) (m : Bytes) (pgtbl : Nat) :
    DecidablePred (Opens L write m pgtbl) := fun _ => inferInstanceAs (Decidable (_ ∧ _))

/-- The one access of a copy in page `v`, for the `n` bytes from `a` on. -/
def movePart (write : Bool) (m : Bytes) (pgtbl v a n : Nat) : List UserAccess :=
  [⟨write, leafPte m pgtbl v, pteToPa (leafPte m pgtbl v) + (a - v), n⟩]

section Loop

variable {L : Layout} {write : Bool} {msg : String} {m : Bytes} {pgtbl : Nat}

/-- One pass: the walk in `s`, whose memory agrees with `m` on the walk, finds the entry of `m`. -/
theorem wp_getpte_agree {s : Machine} {v : Nat} {β : Type} {f : Nat → MemM β}
    {Q : β → Machine → Prop} {E : Stop → Machine → Prop}
    (hs : ∀ a, onWalk m pgtbl v a → s.mem a = m a)
    (hok : v < VA_MAX → pteHas (leafPte m pgtbl v) PTE_V = true →
      wp (f (leafPte m pgtbl v)) Q E s)
    (hstop : ¬ (v < VA_MAX ∧ pteHas (leafPte m pgtbl v) PTE_V = true) → ∀ e, E e s) :
    wp (do
      match ← vmGetpte pgtbl v false with
      | none => Kern.panic msg
      | some a =>
        let pte ← load64 a
        if !pteHas pte PTE_V then Kern.panic msg
        f pte) Q E s := by
  obtain ⟨hw, hl⟩ := leafPte_congr hs
  rw [wp_bind, wp_vmGetpte_false]
  by_cases hv : v < VA_MAX
  · rw [if_pos hv, hw]
    cases e : walk m pgtbl v with
    | none =>
      have : leafPte m pgtbl v = 0 := by simp [leafPte, e]
      exact hstop (by simp [this, pteHas_zero]) _
    | some a =>
      have hpte : Bytes.load 8 s.mem a = leafPte m pgtbl v := by
        rw [← hl]; simp [leafPte, hw, e]
      simp only [wp_bind, wp_load64, hpte]
      by_cases hval : pteHas (leafPte m pgtbl v) PTE_V = true
      · simpa [hval] using hok hv hval
      · simpa [hval] using hstop (fun h => hval h.2) _
  · rw [if_neg hv]; exact hstop (fun h => hv h.1) _

/-- The memory after `userMove`. -/
def movedMem (write : Bool) (m : Bytes) (pa k n : Nat) : Bytes :=
  if write then m.write pa n (fun i => m (k + i)) else m.write k n (fun i => m (pa + i))

theorem wp_userMove {pte pa k n : Nat} {s : Machine} {Q : Unit → Machine → Prop}
    {E : Stop → Machine → Prop} :
    wp (userMove L write pte pa k n) Q E s ↔
      if kernelAccess L write (pteToPa pte) then
        Q () { s with
          mem := movedMem write s.mem pa k n, accesses := s.accesses ++ [⟨write, pte, pa, n⟩] }
      else E .fault s := by
  simp only [userMove, wp_bind, wp_touch]
  split
  · cases write <;> simp [movedMem]
  · rfl

theorem movedMem_outside {s : Bytes} {pa k n a : Nat}
    (h : ¬ if write then pa ≤ a ∧ a < pa + n else k ≤ a ∧ a < k + n) :
    movedMem write s pa k n a = s a := by
  cases write with
  | false =>
    simp only [movedMem, Bool.false_eq_true, if_false] at h ⊢
    exact Bytes.write_outside (by omega)
  | true =>
    simp only [movedMem, if_true] at h ⊢
    exact Bytes.write_outside (by omega)

theorem stores_first {u k len a : Nat} (hlen : len ≠ 0)
    (hop : Opens L write m pgtbl (pgRoundDown u))
    (ha : if write then
        pteToPa (leafPte m pgtbl (pgRoundDown u)) + (u - pgRoundDown u) ≤ a ∧
          a < pteToPa (leafPte m pgtbl (pgRoundDown u)) + (u - pgRoundDown u) +
            min (PGSIZE - (u - pgRoundDown u)) len
      else k ≤ a ∧ a < k + min (PGSIZE - (u - pgRoundDown u)) len) :
    Stores L write m pgtbl u k len a := by
  obtain ⟨h1, h2, -⟩ := pgRoundDown_le u
  unfold Stores
  cases write with
  | false => simp only [Bool.false_eq_true, if_false] at ha ⊢; omega
  | true =>
    simp only [if_true] at ha ⊢
    exact ⟨_, (inPages_cons hlen _).mpr (.inl rfl), hop, by omega, by omega⟩

theorem stores_rest {u k len a : Nat} (hlen : len ≠ 0)
    (h : Stores L write m pgtbl (pgRoundDown u + PGSIZE) (k + min (PGSIZE - (u - pgRoundDown u)) len)
      (len - min (PGSIZE - (u - pgRoundDown u)) len) a) :
    Stores L write m pgtbl u k len a := by
  unfold Stores at h ⊢
  cases write with
  | false => simp only [Bool.false_eq_true, if_false] at h ⊢; omega
  | true =>
    simp only [if_true] at h ⊢
    obtain ⟨v, hv, hrest⟩ := h
    exact ⟨v, (inPages_cons hlen v).mpr (.inr hv), hrest⟩

theorem copyLoop_trace :
    ∀ (fuel u k len : Nat) (s : Machine), len ≤ fuel → Apart L write m pgtbl u k len →
      (∀ w, inPages u len w → ∀ a, onWalk m pgtbl w a → s.mem a = m a) →
      wp (copyLoop L write msg pgtbl fuel u k len)
        (fun _ t => t.accesses = s.accesses ++ pagesTrace (Opens L write m pgtbl)
          (fun _ _ _ => false) (movePart write m pgtbl) fuel u len)
        (fun _ t => t.accesses = s.accesses ++ pagesTrace (Opens L write m pgtbl)
          (fun _ _ _ => false) (movePart write m pgtbl) fuel u len) s := by
  intro fuel
  induction fuel with
  | zero =>
    intro u k len s hle _ _
    have : len = 0 := by omega
    simp [copyLoop, pagesTrace, this]
  | succ fuel ih =>
    intro u k len s hle hap hag
    by_cases hlen : len = 0
    · simp [copyLoop, pagesTrace, hlen]
    · obtain ⟨hle1, hlt1, -⟩ := pgRoundDown_le u
      have hfirst : inPages u len (pgRoundDown u) := (inPages_cons hlen _).mpr (.inl rfl)
      simp only [copyLoop, if_neg hlen, pagesTrace]
      refine wp_getpte_agree (hag _ hfirst) ?_ ?_
      · intro hva hval
        by_cases hacc : kernelAccess L write (pteToPa (leafPte m pgtbl (pgRoundDown u))) = true
        · have hop : Opens L write m pgtbl (pgRoundDown u) := ⟨hva, hval, hacc⟩
          have hap' : Apart L write m pgtbl (pgRoundDown u + PGSIZE)
              (k + min (PGSIZE - (u - pgRoundDown u)) len)
              (len - min (PGSIZE - (u - pgRoundDown u)) len) := fun a ha w hw =>
            hap a (stores_rest hlen ha) w ((inPages_cons hlen w).mpr (.inr hw))
          simp only [wp_bind, wp_userMove, hacc, if_true, hop, Bool.false_eq_true, if_false]
          -- what the pass stores to is not on the walks of the later pages
          have hag' : ∀ w, inPages (pgRoundDown u + PGSIZE)
              (len - min (PGSIZE - (u - pgRoundDown u)) len) w → ∀ a, onWalk m pgtbl w a →
              movedMem write s.mem (pteToPa (leafPte m pgtbl (pgRoundDown u)) +
                (u - pgRoundDown u)) k (min (PGSIZE - (u - pgRoundDown u)) len) a = m a := by
            intro w hw a ha
            have hw' := (inPages_cons hlen w).mpr (.inr hw)
            rw [movedMem_outside fun h => hap a (stores_first hlen hop h) w hw' ha]
            exact hag w hw' a ha
          refine wp_conseq (ih _ _ _ _ (by omega) hap' hag') ?_ ?_ <;>
            (intro _ t ht; simpa [movePart, List.append_assoc] using ht)
        · have hno : ¬ Opens L write m pgtbl (pgRoundDown u) := fun h => hacc h.2.2
          simp [wp_userMove, hacc, hno]
      · intro hno e
        have : ¬ Opens L write m pgtbl (pgRoundDown u) := fun h => hno ⟨h.1, h.2.1⟩
        simp [this]

/-! ## `uvm_copyin_str` -/

/-- The accesses of the inner loop for `n` bytes from `p` on: up to the first NUL. -/
def strPart (m : Bytes) (pte : Nat) : Nat → Nat → List UserAccess
  | 0, _ => []
  | n + 1, p => ⟨false, pte, p, 1⟩ :: if m p = 0 then [] else strPart m pte n (p + 1)

/-- There is a NUL among the `n` bytes from `p` on. -/
def strNull (m : Bytes) : Nat → Nat → Bool
  | 0, _ => false
  | n + 1, p => m p = 0 || strNull m n (p + 1)

theorem copyStrPage_trace {pte : Nat} (hacc : kernelReads L (pteToPa pte) = true) :
    ∀ (n p dst : Nat) (s : Machine), (∀ i j, i < n → j < n → p + i ≠ dst + j) →
      (∀ i, i < n → s.mem (p + i) = m (p + i)) →
      wp (copyStrPage L pte n p dst)
        (fun r t => t.accesses = s.accesses ++ strPart m pte n p ∧ r = strNull m n p ∧
          ∀ a, a < dst ∨ dst + n ≤ a → t.mem a = s.mem a)
        (fun _ _ => False) s := by
  intro n
  induction n with
  | zero => intro p dst s _ _; simp [copyStrPage, strPart, strNull]
  | succ n ih =>
    intro p dst s hne hag
    have hp : s.mem p = m p := hag 0 (by omega)
    simp only [copyStrPage, wp_bind, wp_touch, hacc, if_true, wp_modify, wp_get,
      wp_memmove, hp]
    by_cases hc : m p = 0
    · simp only [hc, if_true, wp_pure, strPart, strNull, decide_true, Bool.true_or, true_and]
      intro a ha
      have hout : a < dst ∨ dst + 1 ≤ a := by omega
      exact Bytes.write_outside hout
    · simp only [hc, if_false]
      refine wp_conseq (ih (p + 1) (dst + 1) _ ?_ ?_) ?_ (fun _ _ h => h)
      · intro i j hi hj; have := hne (i + 1) (j + 1) (by omega) (by omega); omega
      · intro i hi
        have h0 := hne (i + 1) 0 (by omega) (by omega)
        have := hag (i + 1) (by omega)
        rw [show p + 1 + i = p + (i + 1) by omega]
        simp only
        rw [Bytes.write_outside (by omega)]
        exact this
      · rintro r t ⟨h1, h2, h3⟩
        refine ⟨?_, ?_, ?_⟩
        · simpa [strPart, hc, List.append_assoc] using h1
        · simpa [strNull, hc] using h2
        · intro a ha
          have hout : a < dst ∨ dst + 1 ≤ a := by omega
          rw [h3 a (by omega)]
          dsimp only
          exact Bytes.write_outside hout

/-- A NUL ends the loop in page `v`, in its `n` bytes from `a` on. -/
def strStops (m : Bytes) (pgtbl v a n : Nat) : Bool :=
  strNull m n (pteToPa (leafPte m pgtbl v) + (a - v))

def strPagePart (m : Bytes) (pgtbl v a n : Nat) : List UserAccess :=
  strPart m (leafPte m pgtbl v) n (pteToPa (leafPte m pgtbl v) + (a - v))

/-- Byte `a` belongs to the user range, in a page that opens. -/
def StrByte (L : Layout) (m : Bytes) (pgtbl u len a : Nat) : Prop :=
  ∃ v, inPages u len v ∧ Opens L false m pgtbl v ∧
    ∃ i, i < pageLen u len v ∧ a = pteToPa (leafPte m pgtbl v) + (max u v - v) + i

/-- The kernel's buffer is neither on the walks nor among the bytes that are read. -/
def StrApart (L : Layout) (m : Bytes) (pgtbl u k len : Nat) : Prop :=
  Apart L false m pgtbl u k len ∧ ∀ a, StrByte L m pgtbl u len a → ¬ (k ≤ a ∧ a < k + len)

theorem strByte_rest {u len a : Nat} (hlen : len ≠ 0)
    (h : StrByte L m pgtbl (pgRoundDown u + PGSIZE)
      (len - min (PGSIZE - (u - pgRoundDown u)) len) a) : StrByte L m pgtbl u len a := by
  obtain ⟨v, hv, hop, i, hi, rfl⟩ := h
  obtain ⟨e1, e2, -⟩ := pageLen_rest v hv
  exact ⟨v, (inPages_cons hlen v).mpr (.inr hv), hop, i, by rwa [← e2], by rw [e1]⟩

theorem copyStrLoop_trace :
    ∀ (fuel u k len : Nat) (s : Machine), len ≤ fuel → StrApart L m pgtbl u k len →
      (∀ w, inPages u len w → ∀ a, onWalk m pgtbl w a → s.mem a = m a) →
      (∀ a, StrByte L m pgtbl u len a → s.mem a = m a) →
      wp (copyStrLoop L pgtbl fuel u k len)
        (fun _ t => t.accesses = s.accesses ++ pagesTrace (Opens L false m pgtbl)
          (strStops m pgtbl) (strPagePart m pgtbl) fuel u len)
        (fun _ t => t.accesses = s.accesses ++ pagesTrace (Opens L false m pgtbl)
          (strStops m pgtbl) (strPagePart m pgtbl) fuel u len) s := by
  intro fuel
  induction fuel with
  | zero =>
    intro u k len s hle _ _ _
    have : len = 0 := by omega
    simp [copyStrLoop, pagesTrace, this]
  | succ fuel ih =>
    intro u k len s hle hap hag hsb
    by_cases hlen : len = 0
    · simp [copyStrLoop, pagesTrace, hlen]
    · obtain ⟨hle1, hlt1, -⟩ := pgRoundDown_le u
      obtain ⟨hfl, hfm⟩ := pageLen_first u len
      have hfirst : inPages u len (pgRoundDown u) := (inPages_cons hlen _).mpr (.inl rfl)
      simp only [copyStrLoop, if_neg hlen, pagesTrace]
      refine wp_getpte_agree (hag _ hfirst) ?_ ?_
      · intro hva hval
        simp only [wp_bind]
        by_cases hacc : kernelReads L (pteToPa (leafPte m pgtbl (pgRoundDown u))) = true
        · have hop : Opens L false m pgtbl (pgRoundDown u) := ⟨hva, hval, hacc⟩
          have hbyte : ∀ i, i < min (PGSIZE - (u - pgRoundDown u)) len →
              StrByte L m pgtbl u len (pteToPa (leafPte m pgtbl (pgRoundDown u)) +
                (u - pgRoundDown u) + i) :=
            fun i hi => ⟨_, hfirst, hop, i, by rwa [hfl], by rw [hfm]⟩
          refine wp_conseq (copyStrPage_trace hacc _ _ k s ?_ fun i hi => hsb _ (hbyte i hi))
            ?_ (fun _ _ h => h.elim)
          · intro i j hi hj he
            exact hap.2 _ (hbyte i hi) (by rw [he]; omega)
          · rintro r t ⟨h1, h2, h3⟩
            subst h2
            simp only [hop, if_true]
            by_cases hnull : strStops m pgtbl (pgRoundDown u) u
                (min (PGSIZE - (u - pgRoundDown u)) len) = true
            · have hn := hnull
              unfold strStops at hn
              simpa [hn, hnull, strPagePart] using h1
            · have hn := hnull
              unfold strStops at hn
              simp only [hn, hnull, Bool.false_eq_true, if_false]
              have hap' : StrApart L m pgtbl (pgRoundDown u + PGSIZE)
                  (k + min (PGSIZE - (u - pgRoundDown u)) len)
                  (len - min (PGSIZE - (u - pgRoundDown u)) len) :=
                ⟨fun a ha w hw => hap.1 a (stores_rest hlen ha) w ((inPages_cons hlen w).mpr (.inr hw)),
                  fun a ha hk => hap.2 a (strByte_rest hlen ha) (by omega)⟩
              have hout : ∀ a, ¬ (k ≤ a ∧ a < k + len) → t.mem a = s.mem a :=
                fun a ha => h3 a (by omega)
              refine wp_conseq (ih _ _ _ t (by omega) hap' ?_ ?_) ?_ ?_
              · intro w hw a ha
                have hw' := (inPages_cons hlen w).mpr (.inr hw)
                rw [hout a fun hk => hap.1 a hk w hw' ha]
                exact hag w hw' a ha
              · intro a ha
                rw [hout a (hap.2 a (strByte_rest hlen ha))]
                exact hsb a (strByte_rest hlen ha)
              · intro _ t' ht
                rw [ht, h1]; simp [strPagePart, List.append_assoc]
              · intro _ t' ht
                rw [ht, h1]; simp [strPagePart, List.append_assoc]
        · have hno : ¬ Opens L false m pgtbl (pgRoundDown u) := fun h => hacc h.2.2
          have hpos : 0 < min (PGSIZE - (u - pgRoundDown u)) len := by omega
          obtain ⟨n, hn⟩ : ∃ n, min (PGSIZE - (u - pgRoundDown u)) len = n + 1 := ⟨_, (Nat.sub_add_cancel hpos).symm⟩
          rw [hn]
          simp [copyStrPage, hacc, hno]
      · intro hno e
        have : ¬ Opens L false m pgtbl (pgRoundDown u) := fun h => hno ⟨h.1, h.2.1⟩
        simp [this]

end Loop

/-! ## Exactly when the copies stay in user memory -/

/-- The user memory that a call touches, whether it returns or stops. -/
def accessesOf {α : Type} (x : MemM α) (s : Machine) : List UserAccess :=
  (Kern.after x { s with accesses := [] }).accesses

/-- Every page that a copy of `[u, u + len)` gets to is one the user itself could access: pages are
gone through in order, as far as they are mapped and the kernel can access them. -/
def UserOnly (L : Layout) (write : Bool) (m : Bytes) (pgtbl u len : Nat) : Prop :=
  ∀ v, Visits (Opens L write m pgtbl) (fun _ _ _ => false) u len v →
    UserMay write (leafPte m pgtbl v)

/-- The same for a string, which ends at its first NUL. -/
def StrUserOnly (L : Layout) (m : Bytes) (pgtbl u len : Nat) : Prop :=
  ∀ v, Visits (Opens L false m pgtbl) (strStops m pgtbl) u len v → UserMay false (leafPte m pgtbl v)

section Exact

variable {L : Layout} {m : Bytes} {pgtbl u len : Nat}

theorem pageLen_pos {v : Nat} (h : inPages u len v) :
    0 < pageLen u len v ∧ max u v - v + pageLen u len v ≤ PGSIZE := by
  obtain ⟨-, h⟩ := h
  unfold pageLen; omega

theorem mem_strPart {pte : Nat} {a : UserAccess} :
    ∀ {n p : Nat}, a ∈ strPart m pte n p →
      a.write = false ∧ a.pte = pte ∧ p ≤ a.addr ∧ a.addr + a.len ≤ p + n := by
  intro n
  induction n with
  | zero => intro p h; simp [strPart] at h
  | succ n ih =>
    intro p h
    simp only [strPart, List.mem_cons] at h
    rcases h with rfl | h
    · simp
    · split at h
      · simp at h
      · obtain ⟨h1, h2, h3, h4⟩ := ih h
        exact ⟨h1, h2, by omega, by omega⟩

/-- A loop over pages stays in user memory iff each page it gets to may be accessed, when every page
has an access and all of them are inside the frame of its entry. -/
theorem inUserMemory_pagesTrace {opens : Nat → Prop} [DecidablePred opens]
    {stops : Nat → Nat → Nat → Bool} {part : Nat → Nat → Nat → List UserAccess} {write : Bool}
    {pte : Nat → Nat} {fuel : Nat} (hle : len ≤ fuel)
    (hsome : ∀ v, inPages u len v → ∃ a, a ∈ part v (max u v) (pageLen u len v))
    (hall : ∀ v a, inPages u len v → a ∈ part v (max u v) (pageLen u len v) →
      a.write = write ∧ a.pte = pte v ∧ pteToPa (pte v) ≤ a.addr ∧
        a.addr + a.len ≤ pteToPa (pte v) + PGSIZE) :
    InUserMemory (pagesTrace opens stops part fuel u len) ↔
      ∀ v, Visits opens stops u len v → UserMay write (pte v) := by
  constructor
  · intro h v hv
    obtain ⟨a, ha⟩ := hsome v hv.1
    have hu := (h a ((mem_pagesTrace opens stops part a fuel u len hle).mpr ⟨v, hv, ha⟩)).1
    obtain ⟨h1, h2, -⟩ := hall v a hv.1 ha
    rwa [h1, h2] at hu
  · intro h a ha
    obtain ⟨v, hv, hp⟩ := (mem_pagesTrace opens stops part a fuel u len hle).mp ha
    obtain ⟨h1, h2, h3, h4⟩ := hall v a hv.1 hp
    rw [h1, h2]
    exact ⟨h v hv, h3, h4⟩

theorem copyLoop_user_only {write : Bool} {msg : String} {k : Nat} (s : Machine)
    (hap : Apart L write s.mem pgtbl u k len) :
    InUserMemory (accessesOf (copyLoop L write msg pgtbl len u k len) s) ↔
      UserOnly L write s.mem pgtbl u len := by
  have ht : accessesOf (copyLoop L write msg pgtbl len u k len) s =
      pagesTrace (Opens L write s.mem pgtbl) (fun _ _ _ => false) (movePart write s.mem pgtbl)
        len u len :=
    Kern.after_iff.mpr (copyLoop_trace len u k len { s with accesses := [] } (Nat.le_refl _) hap
      fun _ _ _ _ => rfl)
  rw [ht]
  refine inUserMemory_pagesTrace (Nat.le_refl _) (fun v _ => ⟨_, List.mem_singleton.mpr rfl⟩) ?_
  intro v a hv ha
  obtain ⟨-, h⟩ := pageLen_pos hv
  obtain rfl := List.mem_singleton.mp ha
  exact ⟨rfl, rfl, by simp, by simp only; omega⟩

theorem copyStrLoop_user_only {k : Nat} (s : Machine) (hap : StrApart L s.mem pgtbl u k len) :
    InUserMemory (accessesOf (copyStrLoop L pgtbl len u k len) s) ↔
      StrUserOnly L s.mem pgtbl u len := by
  have ht : accessesOf (copyStrLoop L pgtbl len u k len) s =
      pagesTrace (Opens L false s.mem pgtbl) (strStops s.mem pgtbl) (strPagePart s.mem pgtbl)
        len u len :=
    Kern.after_iff.mpr (copyStrLoop_trace len u k len { s with accesses := [] } (Nat.le_refl _) hap
      (fun _ _ _ _ => rfl) fun _ _ => rfl)
  rw [ht]
  refine inUserMemory_pagesTrace (Nat.le_refl _) ?_ ?_
  · intro v hv
    obtain ⟨n, hn⟩ : ∃ n, pageLen u len v = n + 1 :=
      ⟨_, (Nat.sub_add_cancel (pageLen_pos hv).1).symm⟩
    exact ⟨_, by rw [hn]; exact List.mem_cons_self⟩
  · intro v a hv ha
    obtain ⟨-, h⟩ := pageLen_pos hv
    obtain ⟨h1, h2, h3, h4⟩ := mem_strPart ha
    exact ⟨h1, h2, by omega, by omega⟩

end Exact

/-- The user copies stay inside user memory exactly when every page they get to is one the user
itself could access, as long as they do not overwrite the entries they walk through. -/
theorem copies_user_only (L : Layout) (s : Machine) (pgtbl u k len : Nat) :
    (Apart L true s.mem pgtbl u k len →
      (InUserMemory (accessesOf (uvmCopyout L pgtbl u k len) s) ↔
        UserOnly L true s.mem pgtbl u len)) ∧
    (Apart L false s.mem pgtbl u k len →
      (InUserMemory (accessesOf (uvmCopyin L pgtbl k u len) s) ↔
        UserOnly L false s.mem pgtbl u len)) ∧
    (StrApart L s.mem pgtbl u k len →
      (InUserMemory (accessesOf (uvmCopyinStr L pgtbl k u len) s) ↔
        StrUserOnly L s.mem pgtbl u len)) :=
  ⟨copyLoop_user_only s, copyLoop_user_only s, copyStrLoop_user_only s⟩

/-! ## The trapframe page -/

/-- A kernel of 64 KiB of text and 64 KiB of data. -/
def smallLayout : Layout where
  trampoline := 0x8000f000
  etext := 0x80010000
  allocBegin := 0x80020000
  exitState := fun i => 0x80010000 + 4 * i.val
  initcode := []
  trapUserHandler := 0x80001000
  satp := 0
  trampoline_aligned := by decide
  trampoline_text := by decide
  etext_eq := by decide
  allocBegin_aligned := by decide
  allocBegin_le := by decide
  exitState_data := by intro i; have := i.isLt; simp only [Sched.NPROC] at this; omega

/-- A table at `0x80500000` whose only page is `va`, with frame `0x80503000`. -/
def onePageTable (va perm : Nat) : Bytes :=
  let m := Bytes.store 8 (fun _ => 0) (0x80500000 + 8 * vaToVpn va 2) (paToPte 0x80501000 ||| PTE_V)
  let m := Bytes.store 8 m (0x80501000 + 8 * vaToVpn va 1) (paToPte 0x80502000 ||| PTE_V)
  Bytes.store 8 m (0x80502000 + 8 * vaToVpn va 0) (paToPte 0x80503000 ||| perm ||| PTE_V)

def onePageMachine (va perm : Nat) : Machine where
  mem := onePageTable va perm
  kern := ⟨0, 0, 0, 0⟩
  user := ⟨0, 0, 0, 0⟩
  nodes := fun _ => ⟨0, 0, none, none⟩
  procs := fun _ => ⟨0, .unused, none, none, 0, 0, 0, none, 0⟩
  proczero := none
  globalPid := 1
  accesses := []
  starved := false

theorem onePage_tables :
    nextTable (onePageTable PGSIZE (PTE_R ||| PTE_W ||| PTE_U)) 0x80500000 = some 0x80501000 ∧
    nextTable (onePageTable PGSIZE (PTE_R ||| PTE_W ||| PTE_U)) 0x80501000 = some 0x80502000 ∧
    leafPte (onePageTable PGSIZE (PTE_R ||| PTE_W ||| PTE_U)) 0x80500000 PGSIZE =
      paToPte 0x80503000 ||| 23 := by
  decide +kernel

theorem onePage_inPages {v : Nat} (hv : inPages PGSIZE 8 v) : v = PGSIZE := by
  obtain ⟨ha, hb⟩ := hv
  simp only [PGSIZE] at *
  omega

theorem onePage_onWalk {a : Nat}
    (h : onWalk (onePageTable PGSIZE (PTE_R ||| PTE_W ||| PTE_U)) 0x80500000 PGSIZE a) :
    0x80500000 ≤ a ∧ a < 0x80503000 := by
  obtain ⟨h2, h1, -⟩ := onePage_tables
  have e2 : vaToVpn PGSIZE 2 = 0 := by decide
  have e1 : vaToVpn PGSIZE 1 = 0 := by decide
  have e0 : vaToVpn PGSIZE 0 = 1 := by decide
  simp only [onWalk, e2, e1, e0, Nat.mul_zero, Nat.add_zero, h2, h1, Option.some.injEq,
    exists_eq_left', inWord] at h
  omega

theorem onePage_frame : pteToPa (paToPte 0x80503000 ||| 23) = 0x80503000 := by decide +kernel

theorem onePage_apart_out (k : Nat) : Apart smallLayout true
    (onePageTable PGSIZE (PTE_R ||| PTE_W ||| PTE_U)) 0x80500000 PGSIZE k 8 := by
  rintro a ⟨v, hv, -, ha⟩ w hw h
  rw [onePage_inPages hv, onePage_tables.2.2, onePage_frame] at ha
  rw [onePage_inPages hw] at h
  have := onePage_onWalk h
  omega

/-- Writing eight bytes to a user page. -/
theorem copies_user_only_page :
    Apart smallLayout true (onePageTable PGSIZE (PTE_R ||| PTE_W ||| PTE_U)) 0x80500000 PGSIZE
      0x80011000 8 ∧
    InUserMemory (accessesOf (uvmCopyout smallLayout 0x80500000 PGSIZE 0x80011000 8)
      (onePageMachine PGSIZE (PTE_R ||| PTE_W ||| PTE_U))) := by
  have hap := onePage_apart_out 0x80011000
  refine ⟨hap, ((copies_user_only _ (onePageMachine _ _) _ _ _ _).1 hap).mpr ?_⟩
  intro v hv
  rw [onePage_inPages hv.1]
  show UserMay true (leafPte (onePageTable PGSIZE (PTE_R ||| PTE_W ||| PTE_U)) _ _)
  rw [onePage_tables.2.2]
  decide +kernel

/-- `uvm_copyout` to the address `TRAPFRAME`, mapped as `proc_pgtbl_init` maps it, overwrites the
trapframe. -/
theorem copyout_reaches_trapframe :
    ¬ ∀ (L : Layout) (s : Machine) (pgtbl u k len : Nat),
        InUserMemory (accessesOf (uvmCopyout L pgtbl u k len) s) ∧
        InUserMemory (accessesOf (uvmCopyin L pgtbl k u len) s) ∧
        InUserMemory (accessesOf (uvmCopyinStr L pgtbl k u len) s) := by
  intro h
  have hacc : accessesOf (uvmCopyout smallLayout 0x80500000 TRAPFRAME 0x80011000 8)
      (onePageMachine TRAPFRAME (PTE_R ||| PTE_W)) =
      [⟨true, paToPte 0x80503000 ||| 7, 0x80503000, 8⟩] := by decide +kernel
  have hout := (h smallLayout (onePageMachine TRAPFRAME (PTE_R ||| PTE_W)) 0x80500000 TRAPFRAME
    0x80011000 8).1
  rw [hacc] at hout
  have hmay := (hout _ (List.mem_singleton.mpr rfl)).1
  revert hmay
  decide +kernel

end Mem
end WhuOS
