import WhuOS.Mem.Copy

/-!
# WhuOS.Mem.CopyExact

`uvm_copyin` and `uvm_copyout` byte for byte. The loop has a partial first page, full pages and a
partial last one, and the frames are scattered; `userByte` gives the physical address of each byte
of the user range, and `copyLoop_moves` says that the loop is one move between these addresses and
the kernel's buffer, whatever the alignment.

* `UserRange` — the pages of the range are mapped, to frames of their own outside of the buffer.
* `Reachable` — the kernel's own table lets it access the frames, and what the copy stores to holds
  none of the entries that its walks read. Both are needed (`copies_not_exact`).
* `user_copies_exact` — both copies, and the one after the other.
-/

namespace WhuOS
namespace Mem

open Lib Kern

/-! ## The bytes of a user range -/

/-- The physical address of byte `i` of the user range from `u` on. -/
def userByte (m : Bytes) (pgtbl u i : Nat) : Nat :=
  pteToPa (leafPte m pgtbl (pgRoundDown (u + i))) + (u + i) % PGSIZE

/-- The pages of `[u, u + len)` are mapped, to distinct frames outside of the buffer
`[k, k + len)`. -/
structure UserRange (m : Bytes) (pgtbl u k len : Nat) : Prop where
  bound : u + len ≤ VA_MAX
  valid : ∀ {v}, inPages u len v → pteHas (leafPte m pgtbl v) PTE_V = true
  distinct : ∀ {v w}, inPages u len v → inPages u len w →
    pteToPa (leafPte m pgtbl v) = pteToPa (leafPte m pgtbl w) → v = w
  buffer : ∀ {v}, inPages u len v →
    pteToPa (leafPte m pgtbl v) + PGSIZE ≤ k ∨ k + len ≤ pteToPa (leafPte m pgtbl v)

/-- The kernel can access the frames, and a copy does not store to the entries it walks through. -/
structure Reachable (L : Layout) (write : Bool) (m : Bytes) (pgtbl u k len : Nat) : Prop where
  access : ∀ {v}, inPages u len v → kernelAccess L write (pteToPa (leafPte m pgtbl v)) = true
  apart : Apart L write m pgtbl u k len

section Range

variable {m : Bytes} {pgtbl u k len : Nat}

theorem inPages_byte {i : Nat} (hi : i < len) : inPages u len (pgRoundDown (u + i)) := by
  obtain ⟨h1, h2, h3⟩ := pgRoundDown_le (u + i)
  exact ⟨h3, by omega⟩

theorem inPages_lt {v : Nat} (hb : u + len ≤ VA_MAX) (hv : inPages u len v) : v < VA_MAX := by
  obtain ⟨-, hv⟩ := hv
  omega

theorem pteToPa_mod (pte : Nat) : pteToPa pte % PGSIZE = 0 := by
  unfold pteToPa PGSIZE; omega

theorem userByte_frame (m : Bytes) (pgtbl u i : Nat) :
    pteToPa (leafPte m pgtbl (pgRoundDown (u + i))) ≤ userByte m pgtbl u i ∧
      userByte m pgtbl u i < pteToPa (leafPte m pgtbl (pgRoundDown (u + i))) + PGSIZE := by
  unfold userByte
  have := Nat.mod_lt (u + i) (show 0 < PGSIZE by decide)
  omega

theorem userByte_first {i : Nat} (hi : i < PGSIZE - (u - pgRoundDown u)) :
    userByte m pgtbl u i = pteToPa (leafPte m pgtbl (pgRoundDown u)) + (u - pgRoundDown u) + i := by
  obtain ⟨h1, h2, h3⟩ := pgRoundDown_le u
  have hp : pgRoundDown (u + i) = pgRoundDown u := by
    unfold pgRoundDown at *; simp only [PGSIZE] at *; omega
  have ho : (u + i) % PGSIZE = u - pgRoundDown u + i := by
    unfold pgRoundDown at *; simp only [PGSIZE] at *; omega
  rw [userByte, hp, ho, Nat.add_assoc]

theorem userByte_rest (i : Nat) :
    userByte m pgtbl u (PGSIZE - (u - pgRoundDown u) + i) =
      userByte m pgtbl (pgRoundDown u + PGSIZE) i := by
  obtain ⟨h1, h2, -⟩ := pgRoundDown_le u
  unfold userByte
  rw [show u + (PGSIZE - (u - pgRoundDown u) + i) = pgRoundDown u + PGSIZE + i by omega]

namespace UserRange

variable (h : UserRange m pgtbl u k len)
include h

theorem byte_inj {i j : Nat} (hi : i < len) (hj : j < len)
    (heq : userByte m pgtbl u i = userByte m pgtbl u j) : i = j := by
  have h1 := userByte_frame m pgtbl u i
  have h2 := userByte_frame m pgtbl u j
  have a1 := pteToPa_mod (leafPte m pgtbl (pgRoundDown (u + i)))
  have a2 := pteToPa_mod (leafPte m pgtbl (pgRoundDown (u + j)))
  -- frames are pages, so the two frames are the same one
  have hf : pteToPa (leafPte m pgtbl (pgRoundDown (u + i))) =
      pteToPa (leafPte m pgtbl (pgRoundDown (u + j))) := by
    simp only [PGSIZE] at *; omega
  have hp := h.distinct (inPages_byte hi) (inPages_byte hj) hf
  have ho : (u + i) % PGSIZE = (u + j) % PGSIZE := by
    unfold userByte at heq; omega
  unfold pgRoundDown at hp
  simp only [PGSIZE] at *
  omega

theorem byte_buffer {i j : Nat} (hi : i < len) (hj : j < len) : userByte m pgtbl u i ≠ k + j := by
  have h1 := userByte_frame m pgtbl u i
  have h2 := h.buffer (inPages_byte hi)
  omega

theorem rest (hlen : len ≠ 0) (hn : PGSIZE - (u - pgRoundDown u) ≤ len) :
    UserRange m pgtbl (pgRoundDown u + PGSIZE) (k + (PGSIZE - (u - pgRoundDown u)))
      (len - (PGSIZE - (u - pgRoundDown u))) := by
  obtain ⟨h1, h2, -⟩ := pgRoundDown_le u
  have hin : ∀ {v}, inPages (pgRoundDown u + PGSIZE) (len - (PGSIZE - (u - pgRoundDown u))) v →
      inPages u len v := by
    intro v hv
    rw [inPages_cons hlen, Nat.min_eq_left hn]
    exact .inr hv
  refine ⟨by have := h.bound; omega, fun hv => h.valid (hin hv),
    fun hv hw => h.distinct (hin hv) (hin hw), fun hv => ?_⟩
  have := h.buffer (hin hv)
  omega

end UserRange

/-! ## The loop -/

/-- Where byte `i` of a copy comes from, and where it goes. -/
def copySrc (write : Bool) (m : Bytes) (pgtbl u k i : Nat) : Nat :=
  if write then k + i else userByte m pgtbl u i

def copyDst (write : Bool) (m : Bytes) (pgtbl u k i : Nat) : Nat :=
  if write then userByte m pgtbl u i else k + i

variable {L : Layout} {write : Bool} {msg : String}

theorem UserRange.dst_inj (h : UserRange m pgtbl u k len) {i j : Nat} (hi : i < len) (hj : j < len)
    (heq : copyDst write m pgtbl u k i = copyDst write m pgtbl u k j) : i = j := by
  cases write with
  | false => exact Nat.add_left_cancel heq
  | true => exact h.byte_inj hi hj heq

theorem UserRange.src_ne_dst (h : UserRange m pgtbl u k len) {i j : Nat} (hi : i < len)
    (hj : j < len) : copySrc write m pgtbl u k i ≠ copyDst write m pgtbl u k j := by
  cases write with
  | false => exact h.byte_buffer hi hj
  | true => exact (h.byte_buffer hj hi).symm

theorem copyDst_rest (i : Nat) : copyDst write m pgtbl u k (PGSIZE - (u - pgRoundDown u) + i) =
    copyDst write m pgtbl (pgRoundDown u + PGSIZE) (k + (PGSIZE - (u - pgRoundDown u))) i := by
  cases write <;> simp [copyDst, userByte_rest, Nat.add_assoc]

theorem copySrc_rest (i : Nat) : copySrc write m pgtbl u k (PGSIZE - (u - pgRoundDown u) + i) =
    copySrc write m pgtbl (pgRoundDown u + PGSIZE) (k + (PGSIZE - (u - pgRoundDown u))) i := by
  cases write <;> simp [copySrc, userByte_rest, Nat.add_assoc]

theorem movedMem_moves {s : Bytes} {n : Nat} (hn : n ≤ PGSIZE - (u - pgRoundDown u)) :
    s.Moves (copyDst write m pgtbl u k) (copySrc write m pgtbl u k) n
      (movedMem write s (pteToPa (leafPte m pgtbl (pgRoundDown u)) + (u - pgRoundDown u)) k n) := by
  have hfirst : ∀ i, i < n → userByte m pgtbl u i =
      pteToPa (leafPte m pgtbl (pgRoundDown u)) + (u - pgRoundDown u) + i :=
    fun i hi => userByte_first (by omega)
  cases write with
  | false => exact (Bytes.moves_write k n _).congr (fun _ _ => rfl) hfirst
  | true => exact (Bytes.moves_write _ n (k + ·)).congr hfirst fun _ _ => rfl

/-- The loop is one move. `m` is the memory that the table is read in; `s` may differ from it where
the walks do not look. -/
theorem copyLoop_moves :
    ∀ (fuel u k len : Nat) (s : Machine), len ≤ fuel → UserRange m pgtbl u k len →
      Reachable L write m pgtbl u k len →
      (∀ w, inPages u len w → ∀ a, onWalk m pgtbl w a → s.mem a = m a) →
      wp (copyLoop L write msg pgtbl fuel u k len)
        (fun _ t => s.mem.Moves (copyDst write m pgtbl u k) (copySrc write m pgtbl u k) len t.mem)
        (fun _ _ => False) s := by
  intro fuel
  induction fuel with
  | zero =>
    intro u k len s hle _ _ _
    have : len = 0 := by omega
    subst this
    simp [copyLoop, Bytes.Moves]
  | succ fuel ih =>
    intro u k len s hle hr hacc hag
    by_cases hlen : len = 0
    · subst hlen
      simp [copyLoop, Bytes.Moves]
    · obtain ⟨hle1, hlt1, -⟩ := pgRoundDown_le u
      have hfirst : inPages u len (pgRoundDown u) := (inPages_cons hlen _).mpr (.inl rfl)
      have hop : Opens L write m pgtbl (pgRoundDown u) :=
        ⟨inPages_lt hr.bound hfirst, hr.valid hfirst, hacc.access hfirst⟩
      simp only [copyLoop, if_neg hlen]
      refine wp_getpte_agree (hag _ hfirst) (fun _ _ => ?_) fun hno => (hno ⟨hop.1, hop.2.1⟩).elim
      simp only [wp_bind, wp_userMove, hop.2.2, if_true]
      by_cases hn : PGSIZE - (u - pgRoundDown u) ≤ len
      · rw [Nat.min_eq_left hn]
        have hin : ∀ w, inPages (pgRoundDown u + PGSIZE) (len - (PGSIZE - (u - pgRoundDown u))) w →
            inPages u len w := by
          intro w hw
          rw [inPages_cons hlen, Nat.min_eq_left hn]
          exact .inr hw
        have hrest : ∀ {a}, Stores L write m pgtbl (pgRoundDown u + PGSIZE)
            (k + (PGSIZE - (u - pgRoundDown u))) (len - (PGSIZE - (u - pgRoundDown u))) a →
            Stores L write m pgtbl u k len a := by
          intro a ha
          exact stores_rest hlen (by rwa [Nat.min_eq_left hn])
        have hacc' : Reachable L write m pgtbl (pgRoundDown u + PGSIZE)
            (k + (PGSIZE - (u - pgRoundDown u))) (len - (PGSIZE - (u - pgRoundDown u))) :=
          ⟨fun hv => hacc.access (hin _ hv), fun a ha w hw => hacc.apart a (hrest ha) w (hin w hw)⟩
        refine wp_conseq (ih _ _ _ _ (by omega) (hr.rest hlen hn) hacc' ?_) ?_
          (fun _ _ h => h)
        · -- what the pass stores to is not on the walks of the later pages
          intro w hw a ha
          simp only
          rw [movedMem_outside fun h => hacc.apart a (stores_first hlen hop ?_) w (hin w hw) ha]
          · exact hag w (hin w hw) a ha
          · rwa [Nat.min_eq_left hn]
        · intro _ t ht
          -- the rest of the loop goes on where the first page ends
          have hdst : ∀ i, copyDst write m pgtbl u k (PGSIZE - (u - pgRoundDown u) + i) = _ :=
            copyDst_rest
          have hsrc : ∀ i, copySrc write m pgtbl u k (PGSIZE - (u - pgRoundDown u) + i) = _ :=
            copySrc_rest
          have hrest := ht.congr (fun i _ => hdst i) fun i _ => hsrc i
          have hcat := (movedMem_moves (Nat.le_refl _)).append hrest
            (fun i j hi hj heq => ?_) fun i j hi hj => hr.src_ne_dst (by omega) (by omega)
          · rwa [Nat.add_sub_cancel' hn] at hcat
          · have := hr.dst_inj (by omega) (by omega) heq
            omega
      · rw [Nat.min_eq_right (by omega), Nat.sub_self]
        have hdone : ∀ f u' k' (t : Machine), copyLoop L write msg pgtbl f u' k' 0 t = .ok () t := by
          intro f u' k' t
          cases f <;> simp [copyLoop]
        exact wp_of_ok (hdone _ _ _ _) (movedMem_moves (by omega))

end Range

/-! ## Both copies -/

/-- `uvm_copyout(pgtbl, u, k, len)` moves the kernel's bytes to the user range. -/
def CopiesOut (L : Layout) (s : Machine) (pgtbl u k len : Nat) : Prop :=
  wp (uvmCopyout L pgtbl u k len)
    (fun _ t => s.mem.Moves (userByte s.mem pgtbl u) (k + ·) len t.mem) (fun _ _ => False) s

/-- `uvm_copyin(pgtbl, k, u, len)` moves the bytes of the user range to the kernel. -/
def CopiesIn (L : Layout) (s : Machine) (pgtbl u k len : Nat) : Prop :=
  wp (uvmCopyin L pgtbl k u len)
    (fun _ t => s.mem.Moves (k + ·) (userByte s.mem pgtbl u) len t.mem) (fun _ _ => False) s

/-- What `uvm_copyout` brought from `k`, `uvm_copyin` brings to `k'`. -/
def RoundTrip (L : Layout) (s : Machine) (pgtbl u k k' len : Nat) : Prop :=
  wp (do uvmCopyout L pgtbl u k len; uvmCopyin L pgtbl k' u len)
    (fun _ t => ∀ i, i < len → t.mem (k' + i) = s.mem (k + i)) (fun _ _ => False) s

section Exact

variable {L : Layout} {s : Machine} {pgtbl u k k' len : Nat}

theorem copiesOut (h : UserRange s.mem pgtbl u k len) (hr : Reachable L true s.mem pgtbl u k len) :
    CopiesOut L s pgtbl u k len :=
  copyLoop_moves len u k len s (Nat.le_refl _) h hr fun _ _ _ _ => rfl

theorem copiesIn (h : UserRange s.mem pgtbl u k len) (hr : Reachable L false s.mem pgtbl u k len) :
    CopiesIn L s pgtbl u k len :=
  copyLoop_moves len u k len s (Nat.le_refl _) h hr fun _ _ _ _ => rfl

theorem Moves.onWalk_same {t : Machine} (h : UserRange s.mem pgtbl u k len)
    (hr : Reachable L true s.mem pgtbl u k len)
    (ht : s.mem.Moves (userByte s.mem pgtbl u) (k + ·) len t.mem) :
    ∀ w, inPages u len w → ∀ a, onWalk s.mem pgtbl w a → t.mem a = s.mem a := by
  intro w hw a ha
  refine ht.2 a fun i hi heq => hr.apart a ?_ w hw ha
  have hp := inPages_byte (u := u) hi
  exact ⟨_, hp, ⟨inPages_lt h.bound hp, h.valid hp, hr.access hp⟩, by
    rw [heq]; exact userByte_frame s.mem pgtbl u i⟩

theorem roundTrip (h : UserRange s.mem pgtbl u k len) (h' : UserRange s.mem pgtbl u k' len)
    (hr : Reachable L true s.mem pgtbl u k len) (hr' : Reachable L false s.mem pgtbl u k' len) :
    RoundTrip L s pgtbl u k k' len := by
  unfold RoundTrip
  rw [wp_bind]
  refine wp_conseq (copiesOut h hr) (fun _ t ht => ?_) fun _ _ hf => hf
  -- the table still reads as in `s`, and the bytes of the range are the kernel's
  refine wp_conseq (copyLoop_moves len u k' len t (Nat.le_refl _) h' hr'
    (Moves.onWalk_same h hr ht)) (fun _ t' ht' i hi => ?_) fun _ _ hf => hf
  exact (ht'.1 i hi).trans (ht.1 i hi)

end Exact

/-- Both copies move exactly the bytes of the range, and the one undoes the other, for every range
that is mapped to frames of its own which the kernel can access and which, like the buffers, hold
none of the entries that the copies walk through. -/
theorem user_copies_exact (L : Layout) (s : Machine) (pgtbl u k len : Nat)
    (h : UserRange s.mem pgtbl u k len) :
    (Reachable L true s.mem pgtbl u k len → CopiesOut L s pgtbl u k len) ∧
    (Reachable L false s.mem pgtbl u k len → CopiesIn L s pgtbl u k len) ∧
    ∀ k', UserRange s.mem pgtbl u k' len → Reachable L true s.mem pgtbl u k len →
      Reachable L false s.mem pgtbl u k' len → RoundTrip L s pgtbl u k k' len :=
  ⟨copiesOut h, copiesIn h, fun _ h' hr hr' => roundTrip h h' hr hr'⟩

/-! ## One page, and two tables that are no such range -/

theorem onePage_range {k : Nat} (hk : k + 8 ≤ 0x80500000) :
    UserRange (onePageTable PGSIZE (PTE_R ||| PTE_W ||| PTE_U)) 0x80500000 PGSIZE k 8 := by
  refine ⟨by decide, fun hv => ?_, fun hv hw _ => ?_, fun hv => ?_⟩
  · rw [onePage_inPages hv, onePage_tables.2.2]
    decide +kernel
  · rw [onePage_inPages hv, onePage_inPages hw]
  · rw [onePage_inPages hv, onePage_tables.2.2, onePage_frame]
    omega

theorem onePage_reachable (write : Bool) {k : Nat} (hk : k + 8 ≤ 0x80500000) :
    Reachable smallLayout write (onePageTable PGSIZE (PTE_R ||| PTE_W ||| PTE_U)) 0x80500000 PGSIZE
      k 8 := by
  refine ⟨fun hv => ?_, ?_⟩
  · rw [onePage_inPages hv, onePage_tables.2.2, onePage_frame]
    cases write <;> decide +kernel
  · cases write with
    | true => exact onePage_apart_out k
    | false =>
      intro a ha w hw h
      have ha' : k ≤ a ∧ a < k + 8 := ha
      rw [onePage_inPages hw] at h
      have := onePage_onWalk h
      omega

/-- One page that the user can read and write. -/
def userPage : Machine := onePageMachine PGSIZE (PTE_R ||| PTE_W ||| PTE_U)

/-- Eight bytes from `0x80011000` to a user page and on to `0x80012000`. -/
theorem user_copies_exact_page :
    CopiesOut smallLayout userPage 0x80500000 PGSIZE 0x80011000 8 ∧
      CopiesIn smallLayout userPage 0x80500000 PGSIZE 0x80011000 8 ∧
      RoundTrip smallLayout userPage 0x80500000 PGSIZE 0x80011000 0x80012000 8 := by
  obtain ⟨hout, hin, hboth⟩ := user_copies_exact smallLayout userPage 0x80500000 PGSIZE 0x80011000 8
    (onePage_range (by decide))
  exact ⟨hout (onePage_reachable true (by decide)), hin (onePage_reachable false (by decide)),
    hboth 0x80012000 (onePage_range (by decide)) (onePage_reachable true (by decide))
      (onePage_reachable false (by decide))⟩

/-- A table at `0x80500000` with the two last pages below `VA_MAX`, in the frames `f` and `g`. -/
def topTable (f g : Nat) : Bytes :=
  let m := Bytes.store 8 (fun _ => 0) (0x80500000 + 8 * vaToVpn TRAPFRAME 2)
    (paToPte 0x80501000 ||| PTE_V)
  let m := Bytes.store 8 m (0x80501000 + 8 * vaToVpn TRAPFRAME 1) (paToPte 0x80502000 ||| PTE_V)
  let m := Bytes.store 8 m (0x80502000 + 8 * vaToVpn TRAPFRAME 0)
    (paToPte f ||| PTE_R ||| PTE_W ||| PTE_V)
  Bytes.store 8 m (0x80502000 + 8 * vaToVpn TRAMPOLINE 0) (paToPte g ||| PTE_R ||| PTE_X ||| PTE_V)

def topMachine (f g : Nat) : Machine := { onePageMachine 0 0 with mem := topTable f g }

/-- The trampoline page is mapped in every process, to kernel text that the kernel cannot write:
`uvm_copyout` to it faults. And a frame that is itself a table of the process lets the copy
overwrite the entry of the next page. -/
theorem copies_not_exact :
    (UserRange (topTable 0x80503000 0x8000f000) 0x80500000 TRAMPOLINE 0x80011000 1 ∧
      ¬ CopiesOut smallLayout (topMachine 0x80503000 0x8000f000) 0x80500000 TRAMPOLINE
        0x80011000 1) ∧
    UserRange (topTable 0x80502000 0x80503000) 0x80500000 (TRAMPOLINE - 8) 0x80011000 16 ∧
      ¬ CopiesOut smallLayout (topMachine 0x80502000 0x80503000) 0x80500000 (TRAMPOLINE - 8)
        0x80011000 16 := by
  have hstop : ∀ {x : MemM Unit} {Q : Unit → Machine → Prop} {s : Machine},
      (match x s with | .ok _ _ => true | .error _ _ => false) = false →
      ¬ wp x Q (fun _ _ => False) s := by
    intro x Q s h hwp
    obtain ⟨a, t, hx, -⟩ := wp_returns hwp fun _ _ hf => hf
    rw [hx] at h
    cases h
  refine ⟨⟨?_, hstop (by decide +kernel)⟩, ?_, hstop (by decide +kernel)⟩
  · have hp : ∀ {v}, inPages TRAMPOLINE 1 v → v = TRAMPOLINE := by
      intro v hv; obtain ⟨h1, h2⟩ := hv; simp only [TRAMPOLINE, VA_MAX, PGSIZE] at *; omega
    have hl : leafPte (topTable 0x80503000 0x8000f000) 0x80500000 TRAMPOLINE =
        paToPte 0x8000f000 ||| 11 := by decide +kernel
    have hpa : pteToPa (paToPte 0x8000f000 ||| 11) = 0x8000f000 := by decide +kernel
    refine ⟨by decide, fun hv => ?_, fun hv hw _ => ?_, fun hv => ?_⟩
    · rw [hp hv, hl]; decide +kernel
    · rw [hp hv, hp hw]
    · rw [hp hv, hl, hpa]; decide
  · have hp : ∀ {v}, inPages (TRAMPOLINE - 8) 16 v → v = TRAPFRAME ∨ v = TRAMPOLINE := by
      intro v hv; obtain ⟨h1, h2⟩ := hv
      simp only [TRAPFRAME, TRAMPOLINE, VA_MAX, PGSIZE] at *; omega
    have hf : leafPte (topTable 0x80502000 0x80503000) 0x80500000 TRAPFRAME =
        paToPte 0x80502000 ||| 7 := by decide +kernel
    have hg : leafPte (topTable 0x80502000 0x80503000) 0x80500000 TRAMPOLINE =
        paToPte 0x80503000 ||| 11 := by decide +kernel
    have hpf : pteToPa (paToPte 0x80502000 ||| 7) = 0x80502000 := by decide +kernel
    have hpg : pteToPa (paToPte 0x80503000 ||| 11) = 0x80503000 := by decide +kernel
    refine ⟨by decide, fun hv => ?_, fun hv hw heq => ?_, fun hv => ?_⟩
    · rcases hp hv with rfl | rfl
      · rw [hf]; decide +kernel
      · rw [hg]; decide +kernel
    · rcases hp hv with rfl | rfl <;> rcases hp hw with rfl | rfl
      · rfl
      · rw [hf, hg, hpf, hpg] at heq; omega
      · rw [hf, hg, hpf, hpg] at heq; omega
      · rfl
    · rcases hp hv with rfl | rfl
      · rw [hf, hpf]; decide
      · rw [hg, hpg]; decide

end Mem
end WhuOS
