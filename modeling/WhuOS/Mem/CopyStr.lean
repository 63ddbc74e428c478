import WhuOS.Mem.CopyExact

/-!
# WhuOS.Mem.CopyStr

String arguments: `arg_str` of `kernel/syscall/syscall.c` over `uvm_copyin_str`. The copy ends with
the first NUL or after `maxlen` bytes; in the second case nothing terminates the string in the
kernel's buffer (`argStr_terminates_iff`, `argStr_unterminated`).

* `StrStored` — what the two nested loops leave in memory, as one write.
* `Readable`  — every byte that is read is mapped, and not in the buffer.
-/

namespace WhuOS
namespace Mem

open Lib Kern

/-! ## The model -/

/-- `arg_raw(n)`: register `a0 + n` in the trapframe of the process. -/
def argRaw (p : Sched.Slot) (n : Int) : MemM Nat := do
  let proc ← getProc p
  if 0 ≤ n ∧ n ≤ 5 then load64 (proc.tf + 112 + 8 * n.toNat)
  else Kern.panic "arg_raw: illegal arg num"

def argUint64 (p : Sched.Slot) (n : Int) : MemM Nat := argRaw p n

/-- `arg_str(n, buf, maxlen)` in process `p`; `maxlen` becomes a `uint32`. -/
def argStr (L : Layout) (p : Sched.Slot) (n : Int) (buf : Nat) (maxlen : Int) : MemM Unit := do
  let proc ← getProc p
  let addr ← argUint64 p n
  uvmCopyinStr L proc.pgtbl buf addr (maxlen % 2 ^ 32).toNat

/-! ## The loops -/

/-- The string `f` stored at `k`: up to its first NUL, or `n` bytes of it. -/
def StrStored (f : Nat → UInt8) (k n : Nat) (m m' : Bytes) : Bool → Prop
  | true => ∃ j, j < n ∧ f j = 0 ∧ (∀ i, i < j → f i ≠ 0) ∧ m' = m.write k (j + 1) f
  | false => (∀ i, i < n → f i ≠ 0) ∧ m' = m.write k n f

theorem StrStored.append {f : Nat → UInt8} {k n r : Nat} {m m' : Bytes} {found : Bool}
    (hf : ∀ i, i < n → f i ≠ 0)
    (h : StrStored (fun i => f (n + i)) (k + n) r (m.write k n f) m' found) :
    StrStored f k (n + r) m m' found := by
  have hcat : ∀ l, (m.write k n f).write (k + n) l (fun i => f (n + i)) = m.write k (n + l) f := by
    intro l
    rw [Bytes.write_append]
    refine Bytes.write_congr fun i _ => ?_
    split
    · rfl
    · rw [Nat.add_sub_cancel' (by omega)]
  have hboth : ∀ {b}, (∀ i, i < b → f (n + i) ≠ 0) → ∀ i, i < n + b → f i ≠ 0 := by
    intro b hb i hi
    by_cases hin : i < n
    · exact hf i hin
    · have := hb (i - n) (by omega)
      rwa [Nat.add_sub_cancel' (by omega)] at this
  cases found with
  | false =>
    obtain ⟨h1, rfl⟩ := h
    exact ⟨hboth h1, hcat r⟩
  | true =>
    obtain ⟨j, hj, h0, h1, rfl⟩ := h
    exact ⟨n + j, by omega, h0, hboth h1, by rw [hcat, Nat.add_assoc]⟩

section Loops

variable {L : Layout} {m : Bytes} {pgtbl : Nat}

/-- The inner loop, over `n` bytes of one page: each byte that it gets to is `f`'s, and not in the
buffer. -/
theorem copyStrPage_stores {pte : Nat} (hacc : kernelReads L (pteToPa pte) = true) :
    ∀ (n p dst : Nat) (f : Nat → UInt8) (s : Machine),
      (∀ i, i < n → (∀ j, j < i → f j ≠ 0) →
        s.mem (p + i) = f i ∧ ¬ (dst ≤ p + i ∧ p + i < dst + n)) →
      wp (copyStrPage L pte n p dst)
        (fun r t => StrStored f dst n s.mem t.mem r) (fun _ _ => False) s := by
  intro n
  induction n with
  | zero =>
    intro p dst f s _
    exact ⟨fun i hi => (Nat.not_lt_zero i hi).elim, (Bytes.write_zero _ _).symm⟩
  | succ n ih =>
    intro p dst f s hs
    have hp : s.mem p = f 0 := (hs 0 (by omega) fun _ hj => (Nat.not_lt_zero _ hj).elim).1
    have hone : s.mem.write dst 1 (fun i => s.mem (p + i)) = s.mem.write dst 1 f :=
      Bytes.write_congr fun i hi => by rw [show i = 0 by omega]; exact hp
    simp only [copyStrPage, wp_bind, wp_touch, hacc, if_true, wp_modify, wp_get,
      wp_memmove, hone]
    by_cases hc : f 0 = 0
    · rw [hp, if_pos hc]
      exact ⟨0, by omega, hc, fun i hi => (Nat.not_lt_zero i hi).elim, rfl⟩
    · rw [hp, if_neg hc]
      refine wp_conseq (ih (p + 1) (dst + 1) (fun i => f (1 + i)) _ fun i hi hj => ?_)
        (fun r t ht => ?_) fun _ _ h => h
      · -- the bytes read so far are not NUL, so this one is read as well
        have hprev : ∀ j, j < i + 1 → f j ≠ 0 := by
          intro j hji
          cases j with
          | zero => exact hc
          | succ j => rw [Nat.add_comm]; exact hj j (by omega)
        obtain ⟨h1, h2⟩ := hs (i + 1) (by omega) hprev
        rw [show p + 1 + i = p + (i + 1) by omega, Nat.add_comm 1 i]
        simp only
        rw [Bytes.write_outside (by omega)]
        exact ⟨h1, by omega⟩
      · rw [Nat.add_comm n 1]
        exact StrStored.append (fun i hi => by rw [show i = 0 by omega]; exact hc) ht

/-- Byte `i` of the string at `u` can be read in `s`, through the table of `m`, and it is not in the
buffer `[k, k + len)`. -/
structure ReadableByte (L : Layout) (m : Bytes) (pgtbl u k len i : Nat) : Prop where
  opens : Opens L false m pgtbl (pgRoundDown (u + i))
  byte : ¬ (k ≤ userByte m pgtbl u i ∧ userByte m pgtbl u i < k + len)
  walk : ∀ a, onWalk m pgtbl (pgRoundDown (u + i)) a → ¬ (k ≤ a ∧ a < k + len)

theorem ReadableByte.rest {u k len i : Nat} (hn : PGSIZE - (u - pgRoundDown u) ≤ len)
    (h : ReadableByte L m pgtbl u k len (PGSIZE - (u - pgRoundDown u) + i)) :
    ReadableByte L m pgtbl (pgRoundDown u + PGSIZE) (k + (PGSIZE - (u - pgRoundDown u)))
      (len - (PGSIZE - (u - pgRoundDown u))) i := by
  obtain ⟨hle1, hlt1, -⟩ := pgRoundDown_le u
  obtain ⟨h1, h2, h3⟩ := h
  rw [show u + (PGSIZE - (u - pgRoundDown u) + i) = pgRoundDown u + PGSIZE + i by omega] at h1 h3
  rw [userByte_rest] at h2
  exact ⟨h1, by omega, fun a ha => by have := h3 a ha; omega⟩

theorem copyStrLoop_stores :
    ∀ (fuel u k len : Nat) (f : Nat → UInt8) (s : Machine), len ≤ fuel →
      (∀ i, i < len → (∀ j, j < i → f j ≠ 0) → ReadableByte L m pgtbl u k len i ∧
        s.mem (userByte m pgtbl u i) = f i ∧
        ∀ a, onWalk m pgtbl (pgRoundDown (u + i)) a → s.mem a = m a) →
      wp (copyStrLoop L pgtbl fuel u k len)
        (fun _ t => ∃ found, StrStored f k len s.mem t.mem found) (fun _ _ => False) s := by
  intro fuel
  induction fuel with
  | zero =>
    intro u k len f s hle _
    have : len = 0 := by omega
    subst this
    exact ⟨false, fun i hi => (Nat.not_lt_zero i hi).elim, (Bytes.write_zero _ _).symm⟩
  | succ fuel ih =>
    intro u k len f s hle hs
    by_cases hlen : len = 0
    · subst hlen
      exact ⟨false, fun i hi => (Nat.not_lt_zero i hi).elim, (Bytes.write_zero _ _).symm⟩
    · obtain ⟨hle1, hlt1, -⟩ := pgRoundDown_le u
      obtain ⟨⟨hop, -, -⟩, -, hag⟩ := hs 0 (by omega) fun _ hj => (Nat.not_lt_zero _ hj).elim
      rw [Nat.add_zero] at hop hag
      simp only [copyStrLoop, if_neg hlen]
      refine wp_getpte_agree hag (fun _ _ => ?_) fun hno => (hno ⟨hop.1, hop.2.1⟩).elim
      rw [wp_bind]
      have hacc : kernelReads L (pteToPa (leafPte m pgtbl (pgRoundDown u))) = true := hop.2.2
      refine wp_conseq (copyStrPage_stores hacc _ _ k f s fun i hi hj => ?_) (fun r t ht => ?_)
        fun _ _ h => h
      · obtain ⟨hb, hf, -⟩ := hs i (by omega) hj
        have hu : userByte m pgtbl u i = _ := userByte_first (by omega)
        rw [hu] at hf
        have hne := hb.byte
        rw [hu] at hne
        exact ⟨hf, by omega⟩
      · cases r with
        | true =>
          obtain ⟨j, hj, h0, hpre, hw⟩ := ht
          exact ⟨true, j, by omega, h0, hpre, hw⟩
        | false =>
          obtain ⟨hno, hw⟩ := ht
          simp only [Bool.false_eq_true, if_false]
          by_cases hn : PGSIZE - (u - pgRoundDown u) ≤ len
          · rw [Nat.min_eq_left hn] at hno hw ⊢
            refine wp_conseq (ih _ _ _ (fun i => f (PGSIZE - (u - pgRoundDown u) + i)) t
              (by omega) fun i hi hj => ?_) (fun _ t' ht' => ?_) fun _ _ h => h
            · -- the bytes of this page are not NUL, so the rest is read as before
              have hprev : ∀ j, j < PGSIZE - (u - pgRoundDown u) + i → f j ≠ 0 := by
                intro j hji
                by_cases hjn : j < PGSIZE - (u - pgRoundDown u)
                · exact hno j hjn
                · have := hj (j - (PGSIZE - (u - pgRoundDown u))) (by omega)
                  rwa [Nat.add_sub_cancel' (by omega)] at this
              obtain ⟨hb, hf, hag'⟩ := hs (PGSIZE - (u - pgRoundDown u) + i) (by omega) hprev
              refine ⟨hb.rest hn, ?_, fun a ha => ?_⟩
              · have := hb.byte
                rw [hw, ← userByte_rest, Bytes.write_outside (by omega)]
                exact hf
              · rw [show pgRoundDown u + PGSIZE + i = u + (PGSIZE - (u - pgRoundDown u) + i) by omega]
                  at ha
                have := hb.walk a ha
                rw [hw, Bytes.write_outside (by omega)]
                exact hag' a ha
            · obtain ⟨found, ht'⟩ := ht'
              rw [hw] at ht'
              have := StrStored.append hno ht'
              rw [Nat.add_sub_cancel' hn] at this
              exact ⟨found, this⟩
          · rw [Nat.min_eq_right (by omega), Nat.sub_self]
            rw [Nat.min_eq_right (by omega)] at hno hw
            have hdone : ∀ fl u' k' (t : Machine), copyStrLoop L pgtbl fl u' k' 0 t = .ok () t := by
              intro fl u' k' t
              cases fl <;> simp [copyStrLoop]
            exact wp_of_ok (hdone _ _ _ _) ⟨false, hno, hw⟩

end Loops

/-! ## String arguments -/

/-- The string at the user address `u`. -/
def userStr (m : Bytes) (pgtbl u i : Nat) : UInt8 := m (userByte m pgtbl u i)

/-- The user's memory is mapped as far as it is read, and the buffer is outside of it. -/
def Readable (L : Layout) (m : Bytes) (pgtbl u k len : Nat) : Prop :=
  ∀ i, i < len → (∀ j, j < i → userStr m pgtbl u j ≠ 0) → ReadableByte L m pgtbl u k len i

/-- The string has arrived in `[k, k + len)` with a terminator: the user's bytes up to the first
NUL, or `len - 1` of them. -/
def Arrived (m : Bytes) (pgtbl u k len : Nat) (m' : Bytes) : Prop :=
  (∃ e, e < len ∧ m' (k + e) = 0 ∧ (userStr m pgtbl u e = 0 ∨ e = len - 1) ∧
    ∀ i, i < e → userStr m pgtbl u i ≠ 0 ∧ m' (k + i) = userStr m pgtbl u i) ∧
  ∀ a, a < k ∨ k + len ≤ a → m' a = m a

section Arg

variable {L : Layout} {s : Machine} {p : Sched.Slot} {n : Int} {buf len : Nat}

theorem wp_argStr {maxlen : Int} {Q : Unit → Machine → Prop} {E : Stop → Machine → Prop}
    (hn : 0 ≤ n ∧ n ≤ 5) (h0 : 0 < maxlen) (h1 : maxlen < 2 ^ 31) :
    wp (argStr L p n buf maxlen) Q E s ↔
      wp (uvmCopyinStr L (s.procs p).pgtbl buf
        (Bytes.load 8 s.mem ((s.procs p).tf + 112 + 8 * n.toNat)) maxlen.toNat) Q E s := by
  have hm : maxlen % 2 ^ 32 = maxlen := by omega
  simp only [argStr, argUint64, argRaw, wp_bind, wp_getProc, if_pos hn, wp_load64, hm]

theorem uvmCopyinStr_stores {pgtbl u k : Nat} (hr : Readable L s.mem pgtbl u k len) :
    wp (uvmCopyinStr L pgtbl k u len)
      (fun _ t => ∃ found, StrStored (userStr s.mem pgtbl u) k len s.mem t.mem found)
      (fun _ _ => False) s :=
  copyStrLoop_stores len u k len _ s (Nat.le_refl _) fun i hi hj => ⟨hr i hi hj, rfl, fun _ _ => rfl⟩

theorem StrStored.arrived_iff {m m' : Bytes} {pgtbl u k : Nat} {found : Bool}
    (h : StrStored (userStr m pgtbl u) k len m m' found) :
    Arrived m pgtbl u k len m' ↔ ∃ e, e < len ∧ userStr m pgtbl u e = 0 := by
  cases found with
  | true =>
    obtain ⟨j, hj, hz, hpre, rfl⟩ := h
    refine iff_of_true ⟨⟨j, hj, ?_, .inl hz, fun i hi => ⟨hpre i hi, ?_⟩⟩, fun a ha => ?_⟩ ⟨j, hj, hz⟩
    · rw [Bytes.write_inside (by omega), hz]
    · rw [Bytes.write_inside (by omega)]
    · rw [Bytes.write_outside (by omega)]
  | false =>
    obtain ⟨hno, rfl⟩ := h
    refine iff_of_false ?_ fun ⟨e, he, hz⟩ => hno e he hz
    rintro ⟨⟨e, he, hz, -⟩, -⟩
    rw [Bytes.write_inside he] at hz
    exact hno e he hz

end Arg

/-- `arg_str` returns, and the string arrives terminated exactly when there is a NUL among the first
`maxlen` bytes of the user's string. -/
theorem argStr_terminates_iff (L : Layout) (s : Machine) (p : Sched.Slot) (n : Int) (buf : Nat)
    (maxlen : Int) (hn : 0 ≤ n ∧ n ≤ 5) (h0 : 0 < maxlen) (h1 : maxlen < 2 ^ 31)
    (hr : Readable L s.mem (s.procs p).pgtbl
      (Bytes.load 8 s.mem ((s.procs p).tf + 112 + 8 * n.toNat)) buf maxlen.toNat) :
    wp (argStr L p n buf maxlen) (fun _ t => Arrived s.mem (s.procs p).pgtbl
        (Bytes.load 8 s.mem ((s.procs p).tf + 112 + 8 * n.toNat)) buf maxlen.toNat t.mem)
        (fun _ _ => False) s ↔
      ∃ e, e < maxlen.toNat ∧ userStr s.mem (s.procs p).pgtbl
        (Bytes.load 8 s.mem ((s.procs p).tf + 112 + 8 * n.toNat)) e = 0 := by
  rw [wp_argStr hn h0 h1]
  generalize Bytes.load 8 s.mem ((s.procs p).tf + 112 + 8 * n.toNat) = u at hr ⊢
  obtain ⟨_, t, hrun, found, ht⟩ := wp_returns (uvmCopyinStr_stores hr) fun _ _ h => h
  rw [← ht.arrived_iff, wp, hrun]

/-- A process with the string `f` in its only page, and the address of it in `a0`. -/
def strMachine (f : Nat → UInt8) : Machine :=
  { userPage with
    mem := (Bytes.store 8 userPage.mem 0x80013070 PGSIZE).write 0x80503000 PGSIZE f
    procs := fun _ => ⟨1, .running, none, none, 0x80500000, 0, 1, none, 0x80013000⟩ }

section Sample

variable (f : Nat → UInt8)

theorem strMachine_walk {a : Nat} (h : 0x80500000 ≤ a ∧ a < 0x80503000) :
    (strMachine f).mem a = onePageTable PGSIZE (PTE_R ||| PTE_W ||| PTE_U) a := by
  have h1 : ((Bytes.store 8 userPage.mem 0x80013070 PGSIZE).write 0x80503000 PGSIZE f) a =
      Bytes.store 8 userPage.mem 0x80013070 PGSIZE a := Bytes.write_outside (by omega)
  exact h1.trans (Bytes.write_outside (by omega))

theorem strMachine_arg : Bytes.load 8 (strMachine f).mem (0x80013000 + 112 + 8 * (0 : Int).toNat) =
    PGSIZE := by
  have h1 : Bytes.load 8 ((Bytes.store 8 userPage.mem 0x80013070 PGSIZE).write 0x80503000 PGSIZE f)
      0x80013070 = Bytes.load 8 (Bytes.store 8 userPage.mem 0x80013070 PGSIZE) 0x80013070 :=
    Bytes.load_write_other (by omega)
  exact h1.trans (Bytes.load_store_same (by decide))

theorem strMachine_leaf : leafPte (strMachine f).mem 0x80500000 PGSIZE = paToPte 0x80503000 ||| 23 :=
  (leafPte_congr fun _ ha => strMachine_walk f (onePage_onWalk ha)).2.trans onePage_tables.2.2

theorem strMachine_byte {i : Nat} (hi : i < PGSIZE) :
    userByte (strMachine f).mem 0x80500000 PGSIZE i = 0x80503000 + i := by
  rw [userByte_first (by rw [show pgRoundDown PGSIZE = PGSIZE by decide]; omega),
    show pgRoundDown PGSIZE = PGSIZE by decide, strMachine_leaf, onePage_frame]
  omega

theorem strMachine_str {i : Nat} (hi : i < PGSIZE) :
    userStr (strMachine f).mem 0x80500000 PGSIZE i = f i := by
  rw [userStr, strMachine_byte f hi]
  exact Bytes.write_inside hi

theorem strMachine_onWalk {a : Nat} (h : onWalk (strMachine f).mem 0x80500000 PGSIZE a) :
    0x80500000 ≤ a ∧ a < 0x80503000 := by
  refine onePage_onWalk ((onWalk_congr ?_ a).mp h)
  exact fun a ha => strMachine_walk f (onePage_onWalk ha)

theorem strMachine_readable {len : Nat} (hlen : len ≤ PGSIZE) :
    Readable smallLayout (strMachine f).mem 0x80500000 PGSIZE 0x80011000 len := by
  intro i hi _
  have hp : pgRoundDown (PGSIZE + i) = PGSIZE := by
    unfold pgRoundDown; simp only [PGSIZE] at *; omega
  refine ⟨?_, ?_, ?_⟩
  · rw [hp, Opens, strMachine_leaf, onePage_frame]
    decide +kernel
  · rw [strMachine_byte f (by omega)]
    simp only [PGSIZE] at *
    omega
  · intro a ha
    rw [hp] at ha
    have := strMachine_onWalk f ha
    simp only [PGSIZE] at *
    omega

end Sample

/-- The string `abc`. -/
def abc (i : Nat) : UInt8 := if i < 3 then 97 + UInt8.ofNat i else 0

theorem argStr_terminates_iff_abc :
    wp (argStr smallLayout 0 0 0x80011000 128)
      (fun _ t => Arrived (strMachine abc).mem 0x80500000
        (Bytes.load 8 (strMachine abc).mem (0x80013000 + 112 + 8 * (0 : Int).toNat)) 0x80011000
        (128 : Int).toNat t.mem) (fun _ _ => False) (strMachine abc) := by
  refine (argStr_terminates_iff smallLayout (strMachine abc) 0 0 0x80011000 128 (by decide)
    (by decide) (by decide) ?_).mpr ⟨3, by decide, ?_⟩
  · show Readable _ _ 0x80500000 (Bytes.load 8 _ (0x80013000 + 112 + 8 * (0 : Int).toNat)) _ _
    rw [strMachine_arg]
    exact strMachine_readable _ (by decide)
  · show userStr _ 0x80500000 (Bytes.load 8 _ (0x80013000 + 112 + 8 * (0 : Int).toNat)) _ = 0
    rw [strMachine_arg, strMachine_str abc (by decide)]
    rfl

theorem strMachine_fills {f : Nat → UInt8} {maxlen : Int} (h0 : 0 < maxlen) (h1 : maxlen < 2 ^ 31)
    (hlen : maxlen.toNat ≤ PGSIZE) (hf : ∀ i, i < maxlen.toNat → f i ≠ 0) :
    ∃ t, argStr smallLayout 0 0 0x80011000 maxlen (strMachine f) = .ok () t ∧
      ∀ e, e < maxlen.toNat → t.mem (0x80011000 + e) ≠ 0 := by
  have hstores : wp (argStr smallLayout 0 0 0x80011000 maxlen) (fun _ t => ∃ found,
      StrStored (userStr (strMachine f).mem 0x80500000 PGSIZE) 0x80011000 maxlen.toNat
        (strMachine f).mem t.mem found) (fun _ _ => False) (strMachine f) := by
    rw [wp_argStr (by decide) h0 h1]
    show wp (uvmCopyinStr _ 0x80500000 _
      (Bytes.load 8 _ (0x80013000 + 112 + 8 * (0 : Int).toNat)) _) _ _ _
    rw [strMachine_arg]
    exact uvmCopyinStr_stores (strMachine_readable f hlen)
  obtain ⟨_, t, hrun, found, ht⟩ := wp_returns hstores fun _ _ h => h
  refine ⟨t, hrun, fun e he => ?_⟩
  have hno : ∀ i, i < maxlen.toNat → userStr (strMachine f).mem 0x80500000 PGSIZE i ≠ 0 := by
    intro i hi
    rw [strMachine_str f (by omega)]
    exact hf i hi
  cases found with
  | true =>
    obtain ⟨j, hj, hz, -⟩ := ht
    exact (hno j hj hz).elim
  | false =>
    rw [ht.2, Bytes.write_inside he]
    exact hno e he

/-- A string of 128 bytes and more, as an argument of `sys_print` or `sys_open`, fills the buffer
and leaves it without a terminator. -/
theorem argStr_unterminated :
    Readable smallLayout (strMachine fun _ => 97).mem 0x80500000 PGSIZE 0x80011000 128 ∧
    ∃ t, argStr smallLayout 0 0 0x80011000 128 (strMachine fun _ => 97) = .ok () t ∧
      ∀ e, e < 128 → t.mem (0x80011000 + e) ≠ 0 :=
  ⟨strMachine_readable _ (by decide), strMachine_fills (by decide) (by decide) (by decide) (by decide)⟩

end Mem
end WhuOS
