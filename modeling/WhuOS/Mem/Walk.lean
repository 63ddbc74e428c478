import WhuOS.Mem.Vmem

/-!
# WhuOS.Mem.Walk

The walk of `vm_getpte` without allocation as a function of the memory: `walk` is the address of the
leaf entry and `leafPte` the entry itself, 0 where a table is missing. It reads at most three
words (`onWalk`), so a memory that agrees on them has the same entry (`leafPte_congr`).
-/

namespace WhuOS
namespace Mem

open Lib Kern

/-- The next table from entry `slot`. -/
def nextTable (m : Bytes) (slot : Nat) : Option Nat :=
  if pteHas (Bytes.load 8 m slot) PTE_V then some (pteToPa (Bytes.load 8 m slot)) else none

/-- The address of the leaf entry for `va`. -/
def walk (m : Bytes) (pgtbl va : Nat) : Option Nat :=
  match nextTable m (pgtbl + 8 * vaToVpn va 2) with
  | none => none
  | some t1 =>
    match nextTable m (t1 + 8 * vaToVpn va 1) with
    | none => none
    | some t0 => some (t0 + 8 * vaToVpn va 0)

/-- The leaf entry for `va`; 0 if a table is missing. -/
def leafPte (m : Bytes) (pgtbl va : Nat) : Nat :=
  match walk m pgtbl va with
  | none => 0
  | some a => Bytes.load 8 m a

/-- `a` is the address of a table of `pgtbl`, the root included. -/
def IsTable (m : Bytes) (pgtbl a : Nat) : Prop :=
  a = pgtbl ∨ ∃ i, i < 512 ∧ ∃ b, nextTable m (pgtbl + 8 * i) = some b ∧
    (a = b ∨ ∃ j, j < 512 ∧ nextTable m (b + 8 * j) = some a)

theorem pteHas_zero (mask : Nat) : pteHas 0 mask = false := by simp [pteHas]

theorem load64_run (a : Nat) (s : Machine) : load64 a s = .ok (Bytes.load 8 s.mem a) s := rfl

theorem store64_run (a v : Nat) (s : Machine) :
    store64 a v s = .ok () { s with mem := Bytes.store 8 s.mem a v } := rfl

theorem walkLevel_false (pgtbl va level : Nat) (s : Machine) :
    walkLevel pgtbl va level false s =
      .ok (nextTable s.mem (pgtbl + 8 * vaToVpn va level)) s := by
  simp only [walkLevel, nextTable, bind_of_ok (load64_run ..)]
  split <;> rfl

variable {pgtbl va a : Nat} {s : Machine} {E : Stop → Machine → Prop} {Q : Unit → Machine → Prop}
  {m m' : Bytes}

theorem vmGetpte_false (s : Machine) (hva : va < VA_MAX) :
    vmGetpte pgtbl va false s = .ok (walk s.mem pgtbl va) s := by
  simp only [vmGetpte, ge_iff_le, Nat.not_le.mpr hva, if_false, walk,
    bind_of_ok (walkLevel_false ..)]
  cases nextTable s.mem (pgtbl + 8 * vaToVpn va 2) with
  | none => rfl
  | some t1 =>
    simp only [bind_of_ok (walkLevel_false ..)]
    cases nextTable s.mem (t1 + 8 * vaToVpn va 1) <;> rfl

theorem vmGetpte_high (alloc : Bool) (s : Machine) (hva : VA_MAX ≤ va) :
    vmGetpte pgtbl va alloc s = .error (.panic "vm_getpte: virtual address too large") s := by
  simp only [vmGetpte, ge_iff_le, hva, if_true, bind_of_error (Kern.panic_run ..)]

theorem wp_vmGetpte_false {Q : Option Nat → Machine → Prop} :
    wp (vmGetpte pgtbl va false) Q E s ↔
      if va < VA_MAX then Q (walk s.mem pgtbl va) s
      else E (.panic "vm_getpte: virtual address too large") s := by
  unfold wp
  split
  · rename_i h
    by_cases hva : va < VA_MAX
    · rw [vmGetpte_false s hva] at h; cases h; simp [hva]
    · rw [vmGetpte_high false s (by omega)] at h; cases h
  · rename_i h
    by_cases hva : va < VA_MAX
    · rw [vmGetpte_false s hva] at h; cases h
    · rw [vmGetpte_high false s (by omega)] at h; cases h; simp [hva]

@[simp] theorem wp_load64 {Q : Nat → Machine → Prop} :
    wp (load64 a) Q E s ↔ Q (Bytes.load 8 s.mem a) s := Iff.rfl

@[simp] theorem wp_store64 {v : Nat} :
    wp (store64 a v) Q E s ↔ Q () { s with mem := Bytes.store 8 s.mem a v } := Iff.rfl

@[simp] theorem wp_memset {n : Nat} {c : UInt8} :
    wp (memset a c n) Q E s ↔ Q () { s with mem := s.mem.write a n (fun _ => c) } := Iff.rfl

@[simp] theorem wp_memmove {dst src n : Nat} :
    wp (memmove dst src n) Q E s ↔
      Q () { s with mem := s.mem.write dst n (fun i => s.mem (src + i)) } := Iff.rfl

@[simp] theorem wp_touch {ok : Nat → Bool} {page : Nat} :
    wp (touch ok page) Q E s ↔ if ok page then Q () s else E .fault s := by
  unfold touch; cases ok page <;> simp

@[simp] theorem wp_getProc {p : Sched.Slot} {Q : Proc → Machine → Prop} : wp (getProc p) Q E s ↔ Q
    (s.procs p) s := Iff.rfl

@[simp] theorem wp_setProc {p : Sched.Slot} {f : Proc → Proc} :
    wp (setProc p f) Q E s ↔
      Q () { s with procs := Function.update s.procs p (f (s.procs p)) } := Iff.rfl

/-- Byte `a` is in the word at `w`. -/
def inWord (w a : Nat) : Prop := w ≤ a ∧ a < w + 8

/-- Byte `a` is in one of the entries that the walk for `va` reads. -/
def onWalk (m : Bytes) (pgtbl va a : Nat) : Prop :=
  inWord (pgtbl + 8 * vaToVpn va 2) a ∨
  ∃ t1, nextTable m (pgtbl + 8 * vaToVpn va 2) = some t1 ∧
    (inWord (t1 + 8 * vaToVpn va 1) a ∨
      ∃ t0, nextTable m (t1 + 8 * vaToVpn va 1) = some t0 ∧ inWord (t0 + 8 * vaToVpn va 0) a)

theorem nextTable_congr {w : Nat} (h : ∀ a, inWord w a → m' a = m a) :
    nextTable m' w = nextTable m w := by
  have : Bytes.load 8 m' w = Bytes.load 8 m w :=
    Bytes.load_congr fun i hi => h _ ⟨by omega, by omega⟩
  simp [nextTable, this]

theorem leafPte_congr
    (h : ∀ a, onWalk m pgtbl va a → m' a = m a) :
    walk m' pgtbl va = walk m pgtbl va ∧ leafPte m' pgtbl va = leafPte m pgtbl va := by
  have h2 := nextTable_congr (w := pgtbl + 8 * vaToVpn va 2) (fun a ha => h a (.inl ha))
  cases e2 : nextTable m (pgtbl + 8 * vaToVpn va 2) with
  | none => simp [leafPte, walk, h2, e2]
  | some t1 =>
    have h1 := nextTable_congr (w := t1 + 8 * vaToVpn va 1)
      (fun a ha => h a (.inr ⟨t1, e2, .inl ha⟩))
    cases e1 : nextTable m (t1 + 8 * vaToVpn va 1) with
    | none => simp [leafPte, walk, h2, e2, h1, e1]
    | some t0 =>
      have h0 : Bytes.load 8 m' (t0 + 8 * vaToVpn va 0) = Bytes.load 8 m (t0 + 8 * vaToVpn va 0) :=
        Bytes.load_congr fun i hi =>
          h _ (.inr ⟨t1, e2, .inr ⟨t0, e1, ⟨by omega, by omega⟩⟩⟩)
      simp [leafPte, walk, h2, e2, h1, e1, h0]

theorem onWalk_congr
    (h : ∀ a, onWalk m pgtbl va a → m' a = m a) (a : Nat) :
    onWalk m' pgtbl va a ↔ onWalk m pgtbl va a := by
  have h2 := nextTable_congr (w := pgtbl + 8 * vaToVpn va 2) (fun a ha => h a (.inl ha))
  unfold onWalk
  rw [h2]
  refine or_congr Iff.rfl ⟨?_, ?_⟩
  · rintro ⟨t1, e2, hr⟩
    have h1 := nextTable_congr (w := t1 + 8 * vaToVpn va 1)
      (fun a ha => h a (.inr ⟨t1, e2, .inl ha⟩))
    exact ⟨t1, e2, by rwa [h1] at hr⟩
  · rintro ⟨t1, e2, hr⟩
    have h1 := nextTable_congr (w := t1 + 8 * vaToVpn va 1)
      (fun a ha => h a (.inr ⟨t1, e2, .inl ha⟩))
    exact ⟨t1, e2, by rwa [h1]⟩

end Mem
end WhuOS
