import Mathlib.Algebra.BigOperators.Group.Finset.Piecewise
import Mathlib.Algebra.Order.BigOperators.Group.Finset

/-!
# WhuOS.Lib.Count

Sums and counts over a finite type when one summand changes, and counts that are kept in 32 bits.
-/

namespace WhuOS
namespace Lib

variable {α : Type} [Fintype α]

theorem sum_change [DecidableEq α] {f g : α → Nat} (a : α) (h : ∀ x, x ≠ a → g x = f x) :
    (∑ x, g x) + f a = (∑ x, f x) + g a := by
  have hrest : ∑ x ∈ Finset.univ.erase a, g x = ∑ x ∈ Finset.univ.erase a, f x :=
    Finset.sum_congr rfl fun x hx => h x (Finset.ne_of_mem_erase hx)
  rw [← Finset.add_sum_erase _ f (Finset.mem_univ a), ← Finset.add_sum_erase _ g (Finset.mem_univ a),
    hrest]
  omega

/-- How many values have the property. -/
def count (p : α → Prop) [DecidablePred p] : Nat := ∑ x, if p x then 1 else 0

variable {p q : α → Prop} [DecidablePred p] [DecidablePred q]

theorem count_congr (h : ∀ x, p x ↔ q x) : count p = count q :=
  Finset.sum_congr rfl fun x _ => by simp only [h x]

/-- The property changes at `a` only. -/
theorem count_change [DecidableEq α] (a : α) (h : ∀ x, x ≠ a → (q x ↔ p x)) :
    count q + (if p a then 1 else 0) = count p + if q a then 1 else 0 := by
  unfold count
  exact sum_change (f := fun x => if p x then 1 else 0) a fun x hx => by simp only [h x hx]

theorem count_pos {a : α} (h : p a) : 0 < count p := by
  have : (if p a then 1 else 0) ≤ count p :=
    Finset.single_le_sum (f := fun x => if p x then 1 else 0) (fun _ _ => Nat.zero_le _)
      (Finset.mem_univ a)
  rw [if_pos h] at this
  omega

theorem count_eq_zero (h : ∀ x, ¬ p x) : count p = 0 :=
  Finset.sum_eq_zero fun x _ => if_neg (h x)

theorem count_le_card (p : α → Prop) [DecidablePred p] : count p ≤ Fintype.card α := by
  calc count p ≤ ∑ _x : α, 1 := Finset.sum_le_sum fun x _ => by split <;> omega
    _ = Fintype.card α := by simp

/-! ## 32 bits -/

variable {r : UInt32}

theorem pos_iff_toNat : 0 < r ↔ 0 < r.toNat := UInt32.lt_iff_toNat_lt

theorem eq_zero_iff_toNat : r = 0 ↔ r.toNat = 0 := UInt32.toNat_inj.symm

theorem toNat_eq_iff {n : Nat} (h : n < 2 ^ 32) : r.toNat = n ↔ r = UInt32.ofNat n := by
  rw [← UInt32.toNat_inj, UInt32.toNat_ofNat_of_lt' h]

theorem ofNat_add_ite (n : Nat) (P : Prop) [Decidable P] :
    UInt32.ofNat (n + if P then 1 else 0) = UInt32.ofNat n + if P then 1 else 0 := by
  rw [UInt32.ofNat_add]
  split <;> rfl

theorem toNat_incr (h : r.toNat + 1 < 2 ^ 32) : (r + 1).toNat = r.toNat + 1 := by
  rw [UInt32.toNat_add, UInt32.toNat_one, Nat.mod_eq_of_lt h]

theorem toNat_decr (h : 0 < r) : (r - 1).toNat = r.toNat - 1 := by
  have hpos := pos_iff_toNat.mp h
  have hlt := r.toNat_lt
  rw [UInt32.toNat_sub, UInt32.toNat_one]
  omega

end Lib
end WhuOS
