import Mathlib.Algebra.Ring.Nat

/-!
# WhuOS.Lib.Update

A function changed at one argument. Unlike `Function.update` the function is not dependent, so a
state built by many changes can be evaluated.
-/

namespace WhuOS
namespace Lib

variable {α β : Type} [DecidableEq α]

def upd (f : α → β) (a : α) (b : β) : α → β := fun x => if x = a then b else f x

@[simp] theorem upd_same (f : α → β) (a : α) (b : β) : upd f a b a = b := by simp [upd]

@[simp] theorem upd_of_ne {f : α → β} {a x : α} {b : β} (h : x ≠ a) : upd f a b x = f x := by
  simp [upd, h]

theorem upd_apply (f : α → β) (a : α) (b : β) (x : α) :
    upd f a b x = if x = a then b else f x := rfl

@[simp] theorem upd_upd (f : α → β) (a : α) (b c : β) : upd (upd f a b) a c = upd f a c := by
  funext x
  simp only [upd]
  split <;> rfl

@[simp] theorem upd_self (f : α → β) (a : α) : upd f a (f a) = f := by
  funext x
  simp only [upd]
  split
  · rename_i h; rw [h]
  · rfl

/-- A function of two arguments changed at one pair. -/
theorem upd_pair {γ : Type} [DecidableEq β] (f : α → β → γ) (a : α) (b : β) (c : γ) (x : α) (y : β) :
    upd f a (upd (f a) b c) x y = if x = a ∧ y = b then c else f x y := by
  by_cases hx : x = a
  · subst hx
    by_cases hy : y = b
    · simp [hy]
    · simp [hy]
  · simp [hx]

/-! The literal `0` is an index of the tables: 2 CPUs, 64 slots, 256 `mmap` nodes. -/

instance two_neZero : NeZero 2 := ⟨by decide⟩

instance slots_neZero : NeZero 64 := ⟨by decide⟩

instance nodes_neZero : NeZero 256 := ⟨by decide⟩

end Lib
end WhuOS
