import Mathlib.Data.List.Range
import WhuOS.Lib.Update

/-!
# WhuOS.Lib.SlotMap

A finite map kept in an array of `n` slots: a slot is empty or holds a key with its value.

* `lookup`                       — the value of a key, by the first slot that holds the key.
* `Distinct`                     — no key is in two slots.
* `lookup_put`, `lookup_clear`   — filling an empty slot and emptying one change one key.
-/

namespace WhuOS
namespace Lib
namespace SlotMap

variable {κ ν : Type}

/-- The contents of the slots. -/
abbrev Slots (κ ν : Type) := Nat → Option (κ × ν)

def Distinct (t : Slots κ ν) (n : Nat) : Prop :=
  ∀ i j k v w, i < n → j < n → t i = some (k, v) → t j = some (k, w) → i = j

variable {t : Slots κ ν} {n i : Nat} {k k' : κ} {v : ν}

/-- A filled slot leaves the other keys where they are. -/
theorem put_other (h0 : t i = none) (hk' : k' ≠ k) (j : Nat) (w : ν) :
    upd t i (some (k, v)) j = some (k', w) ↔ t j = some (k', w) := by
  by_cases hj : j = i
  · subst hj
    simp [h0, Ne.symm hk']
  · rw [upd_of_ne hj]

theorem clear_other (h0 : t i = some (k, v)) (hk' : k' ≠ k) (j : Nat) (w : ν) :
    upd t i none j = some (k', w) ↔ t j = some (k', w) := by
  by_cases hj : j = i
  · subst hj
    simp [h0, Ne.symm hk']
  · rw [upd_of_ne hj]

theorem Distinct.clear (hd : Distinct t n) : Distinct (upd t i none) n := by
  intro a b k' w w' ha hb ea eb
  by_cases hai : a = i
  · subst hai; rw [upd_same] at ea; cases ea
  · by_cases hbi : b = i
    · subst hbi; rw [upd_same] at eb; cases eb
    · rw [upd_of_ne hai] at ea
      rw [upd_of_ne hbi] at eb
      exact hd a b k' w w' ha hb ea eb

/-! ## Lookup -/

variable [DecidableEq κ]

/-- The first of the `n` slots that holds `k`. -/
def find (t : Slots κ ν) (n : Nat) (k : κ) : Option Nat :=
  (List.range n).find? fun i => (t i).map (·.1) == some k

def lookup (t : Slots κ ν) (n : Nat) (k : κ) : Option ν :=
  (find t n k).bind fun i => (t i).map (·.2)

theorem key_eq_some : ((t i).map (·.1) == some k) = true ↔ ∃ v, t i = some (k, v) := by
  cases t i with
  | none => simp
  | some e => obtain ⟨k', v⟩ := e; simp

theorem find_some (h : find t n k = some i) : i < n ∧ ∃ v, t i = some (k, v) := by
  obtain ⟨hk, hi, -⟩ := List.find?_range_eq_some.mp h
  exact ⟨List.mem_range.mp hi, key_eq_some.mp hk⟩

theorem find_none (h : find t n k = none) (hi : i < n) : t i ≠ some (k, v) := by
  intro e
  have hk : ((t i).map (·.1) == some k) = true := key_eq_some.mpr ⟨v, e⟩
  have := List.find?_eq_none.mp h i (List.mem_range.mpr hi)
  exact this hk

theorem lookup_eq_none : lookup t n k = none ↔ ∀ i v, i < n → t i ≠ some (k, v) := by
  unfold lookup
  constructor
  · intro h i v hi
    cases hf : find t n k with
    | none => exact find_none hf hi
    | some j =>
      obtain ⟨-, w, hw⟩ := find_some hf
      simp [hf, hw] at h
  · intro h
    cases hf : find t n k with
    | none => rfl
    | some j =>
      obtain ⟨hj, w, hw⟩ := find_some hf
      exact absurd hw (h j w hj)

theorem lookup_some (h : lookup t n k = some v) : ∃ i, i < n ∧ t i = some (k, v) := by
  unfold lookup at h
  cases hf : find t n k with
  | none => simp [hf] at h
  | some j =>
    obtain ⟨hj, w, hw⟩ := find_some hf
    simp only [hf, Option.bind_some, hw, Option.map_some, Option.some.injEq] at h
    exact ⟨j, hj, by rw [hw, h]⟩

/-- With distinct keys every slot is found. -/
theorem lookup_eq_some (hd : Distinct t n) :
    lookup t n k = some v ↔ ∃ i, i < n ∧ t i = some (k, v) := by
  constructor
  · exact lookup_some
  · rintro ⟨i, hi, e⟩
    cases h : lookup t n k with
    | none => exact absurd e (lookup_eq_none.mp h i v hi)
    | some w =>
      obtain ⟨j, hj, e'⟩ := lookup_some h
      have := hd i j k v w hi hj e e'
      subst this
      rw [e] at e'
      cases e'
      rfl

/-- What decides a key's value is which slots hold it. -/
theorem lookup_congr {t' : Slots κ ν} (hd' : Distinct t' n)
    (h : ∀ i v, i < n → (t' i = some (k, v) ↔ t i = some (k, v))) :
    lookup t' n k = lookup t n k := by
  cases hl : lookup t n k with
  | none =>
    exact lookup_eq_none.mpr fun i v hi e => lookup_eq_none.mp hl i v hi ((h i v hi).mp e)
  | some v =>
    obtain ⟨i, hi, e⟩ := lookup_some hl
    exact (lookup_eq_some hd').mpr ⟨i, hi, (h i v hi).mpr e⟩

/-! ## Changes -/

theorem Distinct.put (hd : Distinct t n) (hk : lookup t n k = none) :
    Distinct (upd t i (some (k, v))) n := by
  have hno := lookup_eq_none.mp hk
  intro a b k' w w' ha hb ea eb
  by_cases hai : a = i
  · by_cases hbi : b = i
    · rw [hai, hbi]
    · subst hai
      rw [upd_same] at ea
      rw [upd_of_ne hbi] at eb
      cases ea
      exact absurd eb (hno b w' hb)
  · rw [upd_of_ne hai] at ea
    by_cases hbi : b = i
    · subst hbi
      rw [upd_same] at eb
      cases eb
      exact absurd ea (hno a w ha)
    · rw [upd_of_ne hbi] at eb
      exact hd a b k' w w' ha hb ea eb

theorem lookup_put (hd : Distinct t n) (hi : i < n) (h0 : t i = none) (hk : lookup t n k = none) :
    lookup (upd t i (some (k, v))) n = upd (lookup t n) k (some v) := by
  funext k'
  have hd' : Distinct (upd t i (some (k, v))) n := hd.put hk
  by_cases e : k' = k
  · subst e
    rw [upd_same]
    exact (lookup_eq_some hd').mpr ⟨i, hi, upd_same _ _ _⟩
  · rw [upd_of_ne e]
    exact lookup_congr hd' fun j w _ => put_other h0 e j w

theorem lookup_clear (hd : Distinct t n) (hi : i < n) (h0 : t i = some (k, v)) :
    lookup (upd t i none) n = upd (lookup t n) k none := by
  funext k'
  by_cases e : k' = k
  · subst e
    rw [upd_same]
    refine lookup_eq_none.mpr fun j w hj h => ?_
    by_cases hji : j = i
    · subst hji; rw [upd_same] at h; cases h
    · rw [upd_of_ne hji] at h
      exact hji (hd j i k' w v hj hi h h0)
  · rw [upd_of_ne e]
    exact lookup_congr hd.clear fun j w _ => clear_other h0 e j w

end SlotMap
end Lib
end WhuOS
