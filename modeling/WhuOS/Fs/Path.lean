import WhuOS.Fs.Format

/-!
# WhuOS.Fs.Path

What the elements of a path are, and that `skip_element` takes them off one by one.

* `components`               — the non-empty parts between the slashes, each cut to 30 bytes.
* `skipElement_some`, `skipElement_none` — the step of a walk along the path.
-/

namespace WhuOS
namespace Fs

/-- The name that an element of a path stands for, none for the empty one. -/
def elementName (w : List UInt8) : Option Name := Name.of fun i => w.getD i 0

/-- The names between the slashes of a string. -/
def namesOf (str : List UInt8) : List Name := (str.splitOn SLASH).filterMap elementName

/-- The elements of a path, which ends at its first zero byte. -/
def components (path : List UInt8) : List Name := namesOf (path.takeWhile (· != 0))

theorem elementName_nil : elementName [] = none := rfl

theorem elementName_eq {w : List UInt8} (h0 : 0 ∉ w) {n : Name} (hn : n.bytes = w.take DIR_NAME_LEN) :
    elementName w = some n := by
  rw [elementName, Name.of_eq_some, cstr, cstrFrom_getD h0, List.drop_zero, hn]

theorem namesOf_slash (l : List UInt8) : namesOf (SLASH :: l) = namesOf l := by
  have := List.splitOn_append_cons_self_of_not_mem (show SLASH ∉ [] by simp) l
  rw [List.nil_append] at this
  rw [namesOf, this, List.filterMap_cons_none elementName_nil, namesOf]

theorem namesOf_element {w l : List UInt8} {n : Name} (hw : SLASH ∉ w) (hn : elementName w = some n)
    (hl : l = [] ∨ ∃ l', l = SLASH :: l') : namesOf (w ++ l) = n :: namesOf l := by
  rcases hl with rfl | ⟨l', rfl⟩
  · rw [List.append_nil, namesOf, List.splitOn_eq_singleton hw, List.filterMap_cons_some hn]
    rfl
  · rw [namesOf_slash, namesOf, List.splitOn_append_cons_self_of_not_mem hw,
      List.filterMap_cons_some hn, namesOf]

theorem components_dropSlash (path : List UInt8) :
    components (path.dropWhile (· == SLASH)) = components path := by
  induction path with
  | nil => rfl
  | cons c path ih =>
    by_cases h : c = SLASH
    · subst h
      rw [List.dropWhile_cons_of_pos (by simp), ih]
      exact (namesOf_slash _).symm
    · rw [List.dropWhile_cons_of_neg (by simpa using h)]

theorem components_end {path : List UInt8} (h : path = [] ∨ ∃ r, path = 0 :: r) :
    components path = [] := by
  rcases h with rfl | ⟨r, rfl⟩ <;> rfl

theorem dropWhile_element (path : List UInt8) :
    path.dropWhile (fun c => c != SLASH && c != 0) = [] ∨
      ∃ c r, path.dropWhile (fun c => c != SLASH && c != 0) = c :: r ∧ (c = SLASH ∨ c = 0) := by
  cases h : path.dropWhile (fun c => c != SLASH && c != 0) with
  | nil => exact .inl rfl
  | cons c r =>
    have := List.head?_dropWhile_not (fun c => c != SLASH && c != 0) path
    rw [h, List.head?_cons] at this
    refine .inr ⟨c, r, rfl, ?_⟩
    by_cases hc : c = SLASH
    · exact .inl hc
    · exact .inr (by simpa [hc] using this)

theorem components_element {w r : List UInt8} {n : Name} (hw : ∀ c ∈ w, c ≠ SLASH ∧ c ≠ 0)
    (hn : elementName w = some n) (hr : r = [] ∨ ∃ c r', r = c :: r' ∧ (c = SLASH ∨ c = 0)) :
    components (w ++ r) = n :: components r := by
  have htake : (w ++ r).takeWhile (· != 0) = w ++ r.takeWhile (· != 0) :=
    List.takeWhile_append_of_pos fun c hc => by simpa using (hw c hc).2
  rw [components, htake]
  refine namesOf_element (fun h => (hw _ h).1 rfl) hn ?_
  rcases hr with rfl | ⟨c, r', rfl, rfl | rfl⟩
  · exact .inl rfl
  · exact .inr ⟨_, List.takeWhile_cons_of_pos (by decide)⟩
  · exact .inl (List.takeWhile_cons_of_neg (by decide))

section SkipElement

variable {path rest : List UInt8} {n : Name}

theorem skipElement_none (h : skipElement path = none) : components path = [] := by
  rw [← components_dropSlash]
  unfold skipElement at h
  simp only at h
  split at h
  · cases h
  · rename_i hs
    rw [not_not] at hs
    refine components_end ?_
    have hsplit := List.takeWhile_append_dropWhile
      (p := fun c => c != SLASH && c != 0) (l := path.dropWhile (· == SLASH))
    rw [hs, List.nil_append] at hsplit
    rcases dropWhile_element (path.dropWhile (· == SLASH)) with he | ⟨c, r, he, hc⟩
    · exact .inl (hsplit.symm.trans he)
    · rw [he] at hsplit
      have hhead := List.head?_dropWhile_not (· == SLASH) path
      rw [← hsplit, List.head?_cons] at hhead
      have hne : c ≠ SLASH := by simpa using hhead
      rcases hc with rfl | rfl
      · exact absurd rfl hne
      · exact .inr ⟨r, hsplit.symm⟩

theorem skipElement_some (h : skipElement path = some (n, rest)) :
    components path = n :: components rest ∧ rest.length < path.length ∧
      rest.head? ≠ some SLASH := by
  unfold skipElement at h
  simp only at h
  split at h
  · rename_i hs
    simp only [Option.some.injEq, Prod.mk.injEq] at h
    obtain ⟨hn, rfl⟩ := h
    have hbytes := congrArg Name.bytes hn
    simp only at hbytes
    clear hn
    generalize hp : path.dropWhile (· == SLASH) = p at hs hbytes ⊢
    have hsplit := List.takeWhile_append_dropWhile (p := fun c => c != SLASH && c != 0) (l := p)
    have hlast := dropWhile_element p
    have hall : ∀ c ∈ p.takeWhile (fun c => c != SLASH && c != 0), c ≠ SLASH ∧ c ≠ 0 :=
      fun c hc => by simpa using List.mem_takeWhile_imp hc
    generalize p.takeWhile (fun c => c != SLASH && c != 0) = w at hs hbytes hsplit hall ⊢
    generalize p.dropWhile (fun c => c != SLASH && c != 0) = r at hsplit hlast
    subst hsplit
    rw [List.drop_left]
    have hlen : (w ++ r).length ≤ path.length := by
      rw [← hp]; exact List.length_dropWhile_le _ _
    have hpos := List.length_pos_iff.mpr hs
    have hrest := List.length_dropWhile_le (· == SLASH) r
    refine ⟨?_, ?_, ?_⟩
    · rw [components_dropSlash, ← components_dropSlash path, hp]
      exact components_element hall (elementName_eq (fun h => (hall 0 h).2 rfl) hbytes.symm) hlast
    · rw [List.length_append] at hlen
      omega
    · have := List.head?_dropWhile_not (· == SLASH) r
      intro e
      rw [e] at this
      simp at this
  · cases h

theorem atEnd_iff (h : path.head? ≠ some SLASH) : atEnd path = true ↔ components path = [] := by
  cases path with
  | nil => exact ⟨fun _ => rfl, fun _ => rfl⟩
  | cons c path =>
    by_cases hc : c = 0
    · subst hc
      exact ⟨fun _ => components_end (.inr ⟨_, rfl⟩), fun _ => rfl⟩
    · refine ⟨fun e => absurd (by simpa [atEnd] using e) hc, fun e => ?_⟩
      have hne : c ≠ SLASH := fun e => h (by rw [e]; rfl)
      cases hs : skipElement (c :: path) with
      | none =>
        unfold skipElement at hs
        simp [hne, hc] at hs
      | some r =>
        rw [(skipElement_some hs).1] at e
        cases e

end SkipElement

end Fs
end WhuOS
