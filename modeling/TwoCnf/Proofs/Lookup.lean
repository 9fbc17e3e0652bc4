import Std.Data.TreeMap
import TwoCnf.Fault

/-!
# Lookup — tables and computations that may fail

What is looked up in a table after an insertion, and what a computation over a list comes to when none
of its parts fails.
-/

namespace TwoCnf

theorem getElem?_insert_eq {α β : Type} [DecidableEq α] [Ord α] [Std.TransOrd α]
    [Std.LawfulEqOrd α] (t : Std.TreeMap α β) (k a : α) (v : β) :
    (t.insert k v)[a]? = if a = k then some v else t[a]? := by
  rw [Std.TreeMap.getElem?_insert]
  by_cases h : a = k
  · subst h
    simp
  · have hne : compare k a ≠ .eq := by
      intro hc
      exact h (Std.LawfulEqOrd.eq_of_compare hc).symm
    rw [if_neg hne, if_neg h]

theorem mapM_eq_ok_map {α β ε : Type} {xs : List α} {f : α → Except ε β} {h : α → β}
    (hall : ∀ x ∈ xs, f x = .ok (h x)) : xs.mapM f = .ok (xs.map h) := by
  induction xs with
  | nil =>
      rfl
  | cons x xs ih =>
      have hx : f x = .ok (h x) := hall x List.mem_cons_self
      have hxs : xs.mapM f = .ok (xs.map h) := by
        apply ih
        intro y hy
        exact hall y (List.mem_cons_of_mem x hy)
      rw [List.mapM_cons, hx, hxs]
      rfl

/-- A change of the results of the parts is the same change of the results of the whole. -/
theorem mapM_eq_ok_of_map {α β γ ε : Type} {f : α → Except ε β} {f' : α → Except ε γ} {h : β → γ}
    (hf : ∀ x y, f x = .ok y → f' x = .ok (h y)) {xs : List α} {ys : List β}
    (hys : xs.mapM f = .ok ys) : xs.mapM f' = .ok (ys.map h) := by
  induction xs generalizing ys with
  | nil =>
      cases hys
      rfl
  | cons x xs ih =>
      rw [List.mapM_cons] at hys ⊢
      rcases bind_eq_ok.1 hys with ⟨y, hy, hys⟩
      rcases bind_eq_ok.1 hys with ⟨rest, hrest, hys⟩
      cases hys
      exact bind_eq_ok.2 ⟨h y, hf x y hy, bind_eq_ok.2 ⟨rest.map h, ih hrest, rfl⟩⟩

/-- A fold does not fail if none of its parts does, and what each part carries from the elements before
it to itself holds of all elements in the end. -/
theorem exists_foldlM {α σ ε : Type} (P : List α → σ → Prop) {f : σ → α → Except ε σ}
    {xs : List α} {s : σ} (hstart : P [] s)
    (hstep : ∀ before x s, x ∈ xs → P before s → ∃ s', f s x = .ok s' ∧ P (before ++ [x]) s') :
    ∃ s', xs.foldlM f s = .ok s' ∧ P xs s' := by
  -- the induction is on the elements to come, for any that came before
  have hfold : ∀ (rest before : List α) (s : σ), (∀ x ∈ rest, x ∈ xs) → P before s →
      ∃ s', rest.foldlM f s = .ok s' ∧ P (before ++ rest) s' := by
    intro rest
    induction rest with
    | nil =>
        intro before s _ hs
        exact ⟨s, rfl, by simpa using hs⟩
    | cons x rest ih =>
        intro before s hmem hs
        rcases hstep before x s (hmem x List.mem_cons_self) hs with ⟨t, ht, hPt⟩
        have hrest : ∀ y ∈ rest, y ∈ xs := by
          intro y hy
          exact hmem y (List.mem_cons_of_mem x hy)
        rcases ih (before ++ [x]) t hrest hPt with ⟨s', hs', hPs'⟩
        refine ⟨s', ?_, by simpa using hPs'⟩
        rw [List.foldlM_cons, ht]
        exact hs'
  exact hfold xs [] s (fun _ hx => hx) hstart

/-- Two folds over the same elements stay related if each part keeps its states related, and one succeeds
if the other does. -/
theorem exists_foldlM_related {α σ τ ε : Type} {R : σ → τ → Prop} {f : σ → α → Except ε σ}
    {f' : τ → α → Except ε τ}
    (hstep : ∀ x s s' t, R s s' → f s x = .ok t → ∃ t', f' s' x = .ok t' ∧ R t t') {xs : List α}
    {s t : σ} {s' : τ} (hs : R s s') (h : xs.foldlM f s = .ok t) :
    ∃ t', xs.foldlM f' s' = .ok t' ∧ R t t' := by
  induction xs generalizing s s' with
  | nil =>
      cases h
      exact ⟨s', rfl, hs⟩
  | cons x xs ih =>
      rw [List.foldlM_cons] at h
      rcases bind_eq_ok.1 h with ⟨u, hu, hrest⟩
      rcases hstep x s s' u hs hu with ⟨u', hu', hR⟩
      rcases ih hR hrest with ⟨t', ht', hRt⟩
      exact ⟨t', by rw [List.foldlM_cons]; exact bind_eq_ok.2 ⟨u', hu', ht'⟩, hRt⟩

end TwoCnf
