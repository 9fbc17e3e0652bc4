import Mathlib.Data.List.Nodup
import TwoCnf.Component.Partition
import TwoCnf.Proofs.Lookup

/-!
# Partition — components and the numbers of their literals

A `Partition` keeps its components twice: as lists in closing order, and as a number per literal.

* `Partition.componentOf?_push` — what closing one more component does to the numbers;
* `Partition.Tidy` — the two agree, and no component is empty or lists a literal twice. So a number tells
  a component (`Partition.Tidy.mem_iff`), and no two components meet (`Partition.Tidy.meet_iff`);
* `Partition.Tidy.push` — closing a component of new literals keeps a partition tidy.
-/

namespace TwoCnf
namespace Partition

@[simp] theorem size_push (p : Partition) (lits : List Lit) : (p.push lits).size = p.size + 1 := by
  simp [push, size]

theorem components_push (p : Partition) (lits : List Lit) (i : Nat) :
    (p.push lits).components[i]? = if i = p.size then some lits else p.components[i]? :=
  Array.getElem?_push

theorem getElem?_foldl_insert (lits : List Lit) (byLit : Std.TreeMap Lit UInt32) (i : UInt32)
    (l : Lit) :
    (lits.foldl (fun byLit l => byLit.insert l i) byLit)[l]? =
      if l ∈ lits then some i else byLit[l]? := by
  induction lits generalizing byLit with
  | nil =>
      simp
  | cons m lits ih =>
      rw [List.foldl_cons, ih, getElem?_insert_eq]
      by_cases hl : l ∈ lits
      · simp [hl]
      · simp [hl]

/-- The literals of a new component get the next number, all others keep theirs. -/
theorem componentOf?_push (p : Partition) (lits : List Lit) (l : Lit) (hsize : p.size < UInt32.size) :
    (p.push lits).componentOf? l = if l ∈ lits then some p.size else p.componentOf? l := by
  have hexact : (UInt32.ofNat p.size).toNat = p.size := UInt32.toNat_ofNat_of_lt' hsize
  unfold componentOf?
  simp only [Std.TreeMap.get?_eq_getElem?]
  have hbyLit : (p.push lits).byLit[l]? =
      if l ∈ lits then some (UInt32.ofNat p.size) else p.byLit[l]? :=
    getElem?_foldl_insert lits p.byLit (UInt32.ofNat p.size) l
  rw [hbyLit]
  by_cases hl : l ∈ lits
  · rw [if_pos hl, if_pos hl, Option.map_some, hexact]
  · rw [if_neg hl, if_neg hl]

/-- The numbers agree with the components, and no component is empty or lists a literal twice. -/
structure Tidy (p : Partition) : Prop where
  componentOf?_iff : ∀ l i, p.componentOf? l = some i ↔
    ∃ lits, p.components[i]? = some lits ∧ l ∈ lits
  ne_nil : ∀ lits ∈ p.components, lits ≠ []
  nodup : ∀ lits ∈ p.components, lits.Nodup

@[simp] theorem componentOf?_empty (l : Lit) : Partition.empty.componentOf? l = none := by
  simp [empty, componentOf?]

theorem tidy_empty : Partition.empty.Tidy where
  componentOf?_iff := by
    intro l i
    rw [componentOf?_empty]
    simp [empty]
  ne_nil := by
    intro lits hlits
    simp [empty] at hlits
  nodup := by
    intro lits hlits
    simp [empty] at hlits

namespace Tidy

variable {p : Partition}

/-- The number of a literal is that of the component that lists it. -/
theorem componentOf?_eq_some (hp : p.Tidy) (l : Lit) (i : Nat) :
    p.componentOf? l = some i ↔ ∃ lits, p.component i = .ok lits ∧ l ∈ lits := by
  simp only [component, entry_eq_ok]
  exact hp.componentOf?_iff l i

theorem lt_size (hp : p.Tidy) {l : Lit} {i : Nat} (h : p.componentOf? l = some i) : i < p.size := by
  rcases (hp.componentOf?_iff l i).1 h with ⟨lits, hlits, _⟩
  exact (Array.getElem?_eq_some_iff.1 hlits).1

theorem mem_iff (hp : p.Tidy) {i : Nat} {lits : List Lit} (h : p.component i = .ok lits)
    (l : Lit) : l ∈ lits ↔ p.componentOf? l = some i := by
  rw [hp.componentOf?_eq_some, h]
  constructor
  · intro hl
    exact ⟨lits, rfl, hl⟩
  · rintro ⟨_, heq, hl⟩
    cases heq
    exact hl

theorem exists_mem (hp : p.Tidy) {i : Nat} (hi : i < p.size) :
    ∃ l, p.componentOf? l = some i := by
  have hlits : p.component i = .ok p.components[i] := entry_eq_ok.2 (Array.getElem?_eq_getElem hi)
  rcases List.exists_mem_of_ne_nil _ (hp.ne_nil _ (Array.getElem_mem hi)) with ⟨l, hl⟩
  exact ⟨l, (hp.mem_iff hlits l).1 hl⟩

/-- No two components meet, and each meets itself. -/
theorem meet_iff (hp : p.Tidy) {i j : Nat} {lits lits' : List Lit}
    (hlits : p.component i = .ok lits) (hlits' : p.component j = .ok lits') :
    (∃ l, l ∈ lits ∧ l ∈ lits') ↔ i = j := by
  constructor
  · rintro ⟨l, hl, hl'⟩
    rw [hp.mem_iff hlits] at hl
    rw [hp.mem_iff hlits', hl] at hl'
    exact Option.some.inj hl'
  · rintro rfl
    have hi : i < p.size := (Array.getElem?_eq_some_iff.1 (entry_eq_ok.1 hlits)).1
    rcases hp.exists_mem hi with ⟨l, hl⟩
    exact ⟨l, (hp.mem_iff hlits l).2 hl, (hp.mem_iff hlits' l).2 hl⟩

theorem push (hp : p.Tidy) {lits : List Lit} (hsize : p.size < UInt32.size) (hne : lits ≠ [])
    (hnodup : lits.Nodup) (hnew : ∀ l ∈ lits, p.componentOf? l = none) : (p.push lits).Tidy where
  componentOf?_iff := by
    intro l i
    rw [componentOf?_push p lits l hsize]
    simp only [components_push]
    by_cases hl : l ∈ lits
    · rw [if_pos hl]
      constructor
      · intro h
        have hi : i = p.size := (Option.some.inj h).symm
        exact ⟨lits, by rw [if_pos hi], hl⟩
      · rintro ⟨lits', hlits', hl'⟩
        by_cases hi : i = p.size
        · rw [hi]
        · -- an old component does not list a new literal
          rw [if_neg hi] at hlits'
          have hold := (hp.componentOf?_iff l i).2 ⟨lits', hlits', hl'⟩
          rw [hnew l hl] at hold
          cases hold
    · rw [if_neg hl]
      constructor
      · intro h
        have hlt := hp.lt_size h
        rcases (hp.componentOf?_iff l i).1 h with ⟨lits', hlits', hl'⟩
        exact ⟨lits', by rw [if_neg (Nat.ne_of_lt hlt)]; exact hlits', hl'⟩
      · rintro ⟨lits', hlits', hl'⟩
        by_cases hi : i = p.size
        · rw [if_pos hi] at hlits'
          exact absurd (Option.some.inj hlits' ▸ hl') hl
        · rw [if_neg hi] at hlits'
          exact (hp.componentOf?_iff l i).2 ⟨lits', hlits', hl'⟩
  ne_nil := by
    intro lits' hmem
    rcases Array.mem_push.1 hmem with hold | rfl
    · exact hp.ne_nil lits' hold
    · exact hne
  nodup := by
    intro lits' hmem
    rcases Array.mem_push.1 hmem with hold | rfl
    · exact hp.nodup lits' hold
    · exact hnodup

end Tidy
end Partition
end TwoCnf
