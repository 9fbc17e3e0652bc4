import Mathlib.Data.List.Nodup
import Mathlib.Logic.Relation
import TwoCnf.Formula.Basic
import TwoCnf.Proofs.Lookup

/-!
# Coherence — what every formula under collection keeps

A `Formula` stores its clauses several times over: as a list, as numbered literals and as rows of
successors. This module says how the three hang together, for every formula that insertions lead to.

* `Clause.Implies`, `Forces`, `Entails` — what clauses make true once a literal is, in one step and in any
  number of steps;
* `Formula.Built` — the formulas that signed insertions lead to;
* `Formula.Indexed` — there is a row for each numbered literal, no literal is numbered twice, and every
  number has a row, so the two links of a clause are really entered (`Formula.exists_insert_eq`). This
  holds however many literals there are;
* `Formula.Coherent` — numbers and literals are mutually inverse, and the rows hold the implications of
  the clauses and nothing else. This needs fewer literals than there are numbers.
-/

namespace TwoCnf

/-! ## Clauses read as implications -/

namespace Clause

/-- The variable is that of one of the literals. -/
def Mentions (c : Clause) (x : UInt32) : Prop :=
  x = c.left.var ∨ x = c.right.var

/-- The clause is `¬l ∨ m` or `m ∨ ¬l`. -/
def Implies (c : Clause) (l m : Lit) : Prop :=
  (l = c.left.neg ∧ m = c.right) ∨ (l = c.right.neg ∧ m = c.left)

theorem Implies.contrapositive {c : Clause} {l m : Lit} (h : c.Implies l m) :
    c.Implies m.neg l.neg := by
  rcases h with ⟨rfl, rfl⟩ | ⟨rfl, rfl⟩
  · exact Or.inr ⟨rfl, Lit.neg_neg _⟩
  · exact Or.inl ⟨rfl, Lit.neg_neg _⟩

theorem Implies.mentions {c : Clause} {l m : Lit} (h : c.Implies l m) :
    c.Mentions l.var ∧ c.Mentions m.var := by
  rcases h with ⟨rfl, rfl⟩ | ⟨rfl, rfl⟩
  · exact ⟨Or.inl rfl, Or.inr rfl⟩
  · exact ⟨Or.inr rfl, Or.inl rfl⟩

end Clause

/-- One of the clauses makes `m` true once `l` is. -/
def Forces (cs : List Clause) (l m : Lit) : Prop :=
  ∃ c ∈ cs, c.Implies l m

/-- The clauses make `m` true once `l` is, step by step. -/
def Entails (cs : List Clause) : Lit → Lit → Prop :=
  Relation.ReflTransGen (Forces cs)

theorem Forces.contrapositive {cs : List Clause} {l m : Lit} (h : Forces cs l m) :
    Forces cs m.neg l.neg := by
  rcases h with ⟨c, hc, himplies⟩
  exact ⟨c, hc, himplies.contrapositive⟩

theorem Lit.eq_or_eq_neg {l m : Lit} (h : l.var = m.var) : l = m ∨ l = m.neg := by
  cases l with
  | mk x s =>
      cases m with
      | mk y t =>
          have hxy : x = y := h
          subst hxy
          cases s <;> cases t <;> simp [Lit.neg]

theorem Row.nodup_ids_insert {row : Row} (h : row.ids.toList.Nodup) (id : UInt32) :
    (row.insert id).ids.toList.Nodup := by
  unfold Row.insert
  split
  · exact h
  · rename_i hnot
    have hmem : id ∉ row.ids := by simpa using hnot
    rw [Array.toList_push, List.nodup_append]
    refine ⟨h, by simp, ?_⟩
    intro x hx y hy hxy
    rw [List.mem_singleton] at hy
    subst hy
    subst hxy
    exact hmem (Array.mem_def.2 hx)

/-! ## Numberings -/

namespace Numbering

/-- Numbers and literals are mutually inverse. -/
def Faithful (n : Numbering) : Prop :=
  ∀ (l : Lit) (id : UInt32), n.id? l = some id ↔ n.lit? id = some l

theorem id?_push (n : Numbering) (l m : Lit) :
    (n.push l).id? m = if m = l then some (UInt32.ofNat n.size) else n.id? m := by
  unfold push id? size
  simp only [Std.TreeMap.get?_eq_getElem?]
  exact getElem?_insert_eq n.ids l m (UInt32.ofNat n.lits.size)

theorem lit?_push (n : Numbering) (l : Lit) (id : UInt32) :
    (n.push l).lit? id = if id.toNat = n.size then some l else n.lit? id := by
  unfold push lit? size
  exact Array.getElem?_push

theorem toNat_lt_of_lit? {n : Numbering} {id : UInt32} {l : Lit} (h : n.lit? id = some l) :
    id.toNat < n.size := by
  rcases Array.getElem?_eq_some_iff.1 h with ⟨hlt, _⟩
  exact hlt

theorem exists_lit? {n : Numbering} {id : UInt32} (h : id.toNat < n.size) :
    ∃ l, n.lit? id = some l :=
  ⟨_, Array.getElem?_eq_getElem h⟩

/-- A new literal gets the next number. The number is exact as long as there are numbers left. -/
theorem Faithful.push {n : Numbering} {l : Lit} (hn : n.Faithful) (hl : n.id? l = none)
    (hsize : n.size < UInt32.size) : (n.push l).Faithful := by
  -- this is where there has to be a number left: the next one must not wrap around
  have hexact : (UInt32.ofNat n.size).toNat = n.size := UInt32.toNat_ofNat_of_lt' hsize
  intro m id
  rw [id?_push, lit?_push]
  by_cases hm : m = l
  · subst hm
    rw [if_pos rfl]
    constructor
    · intro h
      rw [← Option.some.inj h, if_pos hexact]
    · intro h
      by_cases hid : id.toNat = n.size
      · rw [← hid, UInt32.ofNat_toNat]
      · rw [if_neg hid] at h
        have hsome := (hn m id).2 h
        rw [hl] at hsome
        cases hsome
  · rw [if_neg hm]
    by_cases hid : id.toNat = n.size
    · rw [if_pos hid]
      constructor
      · intro h
        have hlt := toNat_lt_of_lit? ((hn m id).1 h)
        omega
      · intro h
        exact absurd (Option.some.inj h).symm hm
    · rw [if_neg hid]
      exact hn m id

end Numbering

/-! ## Growing by vertices -/

namespace Formula

/-- The row of `u` lists `v`. -/
def Links (f : Formula) (u v : UInt32) : Prop :=
  ∃ row, f.rows[u.toNat]? = some row ∧ v ∈ row.ids

/-- One row per numbered literal, a row for every number, and no literal is numbered twice. -/
structure Indexed (f : Formula) : Prop where
  rows_size : f.rows.size = f.numbering.size
  has_row : ∀ l id, f.numbering.id? l = some id → id.toNat < f.rows.size
  nodup : f.numbering.lits.toList.Nodup
  mem_iff : ∀ l, l ∈ f.numbering.lits ↔ f.contains l = true

/-- `f'` is `f` with further vertices that nothing leads from or to. -/
structure Grows (f f' : Formula) : Prop where
  id? : ∀ m id, f.numbering.id? m = some id → f'.numbering.id? m = some id
  size_le : f.numbering.size ≤ f'.numbering.size
  links_iff : ∀ u v, f'.Links u v ↔ f.Links u v
  rows_nodup : (∀ row ∈ f.rows, row.ids.toList.Nodup) → ∀ row ∈ f'.rows, row.ids.toList.Nodup
  indexed : f.Indexed → f'.Indexed
  faithful : f.numbering.Faithful → f'.numbering.size < UInt32.size → f'.numbering.Faithful
  clauses : f'.clauses = f.clauses
  maxVar : f'.maxVar = f.maxVar

theorem Grows.refl (f : Formula) : f.Grows f where
  id? := fun _ _ h => h
  size_le := Nat.le_refl _
  links_iff := fun _ _ => Iff.rfl
  rows_nodup := fun h => h
  indexed := fun h => h
  faithful := fun h _ => h
  clauses := rfl
  maxVar := rfl

theorem Grows.trans {f f' f'' : Formula} (h₁ : f.Grows f') (h₂ : f'.Grows f'') : f.Grows f'' where
  id? := fun m id h => h₂.id? m id (h₁.id? m id h)
  size_le := Nat.le_trans h₁.size_le h₂.size_le
  links_iff := fun u v => (h₂.links_iff u v).trans (h₁.links_iff u v)
  rows_nodup := fun h => h₂.rows_nodup (h₁.rows_nodup h)
  indexed := fun h => h₂.indexed (h₁.indexed h)
  faithful := fun h hsize =>
    h₂.faithful (h₁.faithful h (Nat.lt_of_le_of_lt h₂.size_le hsize)) hsize
  clauses := h₂.clauses.trans h₁.clauses
  maxVar := h₂.maxVar.trans h₁.maxVar

theorem vertex_of_some {f : Formula} {l : Lit} {id : UInt32} (h : f.numbering.id? l = some id) :
    f.vertex l = (id, f) := by
  simp only [vertex, h]

theorem vertex_of_none {f : Formula} {l : Lit} (h : f.numbering.id? l = none) :
    f.vertex l = (UInt32.ofNat f.rows.size,
      { f with numbering := f.numbering.push l, rows := f.rows.push .empty }) := by
  simp only [vertex, h]

theorem links_push_empty (f : Formula) (n : Numbering) (u v : UInt32) :
    Links { f with numbering := n, rows := f.rows.push .empty } u v ↔ f.Links u v := by
  unfold Links
  simp only [Array.getElem?_push]
  constructor
  · rintro ⟨row, hrow, hv⟩
    split at hrow
    · have hempty : row = Row.empty := (Option.some.inj hrow).symm
      subst hempty
      simp [Row.empty] at hv
    · exact ⟨row, hrow, hv⟩
  · rintro ⟨row, hrow, hv⟩
    rcases Array.getElem?_eq_some_iff.1 hrow with ⟨hlt, _⟩
    refine ⟨row, ?_, hv⟩
    rw [if_neg (Nat.ne_of_lt hlt)]
    exact hrow

theorem Indexed.push {f : Formula} {l : Lit} (h : f.Indexed) (hl : f.numbering.id? l = none) :
    Indexed { f with numbering := f.numbering.push l, rows := f.rows.push .empty } where
  rows_size := by
    have hsize := h.rows_size
    simp only [Numbering.size] at hsize
    simp [Numbering.push, Numbering.size, hsize]
  has_row := by
    intro m id hid
    replace hid : (f.numbering.push l).id? m = some id := hid
    show id.toNat < (f.rows.push .empty).size
    rw [Array.size_push]
    rw [Numbering.id?_push] at hid
    by_cases heq : m = l
    · -- the new number leads to the new row, or to an earlier one where the numbers wrap around
      rw [if_pos heq] at hid
      rw [← Option.some.inj hid, UInt32.toNat_ofNat', h.rows_size]
      exact Nat.lt_succ_of_le (Nat.mod_le _ _)
    · rw [if_neg heq] at hid
      exact Nat.lt_succ_of_lt (h.has_row m id hid)
  nodup := by
    have hnot : l ∉ f.numbering.lits := by
      intro hmem
      have hc := (h.mem_iff l).1 hmem
      simp [contains, hl] at hc
    have happend : (f.numbering.push l).lits.toList = f.numbering.lits.toList ++ [l] := by
      simp [Numbering.push]
    show (f.numbering.push l).lits.toList.Nodup
    rw [happend, List.nodup_append]
    refine ⟨h.nodup, by simp, ?_⟩
    intro m hm m' hm' heq
    rw [List.mem_singleton] at hm'
    subst hm'
    subst heq
    exact hnot (Array.mem_def.2 hm)
  mem_iff := by
    intro m
    have hmem : m ∈ (f.numbering.push l).lits ↔ m ∈ f.numbering.lits ∨ m = l := by
      simp [Numbering.push]
    show m ∈ (f.numbering.push l).lits ↔ ((f.numbering.push l).id? m).isSome = true
    rw [hmem, Numbering.id?_push]
    by_cases heq : m = l
    · simp [heq]
    · rw [if_neg heq]
      have hold := h.mem_iff m
      unfold contains at hold
      simp [heq, hold]

theorem grows_vertex (f : Formula) (l : Lit) : f.Grows (f.vertex l).2 := by
  cases h : f.numbering.id? l with
  | some id =>
      rw [vertex_of_some h]
      exact Grows.refl f
  | none =>
      rw [vertex_of_none h]
      refine
        { id? := ?_
          size_le := ?_
          links_iff := links_push_empty f _
          rows_nodup := ?_
          indexed := fun hf => hf.push h
          faithful := ?_
          clauses := rfl
          maxVar := rfl }
      · intro m id hm
        -- a literal with a number is not the new one
        have hne : m ≠ l := by
          intro heq
          rw [heq, h] at hm
          cases hm
        show (f.numbering.push l).id? m = some id
        rw [Numbering.id?_push, if_neg hne]
        exact hm
      · simp [Numbering.size, Numbering.push]
      · intro hrows row hrow
        rcases Array.mem_push.1 hrow with hold | hnew
        · exact hrows row hold
        · subst hnew
          simp [Row.empty]
      · intro hf hsize
        refine hf.push h ?_
        have hpush : (f.numbering.push l).size = f.numbering.size + 1 := by
          simp [Numbering.size, Numbering.push]
        have hsize' : (f.numbering.push l).size < UInt32.size := hsize
        omega

theorem id?_vertex {f : Formula} (hf : f.Indexed) (l : Lit) :
    (f.vertex l).2.numbering.id? l = some (f.vertex l).1 := by
  cases h : f.numbering.id? l with
  | some id =>
      rw [vertex_of_some h]
      exact h
  | none =>
      rw [vertex_of_none h]
      show (f.numbering.push l).id? l = some (UInt32.ofNat f.rows.size)
      rw [Numbering.id?_push, if_pos rfl, hf.rows_size]

theorem contains_vertex (f : Formula) (l m : Lit) :
    (f.vertex l).2.contains m = true ↔ m = l ∨ f.contains m = true := by
  cases h : f.numbering.id? l with
  | some id =>
      rw [vertex_of_some h]
      constructor
      · exact Or.inr
      · rintro (rfl | hm)
        · simp [contains, h]
        · exact hm
  | none =>
      rw [vertex_of_none h]
      show ((f.numbering.push l).id? m).isSome = true ↔ _
      rw [Numbering.id?_push]
      by_cases heq : m = l
      · simp [heq]
      · simp [heq, contains]

/-! ## Inserting a clause -/

/-- The formula with the vertices of a clause, before its implications are entered. -/
def withVertices (f : Formula) (c : Clause) : Formula :=
  ((((f.vertex c.left).2.vertex c.left.neg).2.vertex c.right).2.vertex c.right.neg).2

theorem grows_withVertices (f : Formula) (c : Clause) : f.Grows (f.withVertices c) :=
  (((grows_vertex f _).trans (grows_vertex _ _)).trans (grows_vertex _ _)).trans (grows_vertex _ _)

theorem contains_withVertices (f : Formula) (c : Clause) (l : Lit) :
    (f.withVertices c).contains l = true ↔ c.Mentions l.var ∨ f.contains l = true := by
  unfold withVertices
  simp only [contains_vertex]
  constructor
  · rintro (rfl | rfl | rfl | rfl | h)
    · exact Or.inl (Or.inr rfl)
    · exact Or.inl (Or.inr rfl)
    · exact Or.inl (Or.inl rfl)
    · exact Or.inl (Or.inl rfl)
    · exact Or.inr h
  · rintro ((h | h) | h)
    · rcases Lit.eq_or_eq_neg h with rfl | rfl <;> simp
    · rcases Lit.eq_or_eq_neg h with rfl | rfl <;> simp
    · simp [h]

theorem insert_eq (f : Formula) (c : Clause) :
    ∃ a notA b notB : UInt32,
      f.insert c = (((f.withVertices c).link notA b).link notB a).record c :=
  ⟨_, _, _, _, rfl⟩

/-- Inserting a clause makes its vertices, enters its two implications between them, and records it. Both
sources have a row, so neither link is lost. -/
theorem exists_insert_eq {f : Formula} (hf : f.Indexed) (c : Clause) :
    ∃ a notA b notB : UInt32,
      notA.toNat < (f.withVertices c).rows.size ∧ notB.toNat < (f.withVertices c).rows.size ∧
      (f.withVertices c).numbering.id? c.left = some a ∧
      (f.withVertices c).numbering.id? c.left.neg = some notA ∧
      (f.withVertices c).numbering.id? c.right = some b ∧
      (f.withVertices c).numbering.id? c.right.neg = some notB ∧
      f.insert c = (((f.withVertices c).link notA b).link notB a).record c := by
  have g₁ := grows_vertex f c.left
  have g₂ := grows_vertex (f.vertex c.left).2 c.left.neg
  have g₃ := grows_vertex ((f.vertex c.left).2.vertex c.left.neg).2 c.right
  have g₄ := grows_vertex (((f.vertex c.left).2.vertex c.left.neg).2.vertex c.right).2 c.right.neg
  have h₁ := g₁.indexed hf
  have h₂ := g₂.indexed h₁
  have h₃ := g₃.indexed h₂
  have h₄ := g₄.indexed h₃
  -- a vertex once made keeps its number while the next ones are made
  have hnotA := g₄.id? _ _ (g₃.id? _ _ (id?_vertex h₁ c.left.neg))
  have hnotB := id?_vertex h₃ c.right.neg
  refine ⟨_, _, _, _, h₄.has_row _ _ hnotA, h₄.has_row _ _ hnotB, ?_, hnotA, ?_, hnotB, rfl⟩
  · exact g₄.id? _ _ (g₃.id? _ _ (g₂.id? _ _ (id?_vertex hf c.left)))
  · exact g₄.id? _ _ (id?_vertex h₂ c.right)

theorem links_link (f : Formula) (source target u v : UInt32) :
    (f.link source target).Links u v ↔
      f.Links u v ∨ (u = source ∧ v = target ∧ source.toNat < f.rows.size) := by
  unfold Links link
  simp only [Array.getElem?_modify]
  -- only the row of `source` changes
  by_cases hu : source.toNat = u.toNat
  · have heq : u = source := (UInt32.toNat_inj.1 hu).symm
    subst heq
    simp only [if_true, Option.map_eq_some_iff]
    constructor
    · rintro ⟨row, ⟨old, hold, rfl⟩, hv⟩
      rcases (Row.mem_ids_insert old target v).1 hv with rfl | hmem
      · exact Or.inr ⟨trivial, rfl, (Array.getElem?_eq_some_iff.1 hold).1⟩
      · exact Or.inl ⟨old, hold, hmem⟩
    · rintro (⟨old, hold, hv⟩ | ⟨_, rfl, hlt⟩)
      · exact ⟨_, ⟨old, hold, rfl⟩, (Row.mem_ids_insert old target v).2 (Or.inr hv)⟩
      · exact ⟨_, ⟨_, Array.getElem?_eq_getElem hlt, rfl⟩,
          (Row.mem_ids_insert _ v v).2 (Or.inl rfl)⟩
  · rw [if_neg hu]
    constructor
    · exact Or.inl
    · rintro (h | ⟨rfl, _⟩)
      · exact h
      · exact absurd rfl hu

theorem rows_nodup_link {f : Formula} (h : ∀ row ∈ f.rows, row.ids.toList.Nodup)
    (source target : UInt32) :
    ∀ row ∈ (f.link source target).rows, row.ids.toList.Nodup := by
  intro row hrow
  rcases Array.mem_iff_getElem?.1 hrow with ⟨i, hi⟩
  unfold link at hi
  simp only [Array.getElem?_modify] at hi
  split at hi
  · rcases Option.map_eq_some_iff.1 hi with ⟨old, hold, rfl⟩
    exact Row.nodup_ids_insert (h old (Array.mem_of_getElem? hold)) target
  · exact h row (Array.mem_of_getElem? hi)

@[simp] theorem numbering_link (f : Formula) (u v : UInt32) : (f.link u v).numbering = f.numbering :=
  rfl

@[simp] theorem clauses_link (f : Formula) (u v : UInt32) : (f.link u v).clauses = f.clauses :=
  rfl

@[simp] theorem maxVar_link (f : Formula) (u v : UInt32) : (f.link u v).maxVar = f.maxVar :=
  rfl

@[simp] theorem size_rows_link (f : Formula) (u v : UInt32) :
    (f.link u v).rows.size = f.rows.size := by
  simp [link]

@[simp] theorem numbering_record (f : Formula) (c : Clause) : (f.record c).numbering = f.numbering :=
  rfl

@[simp] theorem rows_record (f : Formula) (c : Clause) : (f.record c).rows = f.rows :=
  rfl

@[simp] theorem clauses_record (f : Formula) (c : Clause) :
    (f.record c).clauses = f.clauses.push c :=
  rfl

@[simp] theorem maxVar_record (f : Formula) (c : Clause) :
    (f.record c).maxVar = max (max f.maxVar c.left.var) c.right.var :=
  rfl

theorem links_record (f : Formula) (c : Clause) (u v : UInt32) :
    (f.record c).Links u v ↔ f.Links u v :=
  Iff.rfl

theorem numbering_insert (f : Formula) (c : Clause) :
    (f.insert c).numbering = (f.withVertices c).numbering := by
  rcases insert_eq f c with ⟨a, notA, b, notB, h⟩
  simp [h]

theorem clauses_insert (f : Formula) (c : Clause) :
    (f.insert c).clauses = f.clauses.push c := by
  rcases insert_eq f c with ⟨a, notA, b, notB, h⟩
  simp [h, (grows_withVertices f c).clauses]

theorem maxVar_insert (f : Formula) (c : Clause) :
    (f.insert c).maxVar = max (max f.maxVar c.left.var) c.right.var := by
  rcases insert_eq f c with ⟨a, notA, b, notB, h⟩
  simp [h, (grows_withVertices f c).maxVar]

theorem size_le_insert (f : Formula) (c : Clause) :
    f.numbering.size ≤ (f.insert c).numbering.size := by
  rw [numbering_insert]
  exact (grows_withVertices f c).size_le

theorem contains_insert (f : Formula) (c : Clause) (l : Lit) :
    (f.insert c).contains l = true ↔ c.Mentions l.var ∨ f.contains l = true := by
  have hv := contains_withVertices f c l
  unfold contains at hv ⊢
  rw [numbering_insert]
  exact hv

theorem Indexed.link {f : Formula} (h : f.Indexed) (source target : UInt32) :
    (f.link source target).Indexed where
  rows_size := (size_rows_link f source target).trans h.rows_size
  has_row := by
    intro l id hid
    rw [size_rows_link]
    exact h.has_row l id hid
  nodup := h.nodup
  mem_iff := h.mem_iff

theorem Indexed.record {f : Formula} (h : f.Indexed) (c : Clause) : (f.record c).Indexed :=
  ⟨h.rows_size, h.has_row, h.nodup, h.mem_iff⟩

theorem Indexed.insert {f : Formula} (hf : f.Indexed) (c : Clause) : (f.insert c).Indexed := by
  have hv := (grows_withVertices f c).indexed hf
  rcases insert_eq f c with ⟨a, notA, b, notB, h⟩
  rw [h]
  exact ((hv.link notA b).link notB a).record c

/-! ## Coherence -/

/-- Numbers and literals are mutually inverse, and the rows hold the implications of the clauses, each
once. -/
structure Coherent (f : Formula) : Prop where
  indexed : f.Indexed
  faithful : f.numbering.Faithful
  links_iff : ∀ u v, f.Links u v ↔
    ∃ c ∈ f.clauses, ∃ l m, c.Implies l m ∧
      f.numbering.id? l = some u ∧ f.numbering.id? m = some v
  rows_nodup : ∀ row ∈ f.rows, row.ids.toList.Nodup
  contains_iff : ∀ l, f.contains l = true ↔ ∃ c ∈ f.clauses, c.Mentions l.var

theorem coherent_empty : Formula.empty.Coherent where
  indexed := by
    refine ⟨rfl, ?_, by simp [empty, Numbering.empty], ?_⟩
    · intro l id hid
      simp [empty, Numbering.empty, Numbering.id?] at hid
    · intro l
      simp [empty, contains, Numbering.empty, Numbering.id?]
  faithful := by
    intro l id
    simp [empty, Numbering.empty, Numbering.id?, Numbering.lit?]
  links_iff := by
    intro u v
    simp [empty, Links]
  rows_nodup := by
    intro row hrow
    simp [empty] at hrow
  contains_iff := by
    intro l
    simp [empty, contains, Numbering.empty, Numbering.id?]

/-- The links after an insertion are the old ones and the two implications of the clause. -/
theorem links_insert {f : Formula} (hf : f.Indexed) (c : Clause) (u v : UInt32) :
    (f.insert c).Links u v ↔ f.Links u v ∨ ∃ l m, c.Implies l m ∧
      (f.insert c).numbering.id? l = some u ∧ (f.insert c).numbering.id? m = some v := by
  have hg := grows_withVertices f c
  rcases exists_insert_eq hf c with ⟨a, notA, b, notB, hrowA, hrowB, ha, hna, hb, hnb, heq⟩
  -- both sources have a row, so both links are really entered
  have hlinks : (f.insert c).Links u v ↔
      (f.Links u v ∨ (u = notA ∧ v = b)) ∨ (u = notB ∧ v = a) := by
    rw [heq, links_record, links_link, links_link, hg.links_iff, size_rows_link]
    simp [hrowA, hrowB]
  rw [hlinks, numbering_insert]
  constructor
  · rintro ((h | ⟨rfl, rfl⟩) | ⟨rfl, rfl⟩)
    · exact Or.inl h
    · exact Or.inr ⟨_, _, Or.inl ⟨rfl, rfl⟩, hna, hb⟩
    · exact Or.inr ⟨_, _, Or.inr ⟨rfl, rfl⟩, hnb, ha⟩
  · rintro (h | ⟨l, m, ⟨rfl, rfl⟩ | ⟨rfl, rfl⟩, hl, hm⟩)
    · exact Or.inl (Or.inl h)
    · rw [hna] at hl
      rw [hb] at hm
      exact Or.inl (Or.inr ⟨(Option.some.inj hl).symm, (Option.some.inj hm).symm⟩)
    · rw [hnb] at hl
      rw [ha] at hm
      exact Or.inr ⟨(Option.some.inj hl).symm, (Option.some.inj hm).symm⟩

theorem rows_nodup_insert {f : Formula} (h : ∀ row ∈ f.rows, row.ids.toList.Nodup) (c : Clause) :
    ∀ row ∈ (f.insert c).rows, row.ids.toList.Nodup := by
  rcases insert_eq f c with ⟨a, notA, b, notB, heq⟩
  rw [heq, rows_record]
  exact rows_nodup_link (rows_nodup_link ((grows_withVertices f c).rows_nodup h) notA b) notB a

theorem contains_iff_insert {f : Formula}
    (h : ∀ l, f.contains l = true ↔ ∃ c ∈ f.clauses, c.Mentions l.var) (c : Clause) :
    ∀ l, (f.insert c).contains l = true ↔ ∃ d ∈ (f.insert c).clauses, d.Mentions l.var := by
  intro l
  rw [contains_insert, h, clauses_insert]
  constructor
  · rintro (hc | ⟨d, hd, hm⟩)
    · exact ⟨c, Array.mem_push.2 (Or.inr rfl), hc⟩
    · exact ⟨d, Array.mem_push.2 (Or.inl hd), hm⟩
  · rintro ⟨d, hd, hm⟩
    rcases Array.mem_push.1 hd with hold | rfl
    · exact Or.inr ⟨d, hold, hm⟩
    · exact Or.inl hm

theorem Coherent.insert {f : Formula} (hf : f.Coherent) (c : Clause)
    (hsize : (f.insert c).numbering.size < UInt32.size) : (f.insert c).Coherent := by
  have hg := grows_withVertices f c
  have hfaithful : (f.withVertices c).numbering.Faithful := by
    refine hg.faithful hf.faithful ?_
    rwa [numbering_insert] at hsize
  -- a literal of an old clause keeps its number, so the old clauses speak of the same links
  have hkeep : ∀ {l : Lit} {id : UInt32}, f.contains l = true →
      (f.numbering.id? l = some id ↔ (f.insert c).numbering.id? l = some id) := by
    intro l id hl
    rcases Option.isSome_iff_exists.1 hl with ⟨id', hid'⟩
    have hnew := hg.id? l id' hid'
    rw [numbering_insert, hid', hnew]
  refine ⟨hf.indexed.insert c, ?_, ?_, rows_nodup_insert hf.rows_nodup c,
    contains_iff_insert hf.contains_iff c⟩
  · rw [numbering_insert]
    exact hfaithful
  · intro u v
    rw [links_insert hf.indexed c, hf.links_iff, clauses_insert]
    constructor
    · rintro (⟨d, hd, l, m, himp, hl, hm⟩ | ⟨l, m, himp, hl, hm⟩)
      · have hmentions := himp.mentions
        refine ⟨d, Array.mem_push.2 (Or.inl hd), l, m, himp, ?_, ?_⟩
        · exact (hkeep ((hf.contains_iff l).2 ⟨d, hd, hmentions.1⟩)).1 hl
        · exact (hkeep ((hf.contains_iff m).2 ⟨d, hd, hmentions.2⟩)).1 hm
      · exact ⟨c, Array.mem_push.2 (Or.inr rfl), l, m, himp, hl, hm⟩
    · rintro ⟨d, hd, l, m, himp, hl, hm⟩
      have hmentions := himp.mentions
      rcases Array.mem_push.1 hd with hold | rfl
      · refine Or.inl ⟨d, hold, l, m, himp, ?_, ?_⟩
        · exact (hkeep ((hf.contains_iff l).2 ⟨d, hold, hmentions.1⟩)).2 hl
        · exact (hkeep ((hf.contains_iff m).2 ⟨d, hold, hmentions.2⟩)).2 hm
      · exact Or.inr ⟨l, m, himp, hl, hm⟩

theorem Coherent.contains_neg {f : Formula} (hf : f.Coherent) (l : Lit) :
    f.contains l.neg = true ↔ f.contains l = true := by
  rw [hf.contains_iff, hf.contains_iff, Lit.neg_var]

/-! ## Formulas that insertions lead to -/

/-- The formulas that signed insertions lead to. A refused insertion leaves the formula as it was, so it
adds no case. -/
inductive Built : Formula → Prop where
  | empty : Built .empty
  | insert {f f' : Formula} {a b : Int32} {c : Clause} :
      Built f → f.insertSigned a b = (.ok c, f') → Built f'

theorem Built.indexed {f : Formula} (hf : f.Built) : f.Indexed := by
  induction hf with
  | empty =>
      exact coherent_empty.indexed
  | insert _ hins ih =>
      rcases insertSigned_eq_ok.1 hins with ⟨_, rfl⟩
      exact ih.insert _

/-- A formula with fewer literals than there are numbers is coherent. -/
theorem Built.coherent {f : Formula} (hf : f.Built) (hsize : f.numbering.size < UInt32.size) :
    f.Coherent := by
  induction hf with
  | empty =>
      exact coherent_empty
  | insert _ hins ih =>
      rcases insertSigned_eq_ok.1 hins with ⟨_, rfl⟩
      exact (ih (Nat.lt_of_le_of_lt (size_le_insert _ _) hsize)).insert _ hsize

end Formula
end TwoCnf
