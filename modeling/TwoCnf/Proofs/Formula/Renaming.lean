import TwoCnf.Implication.Graph
import TwoCnf.Proofs.Formula.Coverage

/-!
# Renaming — the same clauses under other names

A `Renaming` gives other names to variables and may exchange the polarities of some of them. Numbers are
given out in the order in which literals come up, whatever they are called, so a renamed formula has the
same numbers and the same rows.

* `Renaming` — an injective map of literals that commutes with negation; `Renaming.ofVars` renames
  variables and exchanges polarities;
* `Numbering.Renamed`, `Formula.Renamed`, `Graph.Renamed` — the same numbers for the renamed literals, and
  the same rows;
* `Formula.Renamed.insert` — inserting a clause and its renamed form keeps formulas renamed;
* `Formula.Renamed.graph` — the snapshots of such formulas are renamed as well.
-/

namespace TwoCnf

/-- Other names for the literals. Literals stay distinct, and negations stay negations. -/
structure Renaming where
  map : Lit → Lit
  injective : Function.Injective map
  map_neg : ∀ l, map l.neg = (map l).neg

namespace Renaming

/-- Renames variables by `σ` and exchanges the polarities of the `flipped` ones. -/
def ofVars (σ : UInt32 → UInt32) (hσ : Function.Injective σ) (flipped : UInt32 → Bool) : Renaming where
  map l := ⟨σ l.var, l.sign ^^ flipped l.var⟩
  injective := by
    rintro ⟨x, b⟩ ⟨y, c⟩ h
    simp only [Lit.mk.injEq] at h
    rcases h with ⟨hvar, hsign⟩
    cases hσ hvar
    simpa using hsign
  map_neg := by
    intro l
    simp [Lit.neg]

variable (r : Renaming)

/-- The variable that a variable is renamed to, in either polarity. -/
def var (x : UInt32) : UInt32 :=
  (r.map ⟨x, true⟩).var

theorem var_map (l : Lit) : (r.map l).var = r.var l.var := by
  have hvar : (⟨l.var, true⟩ : Lit).var = l.var := rfl
  rcases Lit.eq_or_eq_neg hvar with heq | heq
  · rw [var, heq]
  · rw [var, heq, r.map_neg, Lit.neg_var]

theorem map_inj {l m : Lit} : r.map l = r.map m ↔ l = m :=
  r.injective.eq_iff

end Renaming

variable {r : Renaming}

/-- A clause with both literals renamed. -/
def Clause.rename (r : Renaming) (c : Clause) : Clause :=
  ⟨r.map c.left, r.map c.right⟩

/-! ## Numbers -/

/-- The same numbers, for the renamed literals. -/
structure Numbering.Renamed (r : Renaming) (n n' : Numbering) : Prop where
  lits : n'.lits = n.lits.map r.map
  id? : ∀ l, n'.id? (r.map l) = n.id? l

namespace Numbering.Renamed

variable {n n' : Numbering}

theorem size (h : n.Renamed r n') : n'.size = n.size := by
  unfold Numbering.size
  rw [h.lits, Array.size_map]

theorem lit? (h : n.Renamed r n') (v : UInt32) : n'.lit? v = (n.lit? v).map r.map := by
  unfold Numbering.lit?
  rw [h.lits, Array.getElem?_map]

theorem push (h : n.Renamed r n') (l : Lit) : (n.push l).Renamed r (n'.push (r.map l)) where
  lits := by
    unfold Numbering.push
    rw [h.lits, Array.map_push]
  id? := by
    intro m
    rw [id?_push, id?_push, h.size, h.id?]
    simp only [r.map_inj]

end Numbering.Renamed

/-! ## Formulas -/

/-- The same numbers for the renamed literals, and the same rows. -/
structure Formula.Renamed (r : Renaming) (f f' : Formula) : Prop where
  numbering : f.numbering.Renamed r f'.numbering
  rows : f'.rows = f.rows

namespace Formula.Renamed

variable {f f' : Formula}

theorem empty (r : Renaming) : Formula.empty.Renamed r Formula.empty where
  numbering := ⟨Array.map_empty.symm, fun _ => rfl⟩
  rows := rfl

/-- A literal and its renamed form get the same vertex. -/
theorem vertex (h : f.Renamed r f') (l : Lit) :
    (f'.vertex (r.map l)).1 = (f.vertex l).1 ∧ (f.vertex l).2.Renamed r (f'.vertex (r.map l)).2 := by
  -- whether a literal has come up before does not depend on its name
  cases hid : f.numbering.id? l with
  | some id =>
      have hid' : f'.numbering.id? (r.map l) = some id := by
        rw [h.numbering.id?]
        exact hid
      rw [vertex_of_some hid, vertex_of_some hid']
      exact ⟨rfl, h⟩
  | none =>
      have hid' : f'.numbering.id? (r.map l) = none := by
        rw [h.numbering.id?]
        exact hid
      rw [vertex_of_none hid, vertex_of_none hid', h.rows]
      exact ⟨rfl, h.numbering.push l, rfl⟩

theorem link (h : f.Renamed r f') (source target : UInt32) :
    (f.link source target).Renamed r (f'.link source target) where
  numbering := h.numbering
  rows := by
    unfold Formula.link
    rw [h.rows]

theorem record (h : f.Renamed r f') (c c' : Clause) : (f.record c).Renamed r (f'.record c') :=
  ⟨h.numbering, h.rows⟩

/-- The vertices of the literals are the same one after the other, and so are the implications between
them. -/
theorem insert (h : f.Renamed r f') (c : Clause) :
    (f.insert c).Renamed r (f'.insert (c.rename r)) := by
  -- each vertex is found or made in what the one before it leaves
  have hleft := h.vertex c.left
  have hnotLeft := hleft.2.vertex c.left.neg
  rw [r.map_neg] at hnotLeft
  have hright := hnotLeft.2.vertex c.right
  have hnotRight := hright.2.vertex c.right.neg
  rw [r.map_neg] at hnotRight
  unfold Formula.insert Clause.rename
  simp only
  rw [hleft.1, hnotLeft.1, hright.1, hnotRight.1]
  exact ((hnotRight.2.link _ _).link _ _).record _ _

end Formula.Renamed

/-! ## Graphs -/

/-- The same vertices for the renamed literals, and the same rows in the same places. -/
structure Graph.Renamed (r : Renaming) (g g' : Graph) : Prop where
  numbering : g.numbering.Renamed r g'.numbering
  offsets : g'.offsets = g.offsets
  targets : g'.targets = g.targets

theorem Formula.Renamed.graph {f f' : Formula} (h : f.Renamed r f') : f.graph.Renamed r f'.graph := by
  unfold Formula.graph
  rw [h.rows]
  exact ⟨h.numbering, rfl, rfl⟩

namespace Graph.Renamed

variable {g g' : Graph}

theorem vertexOf? (h : g.Renamed r g') (l : Lit) : g'.vertexOf? (r.map l) = g.vertexOf? l :=
  h.numbering.id? l

theorem numVertices (h : g.Renamed r g') : g'.numVertices = g.numVertices :=
  h.numbering.size

theorem vertices (h : g.Renamed r g') : g'.vertices = g.vertices := by
  unfold Graph.vertices
  rw [h.numVertices]

theorem successorAt (h : g.Renamed r g') (v : UInt32) (place : Nat) :
    g'.successorAt v place = g.successorAt v place := by
  unfold Graph.successorAt Graph.span
  rw [h.offsets, h.targets]

theorem lit (h : g.Renamed r g') {v : UInt32} {l : Lit} (hl : g.lit v = .ok l) :
    g'.lit v = .ok (r.map l) := by
  unfold Graph.lit at hl ⊢
  rw [h.numbering.lit?]
  cases hlit : g.numbering.lit? v with
  | none =>
      rw [hlit] at hl
      cases hl
  | some m =>
      rw [hlit] at hl
      cases hl
      rfl

end Graph.Renamed
end TwoCnf
