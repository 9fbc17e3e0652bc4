import Mathlib.Order.Interval.Finset.Nat
import TwoCnf.Proofs.Component.Course
import TwoCnf.Proofs.Formula.Bookkeeping

/-!
# Capacity — numbers of 32 bits are enough

Vertices, components and discovery indices are counted in 32 bits, and a signed half can name any of
`2147483648` variables, each with two literals. All of them together are as many as there are numbers, so
that their count wraps around; with one variable left out, there are numbers to spare.

* `Formula.Makes` — some calls make a vertex at some point;
* `Formula.Built.size_add_two_le` — one variable that does not occur leaves two numbers free;
* `Search.Unwrapped` — the counters of a search are exact, and no index is the one kept for unseen vertices;
* `counters_unwrapped` — so it is whenever a vertex is made, and throughout the search.
-/

namespace TwoCnf

/-! ## Making vertices -/

namespace Formula

/-- The formula with the vertices of some literals, found or made from left to right. -/
def withLits (f : Formula) (ls : List Lit) : Formula :=
  ls.foldl (fun f l => (f.vertex l).2) f

/-- Making its vertices is all that an insertion does to the numbering. -/
theorem numbering_insert_eq_withLits (f : Formula) (c : Clause) :
    (f.insert c).numbering = (f.withLits c.lits).numbering :=
  numbering_insert f c

theorem grows_withLits (f : Formula) (ls : List Lit) : f.Grows (f.withLits ls) := by
  induction ls generalizing f with
  | nil =>
      exact Grows.refl f
  | cons l ls ih =>
      exact (grows_vertex f l).trans (ih (f.vertex l).2)

/-- In the formula `f`, on the way through some calls, a vertex is made for the literal `l`: a clause has
been accepted, the literals in front of `l` have their vertices, and `l` has none. -/
def Makes (calls : List (Int32 × Int32)) (f : Formula) (l : Lit) : Prop :=
  ∃ before halves after c met rest, calls = before ++ halves :: after ∧
    Clause.ofSigned halves.1 halves.2 = .ok c ∧ c.lits = met ++ l :: rest ∧
    f = (collect before).withLits met ∧ f.numbering.id? l = none

theorem size_le_attempt (f : Formula) (halves : Int32 × Int32) :
    f.numbering.size ≤ (f.attempt halves).numbering.size := by
  by_cases hzero : halves.1 = 0 ∨ halves.2 = 0
  · rw [attempt_of_zero f hzero]
  · rw [(f.attempt_of_ne_zero (not_or.1 hzero)).2]
    exact size_le_insert f _

theorem size_collect_le (before after : List (Int32 × Int32)) :
    (collect before).numbering.size ≤ (collect (before ++ after)).numbering.size := by
  induction after using List.reverseRecOn with
  | nil =>
      rw [List.append_nil]
  | append_singleton after halves ih =>
      rw [← List.append_assoc, collect_snoc]
      exact Nat.le_trans ih (size_le_attempt _ halves)

namespace Makes

variable {calls : List (Int32 × Int32)} {f : Formula} {l : Lit}

theorem indexed (h : Makes calls f l) : f.Indexed := by
  rcases h with ⟨before, halves, after, c, met, rest, _, _, _, rfl, _⟩
  exact (grows_withLits _ met).indexed (built_collect before).1.indexed

/-- No formula on the way has more vertices than there are in the end. -/
theorem size_le (h : Makes calls f l) : f.numbering.size ≤ (collect calls).numbering.size := by
  rcases h with ⟨before, halves, after, c, met, rest, rfl, hc, hlits, rfl, _⟩
  rcases Clause.ofSigned_eq_ok.1 hc with ⟨hne, rfl⟩
  have hcall : (collect (before ++ [halves])).numbering =
      ((collect before).withLits (met ++ l :: rest)).numbering := by
    rw [collect_snoc, ((collect before).attempt_of_ne_zero hne).2, numbering_insert_eq_withLits,
      hlits]
  have hlater : (collect before).withLits (met ++ l :: rest) =
      ((collect before).withLits met).withLits (l :: rest) :=
    List.foldl_append
  calc
    ((collect before).withLits met).numbering.size
        ≤ (((collect before).withLits met).withLits (l :: rest)).numbering.size :=
          (grows_withLits _ _).size_le
    _ = (collect (before ++ [halves])).numbering.size := by rw [hcall, hlater]
    _ ≤ (collect (before ++ [halves] ++ after)).numbering.size := size_collect_le _ after
    _ = (collect (before ++ halves :: after)).numbering.size := by
          rw [List.append_assoc, List.singleton_append]

/-- The number of a new vertex is exact if there are numbers for all vertices. -/
theorem toNat_vertex (h : Makes calls f l) (hsize : (collect calls).numbering.size < UInt32.size) :
    (f.vertex l).1.toNat = f.rows.size := by
  have hnone : f.numbering.id? l = none := by
    rcases h with ⟨_, _, _, _, _, _, _, _, _, _, hnone⟩
    exact hnone
  rw [vertex_of_none hnone]
  apply UInt32.toNat_ofNat_of_lt'
  rw [h.indexed.rows_size]
  exact Nat.lt_of_le_of_lt h.size_le hsize

end Makes

/-! ## The number of vertices -/

namespace Built

variable {f : Formula}

/-- No signed half has a larger absolute value than `-2147483648`. -/
theorem var_le (hf : f.Built) : ∀ c ∈ f.clauses, ∀ x, c.Mentions x → x.toNat ≤ 2147483648 := by
  have hmagnitude : ∀ a : Int32, (magnitude a).toNat ≤ 2147483648 := by
    intro a
    have hlow : -2147483648 ≤ a.toInt := Int32.le_toInt a
    have hhigh : a.toInt < 2147483648 := Int32.toInt_lt a
    rw [toNat_magnitude]
    omega
  induction hf with
  | empty =>
      intro c hc
      simp [Formula.empty] at hc
  | insert _ hins ih =>
      rcases insertSigned_eq_ok.1 hins with ⟨hsigned, rfl⟩
      intro c hc x hx
      rw [clauses_insert] at hc
      rcases Array.mem_push.1 hc with hold | rfl
      · exact ih c hold x hx
      · rcases Clause.ofSigned_eq_ok.1 hsigned with ⟨_, rfl⟩
        rcases hx with rfl | rfl
        · exact hmagnitude _
        · exact hmagnitude _

/-- Literals come in pairs, so a variable that does not occur leaves two numbers free. -/
theorem size_add_two_le (hf : f.Built) {x : UInt32} (hpos : 0 < x) (hle : x ≤ 2147483648)
    (hfree : ∀ c ∈ f.clauses, ¬ c.Mentions x) : f.numbering.size + 2 ≤ UInt32.size := by
  have hx : x.toNat ∈ Finset.Icc 1 2147483648 :=
    Finset.mem_Icc.2 ⟨UInt32.lt_iff_toNat_lt.1 hpos, UInt32.le_iff_toNat_le.1 hle⟩
  have hcard : (f.clauses.toList.flatMap Clause.vars).toFinset.card ≤
      ((Finset.Icc 1 2147483648).erase x.toNat).card := by
    refine Finset.card_le_card_of_injOn UInt32.toNat ?_ ?_
    · intro y hy
      rcases (mem_varsOfClauses f y).1 hy with ⟨c, hc, hmentions⟩
      -- `y` is a variable, and it is not the one left out
      have hne : y.toNat ≠ x.toNat := by
        intro heq
        rw [UInt32.toNat_inj.1 heq] at hmentions
        exact hfree c hc hmentions
      have hzero : y.toNat ≠ 0 := by
        intro heq
        exact hf.ne_zero c hc y hmentions (UInt32.toNat_inj.1 heq)
      exact Finset.mem_erase.2 ⟨hne, Finset.mem_Icc.2 ⟨Nat.pos_of_ne_zero hzero,
        hf.var_le c hc y hmentions⟩⟩
    · intro y _ z _ heq
      exact UInt32.toNat_inj.1 heq
  rw [Finset.card_erase_of_mem hx, Nat.card_Icc] at hcard
  have hsize := hf.size_eq (mem_varsOfClauses f)
  have hnumbers : UInt32.size = 4294967296 := rfl
  omega

end Built
end Formula

/-! ## The counters of a search -/

namespace Search

/-- The number that stands for "no index" in a table of indices. -/
def noIndex : UInt32 :=
  4294967295

/-- The counters of a search are exact: the number that the next component gets, the number of the vertices
seen so far, and that number after one more discovery. Neither the next index nor that of a vertex on the
stack stands for none. -/
structure Unwrapped (g : Graph) (s : Search) : Prop where
  found : (UInt32.ofNat s.found.size).toNat = s.found.size
  seen : s.next.toNat + s.marks.count .unseen = g.numVertices
  next : (s.next + 1).toNat = s.next.toNat + 1
  fresh : s.next ≠ noIndex
  index : ∀ v index low, s.mark v = .ok (.active index low) → index ≠ noIndex

theorem ne_noIndex {i : UInt32} (h : i.toNat + 2 ≤ UInt32.size) : i ≠ noIndex := by
  intro heq
  rw [heq] at h
  exact absurd h (by decide)

/-- What counts vertices stays below their number, and there are two more numbers than that. -/
theorem Shape.unwrapped {g : Graph} {s : Search} (hs : s.Shape g)
    (hsize : g.numVertices + 2 ≤ UInt32.size) : s.Unwrapped g := by
  have hseen : s.next.toNat + s.marks.count .unseen = g.numVertices := by
    rw [← hs.size_eq]
    exact hs.count
  have hnext : s.next.toNat ≤ g.numVertices := by omega
  refine ⟨?_, hseen, ?_, ne_noIndex (by omega), ?_⟩
  · have hfound := hs.found_le
    exact UInt32.toNat_ofNat_of_lt' (by omega)
  · have hsucc : s.next.toNat + 1 < 2 ^ 32 := by
      have hnumbers : UInt32.size = 2 ^ 32 := rfl
      omega
    rw [UInt32.toNat_add]
    exact Nat.mod_eq_of_lt hsucc
  · intro v index low hmark
    have hlt : v.toNat < s.marks.size := (Array.getElem?_eq_some_iff.1 (entry_eq_ok.1 hmark)).1
    have hactive : s.markOf v = .active index low := Except.ok.inj ((mark_eq hlt).symm.trans hmark)
    have hindex := hs.index_lt v ((hs.mem_stack_iff v).2 ⟨index, low, hactive⟩)
    rw [Search.index, hactive] at hindex
    have hindex : index.toNat < s.next.toNat := hindex
    exact ne_noIndex (by omega)

end Search

/-- Nothing wraps around after calls that leave one of the `2147483648` variables out. Every vertex is made
with the number of vertices before it, the bound of the search is the number of vertices, the counters are
exact in every state of the search, and the search comes to its end. -/
theorem counters_unwrapped (calls : List (Int32 × Int32)) (x : UInt32) (hpos : 0 < x)
    (hle : x ≤ 2147483648) (hfree : ∀ c ∈ acceptedOf calls, ¬ c.Mentions x) :
    (∀ f l, Formula.Makes calls f l → (f.vertex l).1.toNat = f.rows.size) ∧
    (UInt32.ofNat (Formula.collect calls).graph.numVertices).toNat =
      (Formula.collect calls).graph.numVertices ∧
    (∀ later s, Search.Course (Formula.collect calls).graph later s →
      s.Unwrapped (Formula.collect calls).graph) ∧
    ∃ last, Search.Ends (Formula.collect calls).graph last ∧
      (Formula.collect calls).graph.partition = .ok last.found := by
  rcases Formula.built_collect calls with ⟨hbuilt, hclauses⟩
  have hroom : (Formula.collect calls).numbering.size + 2 ≤ UInt32.size := by
    refine hbuilt.size_add_two_le hpos hle ?_
    intro c hc
    rw [Array.mem_def, hclauses] at hc
    exact hfree c hc
  have hsize : (Formula.collect calls).numbering.size < UInt32.size := by omega
  have hg := (hbuilt.coherent hsize).wellFormed_graph hsize
  refine ⟨?_, UInt32.toNat_ofNat_of_lt' hsize, ?_, ?_⟩
  · intro f l hmakes
    exact hmakes.toNat_vertex hsize
  · intro later s hcourse
    exact (hcourse.invariant hg).shape.unwrapped hroom
  · rcases hg.exists_partition with ⟨p, hp, _⟩
    rcases Search.exists_ends hp with ⟨last, hlast, rfl⟩
    exact ⟨last, hlast, hp⟩

/-- The largest variable occurs, and `3` only in a refused call. -/
theorem counters_unwrapped_largest :
    (0 : UInt32) < 3 ∧ (3 : UInt32) ≤ 2147483648 ∧
    (∀ c ∈ acceptedOf [(1, -2), (0, 3), (-2147483648, 1)], ¬ c.Mentions 3) ∧
    ((Formula.collect [(1, -2), (0, 3)]).vertex ⟨2147483648, false⟩).1.toNat =
      (Formula.collect [(1, -2), (0, 3)]).rows.size ∧
    ∃ last, Search.Ends (Formula.collect [(1, -2), (0, 3), (-2147483648, 1)]).graph last ∧
      last.Unwrapped (Formula.collect [(1, -2), (0, 3), (-2147483648, 1)]).graph := by
  have hfree : ∀ c ∈ acceptedOf [(1, -2), (0, 3), (-2147483648, 1)], ¬ c.Mentions 3 := by
    have haccepted : acceptedOf [(1, -2), (0, 3), (-2147483648, 1)] =
        [⟨⟨1, true⟩, ⟨2, false⟩⟩, ⟨⟨2147483648, false⟩, ⟨1, true⟩⟩] := by
      decide +kernel
    rw [haccepted]
    simp [Clause.Mentions]
  -- the third call makes a vertex for its first literal
  have hmakes : Formula.Makes [(1, -2), (0, 3), (-2147483648, 1)]
      (Formula.collect [(1, -2), (0, 3)]) ⟨2147483648, false⟩ :=
    ⟨[(1, -2), (0, 3)], (-2147483648, 1), [], ⟨⟨2147483648, false⟩, ⟨1, true⟩⟩, [], _, rfl,
      by decide +kernel, rfl, rfl, by decide +kernel⟩
  rcases counters_unwrapped [(1, -2), (0, 3), (-2147483648, 1)] 3 (by decide) (by decide) hfree with
    ⟨hvertex, _, hcourse, last, hlast, _⟩
  exact ⟨by decide, by decide, hfree, hvertex _ _ hmakes, last, hlast, hcourse _ _ hlast.course⟩

end TwoCnf
