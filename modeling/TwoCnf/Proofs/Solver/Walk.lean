import TwoCnf.Proofs.Solver.Session

/-!
# Walk — one look at a component tells for all of it

The walk over the components looks at the first literal of each and then writes all of its literals or none.

* `Partition.writes` — all that the walk writes, in order (`Partition.foldl_assign_eq`);
* `Partition.Settles.all_or_none` — of a component that is reached, all variables have a value or none has;
* `Partition.nodup_writes` — so no variable is written twice;
* `Partition.Walked` — what the walk comes to, variable by variable;
* `model_by_order` — the model of any solver that has one comes of such a walk, and its values follow the
  order of the components.
-/

namespace TwoCnf
namespace Partition

/-! ## What is written -/

/-- Stores the value that makes a literal true. -/
def store (stored : Std.TreeMap UInt32 Bool) (l : Lit) : Std.TreeMap UInt32 Bool :=
  stored.insert l.var l.sign

/-- What a component writes: all of its literals, unless its first one has a value already. -/
def written (stored : Std.TreeMap UInt32 Bool) : List Lit → List Lit
  | [] => []
  | first :: rest => if stored.contains first.var then [] else first :: rest

/-- What a walk over components writes, in order. -/
def writes (stored : Std.TreeMap UInt32 Bool) : List (List Lit) → List Lit
  | [] => []
  | lits :: later => written stored lits ++ writes (assign stored lits) later

theorem assign_eq (stored : Std.TreeMap UInt32 Bool) (lits : List Lit) :
    assign stored lits = (written stored lits).foldl store stored := by
  cases lits with
  | nil =>
      rfl
  | cons first rest =>
      simp only [assign, written]
      split
      · rfl
      · rfl

/-- The walk stores what it writes and nothing else. -/
theorem foldl_assign_eq (stored : Std.TreeMap UInt32 Bool) (components : List (List Lit)) :
    components.foldl assign stored = (writes stored components).foldl store stored := by
  induction components generalizing stored with
  | nil =>
      rfl
  | cons lits later ih =>
      rw [List.foldl_cons, ih, writes, List.foldl_append, ← assign_eq]

theorem writes_snoc (stored : Std.TreeMap UInt32 Bool) (components : List (List Lit))
    (lits : List Lit) : writes stored (components ++ [lits]) =
      writes stored components ++ written (components.foldl assign stored) lits := by
  induction components generalizing stored with
  | nil =>
      simp [writes]
  | cons first later ih =>
      rw [List.cons_append, writes, writes, ih, List.foldl_cons, List.append_assoc]

/-! ## All of a component or nothing -/

variable {p : Partition} {f : Formula} {k : Nat} {stored : Std.TreeMap UInt32 Bool} {lits : List Lit}

theorem Settles.contains_iff (h : p.Settles k stored) {l : Lit} {i j : Nat}
    (hi : p.componentOf? l = some i) (hj : p.componentOf? l.neg = some j) :
    stored.contains l.var = true ↔ i < k ∧ i < j ∨ j < k ∧ j < i := by
  rw [contains_iff_of_var, h l, h l.neg, Lit.neg_neg, hi, hj]
  simp

/-- When a component is reached, its negations are one component as well. If that one came first, it has
written all the variables, and otherwise none of them has been written. -/
theorem Settles.all_or_none (h : p.Settles k stored) (hp : p.Represents f) (hf : f.Coherent)
    (hlits : p.components[k]? = some lits) :
    (∀ l ∈ lits, stored.contains l.var = true) ∨ ∀ l ∈ lits, stored.contains l.var = false := by
  have hnumber : ∀ l ∈ lits, p.componentOf? l = some k := by
    intro l hl
    exact (hp.tidy.componentOf?_iff l k).2 ⟨lits, hlits, hl⟩
  cases lits with
  | nil =>
      exact Or.inl fun l hl => absurd hl List.not_mem_nil
  | cons first rest =>
      have hfirst := hnumber first List.mem_cons_self
      rcases hp.exists_neg hf hfirst with ⟨j, hj⟩
      have hcontains : ∀ l ∈ first :: rest, stored.contains l.var = true ↔ j < k := by
        intro l hl
        have hneg : p.componentOf? l.neg = some j :=
          (hp.neg_eq l first k (hnumber l hl) hfirst).trans hj
        rw [h.contains_iff (hnumber l hl) hneg]
        simp
      by_cases hjk : j < k
      · exact Or.inl fun l hl => (hcontains l hl).2 hjk
      · exact Or.inr fun l hl => Bool.eq_false_iff.2 fun hc => hjk ((hcontains l hl).1 hc)

/-- A component does not write a variable twice, since it has no literal together with its negation. -/
theorem Tidy.nodup_vars (hp : p.Tidy) (hfree : p.Free) (hlits : p.components[k]? = some lits) :
    (lits.map Lit.var).Nodup := by
  refine (hp.nodup lits (Array.mem_of_getElem? hlits)).map_on ?_
  intro l hl m hm hvar
  rcases Lit.eq_or_eq_neg hvar with rfl | rfl
  · rfl
  · have hnumber := (hp.componentOf?_iff m k).2 ⟨lits, hlits, hm⟩
    exact absurd ((hp.componentOf?_iff m.neg k).2 ⟨lits, hlits, hl⟩) (hfree m k hnumber)

/-- One component: what it writes has not been written before. -/
theorem Settles.nodup_step (h : p.Settles k stored) (hp : p.Represents f) (hf : f.Coherent)
    (hfree : p.Free) (hlits : p.components[k]? = some lits) {log : List Lit}
    (hlog : (log.map Lit.var).Nodup) (hstored : ∀ x ∈ log.map Lit.var, stored.contains x = true) :
    ((log ++ written stored lits).map Lit.var).Nodup := by
  have hall := h.all_or_none hp hf hlits
  have hvars := hp.tidy.nodup_vars hfree hlits
  cases lits with
  | nil =>
      rw [written, List.append_nil]
      exact hlog
  | cons first rest =>
      simp only [written]
      split
      · rw [List.append_nil]
        exact hlog
      · rename_i hnew
        -- the first literal is new, so the others are
        have hnone := hall.resolve_left fun hall => hnew (hall first List.mem_cons_self)
        rw [List.map_append, List.nodup_append]
        refine ⟨hlog, hvars, ?_⟩
        rintro x hx _ hy rfl
        rcases List.mem_map.1 hy with ⟨l, hl, rfl⟩
        exact Bool.false_ne_true ((hnone l hl).symm.trans (hstored _ hx))

/-- The whole walk. -/
theorem nodup_writes (hp : p.Represents f) (hf : f.Coherent) (hfree : p.Free) (n : Nat)
    (hn : n ≤ p.size) : ((writes ∅ (p.components.toList.take n)).map Lit.var).Nodup := by
  induction n with
  | zero =>
      exact List.nodup_nil
  | succ n ih =>
      have hlt : n < p.components.toList.length := by
        rw [Array.length_toList]
        exact hn
      have hlits : p.components[n]? = some p.components.toList[n] := by
        rw [← Array.getElem?_toList]
        exact List.getElem?_eq_getElem hlt
      have hle := Nat.le_of_succ_le hn
      rw [List.take_succ_eq_append_getElem hlt, writes_snoc]
      refine (settles_take hp hf hfree n hle).nodup_step hp hf hfree hlits (ih hle) ?_
      intro x hx
      rw [foldl_assign_eq]
      exact (contains_foldl_sign _ _ x).2 (Or.inr hx)

/-! ## The model, variable by variable -/

/-- What the walk over the components of a formula comes to. Each component is found all with values or all
without. What is stored is what is written; the variables that occur are written once each, and no others
are stored. A variable that occurs is true exactly if its component comes before that of its negation, and
any other variable is false. -/
structure Walked (p : Partition) (f : Formula) (m : Model) : Prop where
  numVars : m.numVars = f.maxVar
  whole : ∀ before lits after, p.components.toList = before ++ lits :: after →
    (∀ l ∈ lits, (before.foldl assign ∅).contains l.var = true) ∨
      ∀ l ∈ lits, (before.foldl assign ∅).contains l.var = false
  stored : m.stored = (writes ∅ p.components.toList).foldl store ∅
  once : ∀ x, (∃ c ∈ f.clauses, c.Mentions x) →
    ((writes ∅ p.components.toList).map Lit.var).count x = 1
  contains_iff : ∀ x, m.stored.contains x = true ↔ ∃ c ∈ f.clauses, c.Mentions x
  value? : ∀ x, (∃ c ∈ f.clauses, c.Mentions x) →
    ∃ i j, p.componentOf? ⟨x, true⟩ = some i ∧ p.componentOf? ⟨x, false⟩ = some j ∧
      m.value? x = some (decide (i < j))
  absent : ∀ x, x ≠ 0 → x ≤ f.maxVar → (¬ ∃ c ∈ f.clauses, c.Mentions x) → m.value? x = some false

theorem stored_resolve_eq (p : Partition) (n : UInt32) :
    (p.resolve n).stored = (writes ∅ p.components.toList).foldl store ∅ := by
  rw [← foldl_assign_eq, Array.foldl_toList]
  rfl

/-- The variables with a value are those that occur. -/
theorem contains_resolve_iff (hf : f.Built) (hcoherent : f.Coherent) (hp : p.Represents f)
    (hfree : p.Free) (x : UInt32) :
    (p.resolve f.maxVar).stored.contains x = true ↔ ∃ c ∈ f.clauses, c.Mentions x := by
  have hcontains : (p.resolve f.maxVar).stored.contains x = true ↔ _ := contains_iff_of_var ⟨x, true⟩
  rw [stored_resolve hp hcoherent hfree, stored_resolve hp hcoherent hfree] at hcontains
  have hoccurs : (∃ c ∈ f.clauses, c.Mentions x) ↔ ∃ i, p.componentOf? ⟨x, true⟩ = some i := by
    rw [hp.exists_number_iff, hf.contains_iff]
  refine hcontains.trans ?_
  rw [hoccurs]
  constructor
  · rintro (⟨i, j, hi, _⟩ | ⟨i, j, _, hj, _⟩)
    · exact ⟨i, hi⟩
    · exact ⟨j, hj⟩
  · rintro ⟨i, hi⟩
    rcases hp.exists_neg hcoherent hi with ⟨j, hj⟩
    rcases Nat.lt_trichotomy i j with hij | rfl | hji
    · exact Or.inl ⟨i, j, hi, hj, hij⟩
    · exact absurd hj (hfree _ i hi)
    · exact Or.inr ⟨j, i, hj, hi, hji⟩

theorem walked_resolve (hf : f.Built) (hcoherent : f.Coherent) (hp : p.Represents f)
    (hfree : p.Free) : p.Walked f (p.resolve f.maxVar) where
  numVars := rfl
  whole := by
    intro before lits after hsplit
    have hlt : before.length < p.components.toList.length := by
      rw [hsplit]
      simp
    have hlits : p.components[before.length]? = some lits := by
      rw [← Array.getElem?_toList, hsplit]
      simp
    have htake : p.components.toList.take before.length = before := by
      rw [hsplit]
      simp
    have hsettles := settles_take hp hcoherent hfree before.length
      (Nat.le_of_lt (Array.length_toList ▸ hlt))
    rw [htake] at hsettles
    exact hsettles.all_or_none hp hcoherent hlits
  stored := p.stored_resolve_eq f.maxVar
  once := by
    intro x hx
    have htake : p.components.toList.take p.size = p.components.toList :=
      List.take_of_length_le (Nat.le_of_eq Array.length_toList)
    have hnodup := nodup_writes hp hcoherent hfree p.size (Nat.le_refl _)
    rw [htake] at hnodup
    apply List.count_eq_one_of_mem hnodup
    have hstored := (contains_resolve_iff hf hcoherent hp hfree x).2 hx
    rw [stored_resolve_eq] at hstored
    exact ((contains_foldl_sign _ _ x).1 hstored).resolve_left (by simp)
  contains_iff := contains_resolve_iff hf hcoherent hp hfree
  value? := by
    intro x hx
    rcases (hp.exists_number_iff ⟨x, true⟩).2 ((hf.contains_iff _).2 hx) with ⟨i, hi⟩
    rcases hp.exists_neg hcoherent hi with ⟨j, hj⟩
    have heval := Formula.eval?_resolve hf hcoherent hp hfree hi hj
    refine ⟨i, j, hi, hj, ?_⟩
    rw [← heval]
    simp [Lit.eval?]
  absent := by
    intro x hne hle hx
    have hnot : (p.resolve f.maxVar).stored.contains x = false :=
      Bool.eq_false_iff.2 fun hc => hx ((contains_resolve_iff hf hcoherent hp hfree x).1 hc)
    rw [Std.TreeMap.contains_eq_isSome_getElem?, Option.isSome_eq_false_iff, Option.isNone_iff_eq_none]
      at hnot
    rw [Model.value?_eq_read hne hle, Model.read, Std.TreeMap.get?_eq_getElem?, hnot]
    rfl

end Partition

/-- A solver at any point of a run from any start, with fewer than `4294967296` vertices and clauses that
have a model: the model that it gives comes of a walk over the components that it gives. -/
theorem model_by_order {start s : Solver} {given : List (Int32 × Int32)}
    {ops : List Solver.Operation} (hstart : Solver.Starts start given)
    (hs : (start.performAll ops).2 = s) (hsize : s.formula.graph.numVertices < UInt32.size)
    (hsat : Satisfiable s.formula.clauses.toList) :
    ∃ p m, (s.perform .partition).1 = .partition p ∧ (s.perform .model).1 = .model (some m) ∧
      p.Walked s.formula m := by
  have hreflects := hstart.reflects_performAll hs
  have hbuilt := hreflects.built
  have hcoherent := hbuilt.coherent hsize
  rcases hreflects.exists_answers hsize with ⟨a, _, hrep, hanswers⟩
  have hnone := (Formula.conflict?_eq_none_iff hbuilt hcoherent hrep).2 hsat
  have hmodel : a.model? s.formula.maxVar = some (a.partition.resolve s.formula.maxVar) := by
    rw [Analysis.model?, hnone]
    rfl
  refine ⟨a.partition, a.partition.resolve s.formula.maxVar, hanswers.partition, ?_,
    Partition.walked_resolve hbuilt hcoherent hrep (hrep.tidy.conflict?_eq_none_iff.1 hnone)⟩
  rw [hanswers.model, hmodel]

/-- The first two clauses make one component of `1` and `2`, and no clause is about `3` and `4`. -/
theorem model_by_order_gap :
    ∃ s, (Solver.performAll .empty [.insert 1 (-2), .model, .insert (-1) 2, .insert 5 1]).2 = s ∧
      s.formula.graph.numVertices < UInt32.size ∧ Satisfiable s.formula.clauses.toList ∧
      ∃ p m, (s.perform .partition).1 = .partition p ∧ (s.perform .model).1 = .model (some m) ∧
        p.Walked s.formula m ∧ m.value? 4 = some false := by
  obtain ⟨s, hs⟩ : ∃ s,
      (Solver.performAll .empty [.insert 1 (-2), .model, .insert (-1) 2, .insert 5 1]).2 = s := ⟨_, rfl⟩
  have hsize : s.formula.graph.numVertices < UInt32.size := by
    rw [← hs]
    decide +kernel
  have hsat : Satisfiable s.formula.clauses.toList := by
    refine ⟨fun _ => true, ?_⟩
    rw [← hs]
    decide +kernel
  have hmax : (4 : UInt32) ≤ s.formula.maxVar := by
    rw [← hs]
    decide +kernel
  have habsent : ¬ ∃ c ∈ s.formula.clauses, c.Mentions 4 := by
    rw [← hs]
    unfold Clause.Mentions
    decide +kernel
  rcases model_by_order Solver.Starts.empty hs hsize hsat with ⟨p, m, hp, hm, hwalked⟩
  exact ⟨s, hs, hsize, hsat, p, m, hp, hm, hwalked, hwalked.absent 4 (by decide) hmax habsent⟩

end TwoCnf
