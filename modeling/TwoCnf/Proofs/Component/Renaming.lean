import TwoCnf.Proofs.Component.StronglyConnected
import TwoCnf.Proofs.Formula.Renaming

/-!
# Renaming — the search of a renamed graph

A search looks at numbers only, and at a literal just to list it in a component. So the searches of two
graphs that differ in the names of their literals go through the same states, up to these names.

* `Partition.Renamed`, `Search.Renamed` — the same components of renamed literals, and the same state of a
  search apart from what it has found;
* `Search.Renamed.step` — one step keeps that, and with it `Search.Renamed.run` a whole run;
* `Graph.Renamed.exists_partition` — the components of a renamed graph are the renamed components, in the
  same order and with the same order inside.
-/

namespace TwoCnf

variable {r : Renaming}

/-- The same components of renamed literals, and the same numbers for them. -/
structure Partition.Renamed (r : Renaming) (p p' : Partition) : Prop where
  components : p'.components = p.components.map (List.map r.map)
  byLit : ∀ l, p'.byLit[r.map l]? = p.byLit[l]?

namespace Partition.Renamed

variable {p p' : Partition}

theorem empty (r : Renaming) : Partition.empty.Renamed r Partition.empty where
  components := Array.map_empty.symm
  byLit := fun _ => rfl

theorem push (h : p.Renamed r p') (lits : List Lit) :
    (p.push lits).Renamed r (p'.push (lits.map r.map)) where
  components := by
    unfold Partition.push
    rw [h.components, Array.map_push]
  byLit := by
    intro l
    -- no other literal has the new name of this one
    have hmem : r.map l ∈ lits.map r.map ↔ l ∈ lits := List.mem_map_of_injective r.injective
    unfold Partition.push
    simp only [getElem?_foldl_insert, hmem, h.byLit, h.components, Array.size_map]

theorem componentOf? (h : p.Renamed r p') (l : Lit) :
    p'.componentOf? (r.map l) = p.componentOf? l := by
  unfold Partition.componentOf?
  rw [Std.TreeMap.get?_eq_getElem?, Std.TreeMap.get?_eq_getElem?, h.byLit]

end Partition.Renamed

/-- The same state, apart from the names of what has been found. -/
structure Search.Renamed (r : Renaming) (s s' : Search) : Prop where
  marks : s'.marks = s.marks
  stack : s'.stack = s.stack
  frames : s'.frames = s.frames
  next : s'.next = s.next
  found : s.found.Renamed r s'.found

namespace Search.Renamed

variable {g g' : Graph} {s s' t : Search}

theorem start (hg : g.Renamed r g') : (Search.start g).Renamed r (Search.start g') where
  marks := by
    unfold Search.start
    rw [hg.numVertices]
  stack := rfl
  frames := rfl
  next := rfl
  found := Partition.Renamed.empty r

theorem withFrames (h : s.Renamed r s') (frames : List Frame) :
    (s.withFrames frames).Renamed r (s'.withFrames frames) :=
  ⟨h.marks, h.stack, rfl, h.next, h.found⟩

theorem mark (h : s.Renamed r s') (v : UInt32) : s'.mark v = s.mark v := by
  unfold Search.mark
  rw [h.marks]

theorem setMark (h : s.Renamed r s') {v : UInt32} {m : Mark} (ht : s.setMark v m = .ok t) :
    ∃ t', s'.setMark v m = .ok t' ∧ t.Renamed r t' := by
  rcases setMark_eq_ok.1 ht with ⟨hlt, rfl⟩
  rw [← h.marks] at hlt
  refine ⟨_, setMark_eq_ok.2 ⟨hlt, rfl⟩, ?_, h.stack, h.frames, h.next, h.found⟩
  rw [h.marks]

theorem enter (h : s.Renamed r s') {v : UInt32} (ht : s.enter v = .ok t) :
    ∃ t', s'.enter v = .ok t' ∧ t.Renamed r t' := by
  rcases enter_eq_ok.1 ht with ⟨hlt, rfl⟩
  rw [← h.marks] at hlt
  refine ⟨_, enter_eq_ok.2 ⟨hlt, rfl⟩, ?_, ?_, ?_, ?_, h.found⟩
  · rw [h.marks, h.next]
  · rw [h.stack]
  · rw [h.frames]
  · rw [h.next]

theorem lower (h : s.Renamed r s') {v low : UInt32} (ht : s.lower v low = .ok t) :
    ∃ t', s'.lower v low = .ok t' ∧ t.Renamed r t' := by
  rcases bind_eq_ok.1 ht with ⟨m, hm, ht⟩
  rw [← h.mark] at hm
  have hlower : ∀ u, _ → s'.lower v low = .ok u := fun u hu => bind_eq_ok.2 ⟨m, hm, hu⟩
  cases m with
  | active index own =>
      rcases h.setMark ht with ⟨t', ht', hrenamed⟩
      exact ⟨t', hlower t' ht', hrenamed⟩
  | unseen =>
      cases ht
      exact ⟨s', hlower s' rfl, h⟩
  | settled =>
      cases ht
      exact ⟨s', hlower s' rfl, h⟩

theorem settle (h : s.Renamed r s') {vs : List UInt32} (ht : s.settle vs = .ok t) :
    ∃ t', s'.settle vs = .ok t' ∧ t.Renamed r t' :=
  exists_foldlM_related (fun _ _ _ _ hs hu => hs.setMark hu) h ht

/-- Closing a component is where names are read: those of the vertices that come off the stack. -/
theorem close (h : s.Renamed r s') (hg : g.Renamed r g') {root : UInt32} (ht : s.close g root = .ok t) :
    ∃ t', s'.close g' root = .ok t' ∧ t.Renamed r t' := by
  rcases bind_eq_ok.1 ht with ⟨lits, hlits, ht⟩
  have hlits' : (above root s'.stack).mapM g'.lit = .ok (lits.map r.map) := by
    rw [h.stack]
    exact mapM_eq_ok_of_map (fun _ _ => hg.lit) hlits
  have hclosed : Search.Renamed r { s with stack := below root s.stack, found := s.found.push lits }
      { s' with stack := below root s'.stack, found := s'.found.push (lits.map r.map) } := by
    refine ⟨h.marks, ?_, h.frames, h.next, h.found.push lits⟩
    rw [h.stack]
  rcases hclosed.settle ht with ⟨t', ht', hrenamed⟩
  rw [← h.stack] at ht'
  exact ⟨t', bind_eq_ok.2 ⟨_, hlits', ht'⟩, hrenamed⟩

theorem leave (h : s.Renamed r s') (hg : g.Renamed r g') {v : UInt32} (ht : s.leave g v = .ok t) :
    ∃ t', s'.leave g' v = .ok t' ∧ t.Renamed r t' := by
  rcases bind_eq_ok.1 ht with ⟨m, hm, ht⟩
  rw [← h.mark] at hm
  have hleave : ∀ u, _ → s'.leave g' v = .ok u := fun u hu => bind_eq_ok.2 ⟨m, hm, hu⟩
  cases m with
  | unseen =>
      cases ht
      exact ⟨s', hleave s' rfl, h⟩
  | settled =>
      cases ht
      exact ⟨s', hleave s' rfl, h⟩
  | active index low =>
      by_cases hroot : index = low
      · simp only [if_pos hroot] at ht hleave
        rcases h.close hg ht with ⟨t', ht', hrenamed⟩
        exact ⟨t', hleave t' ht', hrenamed⟩
      · simp only [if_neg hroot] at ht hleave
        cases ht
        exact ⟨s', hleave s' rfl, h⟩

/-- One step does the same in both searches. -/
theorem step (h : s.Renamed r s') (hg : g.Renamed r g') {top : Frame} {rest : List Frame}
    (ht : s.step g top rest = .ok t) : ∃ t', s'.step g' top rest = .ok t' ∧ t.Renamed r t' := by
  rcases bind_eq_ok.1 ht with ⟨w?, hw, ht⟩
  rw [← hg.successorAt] at hw
  cases w? with
  | none =>
      rcases (h.withFrames rest).leave hg ht with ⟨t', ht', hrenamed⟩
      exact ⟨t', bind_eq_ok.2 ⟨none, hw, ht'⟩, hrenamed⟩
  | some w =>
      rcases bind_eq_ok.1 ht with ⟨m, hm, ht⟩
      rw [← h.mark] at hm
      have hstep : ∀ u, _ → s'.step g' top rest = .ok u :=
        fun u hu => bind_eq_ok.2 ⟨some w, hw, bind_eq_ok.2 ⟨m, hm, hu⟩⟩
      cases m with
      | unseen =>
          rcases h.enter ht with ⟨t', ht', hrenamed⟩
          exact ⟨t', hstep t' ht', hrenamed⟩
      | active index low =>
          rcases (h.withFrames (top.advance :: rest)).lower ht with ⟨t', ht', hrenamed⟩
          exact ⟨t', hstep t' ht', hrenamed⟩
      | settled =>
          cases ht
          exact ⟨_, hstep _ rfl, h.withFrames (top.advance :: rest)⟩

/-- So does a whole run. -/
theorem run (h : s.Renamed r s') (hg : g.Renamed r g') (ht : s.run g = .ok t) :
    ∃ t', s'.run g' = .ok t' ∧ t.Renamed r t' := by
  -- the cases are those of the first run, and the second takes each step along with it
  induction s using Search.run.induct g generalizing s' with
  | case1 s hframes =>
      rw [run_of_nil hframes] at ht
      cases ht
      exact ⟨s', run_of_nil (h.frames.trans hframes), h⟩
  | case2 s top rest hframes fault herror =>
      rw [run_of_error hframes herror] at ht
      cases ht
  | case3 s top rest hframes u hu _ ih =>
      rw [run_of_cons hframes hu] at ht
      rcases h.step hg hu with ⟨u', hu', hrenamed⟩
      rw [run_of_cons (h.frames.trans hframes) hu']
      exact ih hrenamed ht

theorem visit (h : s.Renamed r s') (hg : g.Renamed r g') {v : UInt32} (ht : s.visit g v = .ok t) :
    ∃ t', s'.visit g' v = .ok t' ∧ t.Renamed r t' := by
  rcases bind_eq_ok.1 ht with ⟨m, hm, ht⟩
  rw [← h.mark] at hm
  have hvisit : ∀ u, _ → s'.visit g' v = .ok u := fun u hu => bind_eq_ok.2 ⟨m, hm, hu⟩
  cases m with
  | unseen =>
      rcases bind_eq_ok.1 ht with ⟨u, hu, ht⟩
      rcases h.enter hu with ⟨u', hu', hentered⟩
      rcases hentered.run hg ht with ⟨t', ht', hrenamed⟩
      exact ⟨t', hvisit t' (bind_eq_ok.2 ⟨u', hu', ht'⟩), hrenamed⟩
  | active index low =>
      cases ht
      exact ⟨s', hvisit s' rfl, h⟩
  | settled =>
      cases ht
      exact ⟨s', hvisit s' rfl, h⟩

end Search.Renamed

/-- The components of a renamed graph are the renamed components. -/
theorem Graph.Renamed.exists_partition {g g' : Graph} (hg : g.Renamed r g') {p : Partition}
    (hp : g.partition = .ok p) : ∃ p', g'.partition = .ok p' ∧ p.Renamed r p' := by
  rcases Graph.partition_eq_ok.1 hp with ⟨s, hs, rfl⟩
  rw [← hg.vertices] at hs
  rcases exists_foldlM_related (fun _ _ _ _ hs hu => hs.visit hg hu) (Search.Renamed.start hg) hs with
    ⟨s', hs', hrenamed⟩
  exact ⟨s'.found, Graph.partition_eq_ok.2 ⟨s', hs', rfl⟩, hrenamed.found⟩

end TwoCnf
