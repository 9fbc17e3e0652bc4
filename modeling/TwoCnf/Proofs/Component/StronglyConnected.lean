import TwoCnf.Proofs.Component.Closing

/-!
# StronglyConnected — a search finds the strongly connected components

* `Search.Invariant.step` — a step does not fail and keeps the invariant;
* `Search.exists_run` — what a step keeps, a run keeps, and the run ends without frames;
* `Graph.WellFormed.exists_partition` — the components of a well-formed graph are found, and they are
  `Partition.StrongFor` the graph;
* `partition_stronglyConnected` — the same for the graph of a formula, told vertex by vertex.
-/

namespace TwoCnf

namespace Search

variable {g : Graph}

/-! ## One step -/

theorem Invariant.enter {s s' : Search} (hi : s.Invariant g) (hg : g.WellFormed) {v : UInt32}
    (h : Enters s v s')
    (hawait : ∀ top rest, s.frames = top :: rest →
      g.successorAt top.vertex top.place = .ok (some v)) : s'.Invariant g :=
  ⟨h.shape hg hi.shape hawait, h.lowlinks hg hi.shape hi.lowlinks hawait, h.records hi.records⟩

/-- A step does not fail and keeps the invariant. -/
theorem Invariant.step {s : Search} (hi : s.Invariant g) (hg : g.WellFormed) {top : Frame}
    {rest : List Frame} (hframes : s.frames = top :: rest) :
    ∃ s', s.step g top rest = .ok s' ∧ StepCase g s top rest s' ∧ s'.Invariant g := by
  rcases exists_step hg hi.shape hframes with ⟨s', hstep, hcase⟩
  refine ⟨s', hstep, hcase, ?_⟩
  have hs := hi.shape
  have hl := hi.lowlinks
  have hr := hi.records
  cases hcase with
  | enters w hsucc h =>
      apply hi.enter hg h
      intro top' rest' hframes'
      rw [hframes] at hframes'
      cases hframes'
      exact hsucc
  | passes w hsucc hseen h =>
      exact ⟨h.shape hs hframes, h.lowlinks hg hs hl hframes hsucc hseen, h.records hs hr hframes⟩
  | leaves hnone hroot h =>
      have hle := hl.low_le top.vertex (hs.top_mem_stack hframes)
      have hlt : s.low top.vertex < s.index top.vertex := Nat.lt_of_le_of_ne hle hroot
      rw [← h]
      exact ⟨hs.leave hframes, hl.leave hg hs hframes hnone hlt, hr.leave⟩
  | closes hnone hroot pre post h =>
      exact ⟨h.shape hs hframes, h.lowlinks hg hs hl hframes hnone hroot,
        h.records hg hs hl hr hframes hnone hroot⟩

theorem sees_of_step {s s' : Search} {top : Frame} {rest : List Frame}
    (h : s.step g top rest = .ok s') : Sees s s' := by
  rcases bind_eq_ok.1 h with ⟨w?, _, h⟩
  cases w? with
  | none =>
      exact (sees_of_leave h).1
  | some w =>
      rcases bind_eq_ok.1 h with ⟨m, _, h⟩
      cases m with
      | unseen =>
          exact (sees_of_setMark (by simp) h).1
      | active index low =>
          exact (sees_of_lower h).1
      | settled =>
          have heq : s.withFrames (top.advance :: rest) = s' := Except.ok.inj h
          rw [← heq]
          exact Sees.refl s

/-! ## A whole run -/

theorem run_of_nil {s : Search} (h : s.frames = []) : s.run g = .ok s := by
  unfold run
  split
  · rfl
  · rename_i hcons
    rw [h] at hcons
    cases hcons

theorem run_of_cons {s s' : Search} {top : Frame} {rest : List Frame} (h : s.frames = top :: rest)
    (hstep : s.step g top rest = .ok s') : s.run g = s'.run g := by
  conv => lhs; unfold run
  split
  · rename_i hnil
    rw [h] at hnil
    cases hnil
  · rename_i top' rest' hcons
    rw [h] at hcons
    cases hcons
    split
    · rename_i herror
      rw [hstep] at herror
      cases herror
    · rename_i t ht
      rw [hstep] at ht
      cases ht
      rfl

theorem run_of_error {s : Search} {top : Frame} {rest : List Frame} {fault : Fault}
    (h : s.frames = top :: rest) (hstep : s.step g top rest = .error fault) :
    s.run g = .error fault := by
  unfold run
  split
  · rename_i hnil
    rw [h] at hnil
    cases hnil
  · rename_i top' rest' hcons
    rw [h] at hcons
    cases hcons
    split
    · rename_i fault' herror
      rw [hstep] at herror
      cases herror
      rfl
    · rename_i t ht
      rw [hstep] at ht
      cases ht

/-- What every step keeps, a run keeps. It ends without frames. -/
theorem exists_run {P : Search → Prop}
    (hstep : ∀ s top rest, P s → s.frames = top :: rest → ∃ s', s.step g top rest = .ok s' ∧ P s')
    {s : Search} (hs : P s) : ∃ s', s.run g = .ok s' ∧ P s' ∧ s'.frames = [] := by
  -- the cases are those of the recursion; a fault would contradict what is known of a step
  induction s using Search.run.induct g with
  | case1 s hframes =>
      exact ⟨s, run_of_nil hframes, hs, hframes⟩
  | case2 s top rest hframes fault herror =>
      rcases hstep s top rest hs hframes with ⟨s', hok, _⟩
      rw [herror] at hok
      cases hok
  | case3 s top rest hframes s' hok _ ih =>
      rcases hstep s top rest hs hframes with ⟨t, ht, hPt⟩
      rw [hok] at ht
      cases ht
      rw [run_of_cons hframes hok]
      exact ih hPt

theorem stack_eq_nil {s : Search} (hi : s.Invariant g) (hframes : s.frames = []) : s.stack = [] := by
  rw [List.eq_nil_iff_forall_not_mem]
  intro v hv
  rcases hi.lowlinks.reaches_frame v hv with ⟨f, hf, _⟩
  rw [hframes] at hf
  cases hf

theorem markOf_ne_unseen_of_sees {s s' : Search} (h : Sees s s') {v : UInt32}
    (hv : s.markOf v ≠ .unseen) : s'.markOf v ≠ .unseen := by
  have hlt := lt_size_of_markOf hv
  intro hunseen
  have hlt' : v.toNat < s'.marks.size := by
    rw [h.1]
    exact hlt
  have hold := h.2 v.toNat (by rw [getElem?_marks hlt', hunseen])
  rw [getElem?_marks hlt] at hold
  exact hv (Option.some.inj hold)

/-- Searching from a vertex keeps the invariant and leaves the vertex seen. -/
theorem exists_visit {s : Search} (hg : g.WellFormed) (hi : s.Invariant g) (hframes : s.frames = [])
    {v : UInt32} (hv : v.toNat < g.numVertices) :
    ∃ s', s.visit g v = .ok s' ∧ s'.Invariant g ∧ s'.frames = [] ∧ Sees s s' ∧
      s'.markOf v ≠ .unseen := by
  have hlt : v.toNat < s.marks.size := by
    rw [hi.shape.size_eq]
    exact hv
  have hmark := mark_eq hlt
  cases hmarkOf : s.markOf v with
  | unseen =>
      rw [hmarkOf] at hmark
      rcases exists_enter hlt hmarkOf with ⟨t, henter, h⟩
      have hawait : ∀ top rest, s.frames = top :: rest →
          g.successorAt top.vertex top.place = .ok (some v) := by
        intro top rest hcons
        rw [hframes] at hcons
        cases hcons
      have ht : t.Invariant g := hi.enter hg h hawait
      have hseen : Sees s t := (sees_of_setMark (by simp) henter).1
      -- along with the invariant, the run keeps that what has been seen stays seen
      have hkeeps : ∀ a top rest, a.Invariant g ∧ Sees t a → a.frames = top :: rest →
          ∃ b, a.step g top rest = .ok b ∧ b.Invariant g ∧ Sees t b := by
        rintro a top rest ⟨ha, hta⟩ hcons
        rcases ha.step hg hcons with ⟨b, hb, _, hib⟩
        exact ⟨b, hb, hib, hta.trans (sees_of_step hb)⟩
      rcases exists_run hkeeps ⟨ht, Sees.refl t⟩ with ⟨s', hrun, ⟨hi', hts'⟩, hempty⟩
      refine ⟨s', bind_eq_ok.2 ⟨_, hmark, bind_eq_ok.2 ⟨_, henter, hrun⟩⟩, hi', hempty,
        hseen.trans hts', markOf_ne_unseen_of_sees hts' ?_⟩
      rw [h.markOf_eq, if_pos rfl]
      simp
  | active index low =>
      rw [hmarkOf] at hmark
      exact ⟨s, bind_eq_ok.2 ⟨_, hmark, rfl⟩, hi, hframes, Sees.refl s, by simp [hmarkOf]⟩
  | settled =>
      rw [hmarkOf] at hmark
      exact ⟨s, bind_eq_ok.2 ⟨_, hmark, rfl⟩, hi, hframes, Sees.refl s, by simp [hmarkOf]⟩

/-- Searching from one vertex after the other leaves all of them seen. -/
theorem exists_visits {s : Search} (hg : g.WellFormed) (hi : s.Invariant g) (hframes : s.frames = [])
    {vs : List UInt32} (hvs : ∀ v ∈ vs, v.toNat < g.numVertices) :
    ∃ s', vs.foldlM (visit g) s = .ok s' ∧ s'.Invariant g ∧ s'.frames = [] ∧
      ∀ v ∈ vs, s'.markOf v ≠ .unseen := by
  refine exists_foldlM (fun before (s : Search) => s.Invariant g ∧ s.frames = [] ∧
    ∀ v ∈ before, s.markOf v ≠ .unseen) ⟨hi, hframes, by simp⟩ ?_
  rintro before v s hv ⟨hi, hframes, hseen⟩
  rcases exists_visit hg hi hframes (hvs v hv) with ⟨t, hvisit, hit, hframest, hst, hseenv⟩
  refine ⟨t, hvisit, hit, hframest, ?_⟩
  intro u hu
  rcases List.mem_append.1 hu with hbefore | hlast
  · exact markOf_ne_unseen_of_sees hst (hseen u hbefore)
  · rw [List.mem_singleton.1 hlast]
    exact hseenv

theorem markOf_start (g : Graph) (v : UInt32) : (start g).markOf v = .unseen := by
  unfold markOf start
  rw [Array.getElem?_replicate]
  split <;> rfl

theorem componentOf?_start (g : Graph) (l : Lit) : (start g).found.componentOf? l = none :=
  Partition.componentOf?_empty l

theorem shape_start (g : Graph) : (start g).Shape g where
  size_eq := Array.size_replicate
  count := by simp [start]
  mem_stack_iff := by
    intro v
    rw [markOf_start]
    simp [start]
  index_lt := by
    intro v hv
    cases hv
  sorted := List.Pairwise.nil
  frames_sublist := List.Sublist.slnil
  path := List.IsChain.nil
  found_le := Nat.le_refl _

theorem lowlinks_start (g : Graph) : (start g).Lowlinks g where
  low_le := by
    intro v hv
    cases hv
  low_reaches := by
    intro v hv
    cases hv
  frame_reaches := by
    intro f hf
    cases hf
  reaches_frame := by
    intro x hx
    cases hx
  seen := by
    intro x hx
    cases hx
  escape := by
    intro f hf
    cases hf
  closed := by
    intro x hx
    rw [markOf_start] at hx
    cases hx

theorem records_start (g : Graph) : (start g).Records g where
  tidy := Partition.tidy_empty
  settled_iff := by
    intro v _
    rw [markOf_start, componentOf?_start]
    simp
  exists_name := by
    intro l i hi
    rw [componentOf?_start] at hi
    cases hi
  same_iff := by
    intro u v _ _ hu
    rw [markOf_start] at hu
    cases hu
  order := by
    intro u v i j _ _ _ hi
    rw [componentOf?_start] at hi
    cases hi

end Search

/-! ## The components of a graph -/

/-- `p` holds the strongly connected components of `g`, each after those that its edges lead to. -/
structure Partition.StrongFor (p : Partition) (g : Graph) : Prop where
  tidy : p.Tidy
  size_le : p.size ≤ g.numVertices
  exists_number : ∀ v : UInt32, v.toNat < g.numVertices → ∃ i, p.componentOf? (g.name v) = some i
  exists_name : ∀ l i, p.componentOf? l = some i →
    ∃ v : UInt32, v.toNat < g.numVertices ∧ g.name v = l
  same_iff : ∀ u v : UInt32, u.toNat < g.numVertices → v.toNat < g.numVertices →
    (p.componentOf? (g.name u) = p.componentOf? (g.name v) ↔ g.Reaches u v ∧ g.Reaches v u)
  order : ∀ u v i j, u.toNat < g.numVertices → v.toNat < g.numVertices → g.Edge u v →
    p.componentOf? (g.name u) = some i → p.componentOf? (g.name v) = some j → j ≤ i

namespace Graph

/-- The search finds the strongly connected components of a well-formed graph. -/
theorem WellFormed.exists_partition {g : Graph} (hg : g.WellFormed) :
    ∃ p, g.partition = .ok p ∧ p.StrongFor g := by
  have hstart : (Search.start g).Invariant g :=
    ⟨Search.shape_start g, Search.lowlinks_start g, Search.records_start g⟩
  have hvertices : ∀ v ∈ g.vertices, v.toNat < g.numVertices := by
    intro v hv
    exact (mem_vertices hg.size_lt v).1 hv
  rcases Search.exists_visits hg hstart rfl hvertices with ⟨s, hfold, hi, hframes, hseen⟩
  -- the stack is empty in the end, so every vertex that has been seen is settled
  have hsettled : ∀ v : UInt32, v.toNat < g.numVertices → s.markOf v = .settled := by
    intro v hv
    cases hmark : s.markOf v with
    | unseen =>
        exact absurd hmark (hseen v ((mem_vertices hg.size_lt v).2 hv))
    | settled =>
        rfl
    | active index low =>
        have hmem := (hi.shape.mem_stack_iff v).2 ⟨index, low, hmark⟩
        rw [Search.stack_eq_nil hi hframes] at hmem
        cases hmem
  have hsize : s.found.size ≤ g.numVertices := by
    have hle := hi.shape.found_le
    have hcount := hi.shape.count
    have hmarks := hi.shape.size_eq
    omega
  have hr := hi.records
  refine ⟨s.found, partition_eq_ok.2 ⟨s, hfold, rfl⟩, ?_⟩
  exact
    { tidy := hr.tidy
      size_le := hsize
      exists_number := fun v hv => (hr.settled_iff v hv).1 (hsettled v hv)
      exists_name := hr.exists_name
      same_iff := fun u v hu hv => hr.same_iff u v hu hv (hsettled u hu)
      order := hr.order }

theorem WellFormed.strongFor {g : Graph} (hg : g.WellFormed) {p : Partition}
    (hp : g.partition = .ok p) : p.StrongFor g := by
  rcases hg.exists_partition with ⟨q, hq, hstrong⟩
  rw [hp] at hq
  cases hq
  exact hstrong

end Graph

/-- The components of the graph of a formula. Every vertex has its literal in one component and once in
it; components are not empty and hold literals of vertices only; two vertices share a component exactly
if each reaches the other; and the number of a literal is that of the component that lists it. -/
theorem partition_stronglyConnected {f : Formula} (hf : f.Built)
    (hsize : f.graph.numVertices < UInt32.size) :
    ∃ p, f.graph.partition = .ok p ∧
      (∀ v : UInt32, v.toNat < f.graph.numVertices → ∃ l i lits, f.graph.lit v = .ok l ∧
        p.component i = .ok lits ∧ lits.count l = 1 ∧
        ∀ j lits', p.component j = .ok lits' → l ∈ lits' → j = i) ∧
      (∀ i lits, p.component i = .ok lits →
        lits ≠ [] ∧ ∀ l ∈ lits, ∃ v, f.graph.lit v = .ok l) ∧
      (∀ u v l m, f.graph.lit u = .ok l → f.graph.lit v = .ok m →
        ((∃ i lits, p.component i = .ok lits ∧ l ∈ lits ∧ m ∈ lits) ↔
          f.graph.Reaches u v ∧ f.graph.Reaches v u)) ∧
      (∀ l i, p.componentOf? l = some i ↔ ∃ lits, p.component i = .ok lits ∧ l ∈ lits) ∧
      (∀ l, p.componentOf? l = none ↔ f.graph.vertexOf? l = none) := by
  have hg := (hf.coherent hsize).wellFormed_graph hsize
  rcases hg.exists_partition with ⟨p, hp, hstrong⟩
  have hnumber := hstrong.tidy.componentOf?_eq_some
  refine ⟨p, hp, ?_, ?_, ?_, hnumber, ?_⟩
  · intro v hv
    rcases hstrong.exists_number v hv with ⟨i, hi⟩
    rcases (hnumber _ i).1 hi with ⟨lits, hlits, hmem⟩
    have hnodup := hstrong.tidy.nodup lits (Array.mem_of_getElem? (entry_eq_ok.1 hlits))
    refine ⟨_, i, lits, Graph.lit_eq_name hv, hlits, List.count_eq_one_of_mem hnodup hmem, ?_⟩
    intro j lits' hlits' hmem'
    have hj := (hnumber _ j).2 ⟨lits', hlits', hmem'⟩
    rw [hi] at hj
    exact (Option.some.inj hj).symm
  · intro i lits hlits
    refine ⟨hstrong.tidy.ne_nil lits (Array.mem_of_getElem? (entry_eq_ok.1 hlits)), ?_⟩
    intro l hl
    rcases hstrong.exists_name l i ((hnumber l i).2 ⟨lits, hlits, hl⟩) with ⟨v, hv, rfl⟩
    exact ⟨v, Graph.lit_eq_name hv⟩
  · intro u v l m hl hm
    rcases Graph.name_of_lit hl with ⟨hu, rfl⟩
    rcases Graph.name_of_lit hm with ⟨hv, rfl⟩
    rw [← hstrong.same_iff u v hu hv]
    constructor
    · rintro ⟨i, lits, hlits, hmeml, hmemm⟩
      rw [(hnumber _ i).2 ⟨lits, hlits, hmeml⟩, (hnumber _ i).2 ⟨lits, hlits, hmemm⟩]
    · intro heq
      rcases hstrong.exists_number u hu with ⟨i, hi⟩
      rcases (hnumber _ i).1 hi with ⟨lits, hlits, hmeml⟩
      rcases (hnumber _ i).1 (heq ▸ hi) with ⟨lits', hlits', hmemm⟩
      rw [hlits] at hlits'
      cases hlits'
      exact ⟨i, lits, hlits, hmeml, hmemm⟩
  · intro l
    rw [Option.eq_none_iff_forall_ne_some, Option.eq_none_iff_forall_ne_some]
    constructor
    · intro hnone v hv
      rcases hg.vertexOf?_eq_some_iff.1 hv with ⟨hlt, rfl⟩
      rcases hstrong.exists_number v hlt with ⟨i, hi⟩
      exact hnone i hi
    · intro hnone i hi
      rcases hstrong.exists_name l i hi with ⟨v, hv, hname⟩
      exact hnone v (hg.vertexOf?_eq_some_iff.2 ⟨hv, hname⟩)

/-- The clauses `1 ∨ -2`, `2 ∨ -1` and `-1 ∨ 3`: two variables imply each other and a third one. -/
def Formula.loopWithExit : Formula :=
  ((Formula.empty.insert ⟨⟨1, true⟩, ⟨2, false⟩⟩).insert ⟨⟨2, true⟩, ⟨1, false⟩⟩).insert
    ⟨⟨1, false⟩, ⟨3, true⟩⟩

theorem Formula.built_loopWithExit : Formula.loopWithExit.Built := by
  have hfirst : Clause.ofSigned 1 (-2) = .ok ⟨⟨1, true⟩, ⟨2, false⟩⟩ := by decide
  have hsecond : Clause.ofSigned 2 (-1) = .ok ⟨⟨2, true⟩, ⟨1, false⟩⟩ := by decide
  have hthird : Clause.ofSigned (-1) 3 = .ok ⟨⟨1, false⟩, ⟨3, true⟩⟩ := by decide
  exact ((Built.empty.insert (insertSigned_eq_ok.2 ⟨hfirst, rfl⟩)).insert
    (insertSigned_eq_ok.2 ⟨hsecond, rfl⟩)).insert (insertSigned_eq_ok.2 ⟨hthird, rfl⟩)

theorem Formula.numVertices_loopWithExit_lt :
    Formula.loopWithExit.graph.numVertices < UInt32.size := by
  decide +kernel

theorem Formula.components_loopWithExit {p : Partition}
    (hp : Formula.loopWithExit.graph.partition = .ok p) :
    p.components = #[[⟨3, true⟩], [⟨2, true⟩, ⟨1, true⟩], [⟨2, false⟩, ⟨1, false⟩], [⟨3, false⟩]] ∧
      p.componentOf? ⟨1, true⟩ = some 1 ∧ p.componentOf? ⟨2, true⟩ = some 1 ∧
      p.componentOf? ⟨3, true⟩ = some 0 := by
  have hfound : Formula.loopWithExit.graph.partition.map (fun p => (p.components,
      p.componentOf? ⟨1, true⟩, p.componentOf? ⟨2, true⟩, p.componentOf? ⟨3, true⟩)) =
      .ok (#[[⟨3, true⟩], [⟨2, true⟩, ⟨1, true⟩], [⟨2, false⟩, ⟨1, false⟩], [⟨3, false⟩]],
        some 1, some 1, some 0) := by
    decide +kernel
  rw [hp] at hfound
  have hparts := Except.ok.inj hfound
  simp only [Prod.mk.injEq] at hparts
  exact hparts

/-- The literals `1` and `2` share a component, so each reaches the other. The literal `3` has its own. -/
theorem partition_loopWithExit : Formula.loopWithExit.Built ∧
    Formula.loopWithExit.graph.numVertices < UInt32.size ∧
    ∃ p, Formula.loopWithExit.graph.partition = .ok p ∧
      p.component 1 = .ok [⟨2, true⟩, ⟨1, true⟩] ∧
      Formula.loopWithExit.graph.lit 0 = .ok ⟨1, true⟩ ∧
      Formula.loopWithExit.graph.lit 3 = .ok ⟨2, true⟩ ∧
      Formula.loopWithExit.graph.lit 4 = .ok ⟨3, true⟩ ∧
      (Formula.loopWithExit.graph.Reaches 0 3 ∧ Formula.loopWithExit.graph.Reaches 3 0) ∧
      ¬ (Formula.loopWithExit.graph.Reaches 0 4 ∧ Formula.loopWithExit.graph.Reaches 4 0) ∧
      ∀ l, p.componentOf? l = none ↔ Formula.loopWithExit.graph.vertexOf? l = none := by
  have hsize := Formula.numVertices_loopWithExit_lt
  have hfirst : Formula.loopWithExit.graph.lit 0 = .ok ⟨1, true⟩ := by decide +kernel
  have hsecond : Formula.loopWithExit.graph.lit 3 = .ok ⟨2, true⟩ := by decide +kernel
  have hthird : Formula.loopWithExit.graph.lit 4 = .ok ⟨3, true⟩ := by decide +kernel
  rcases partition_stronglyConnected Formula.built_loopWithExit hsize with
    ⟨p, hp, _, _, hshares, hnumber, hnone⟩
  rcases Formula.components_loopWithExit hp with ⟨hcomponents, hone, _, hthree⟩
  have hshared : p.component 1 = .ok [⟨2, true⟩, ⟨1, true⟩] := by
    rw [Partition.component, hcomponents]
    rfl
  have hmutual := (hshares 0 3 _ _ hfirst hsecond).1 ⟨1, _, hshared, by simp, by simp⟩
  refine ⟨Formula.built_loopWithExit, hsize, p, hp, hshared, hfirst, hsecond, hthird, hmutual, ?_, hnone⟩
  intro hreaches
  rcases (hshares 0 4 _ _ hfirst hthird).2 hreaches with ⟨i, lits, hlits, hmem, hmem'⟩
  have hi := (hnumber _ i).2 ⟨lits, hlits, hmem⟩
  have hi' := (hnumber _ i).2 ⟨lits, hlits, hmem'⟩
  rw [hone] at hi
  rw [hthree, ← hi] at hi'
  cases hi'

end TwoCnf
