import TwoCnf.Proofs.Component.Descent
import TwoCnf.Proofs.Component.StronglyConnected

/-!
# Flattening — the search with frames finds what the recursion finds

A search with frames is laid beside a recursive one that has done as much. While the recursion is inside
a visit, the search has one more frame; when the visit returns, that frame is gone and nothing below it
has moved.

* `Search.Mirrors` — the two know the same;
* `Search.Mirrors.enter`, `Search.Mirrors.learn`, `Search.Mirrors.leave` — the steps of the one are the
  parts of the other;
* `Search.follows_of_visits`, `Search.visits` — a whole row and a whole visit, by induction on the
  unvisited vertices;
* `partition_eq_partitionByDescent` — both find the same components in the same order.
-/

namespace TwoCnf

/-! ## Popping the stack -/

namespace Descent

/-- Popping down to a root in the middle of the stack closes the component of what is above it. -/
theorem popThrough_eq (g : Graph) {root : UInt32} {pre : List UInt32} (hroot : root ∉ pre)
    (post : List UInt32) (d : Descent) (members : List Lit) :
    d.popThrough g root members (pre ++ root :: post) =
      { d with
        onStack := fun v => if v ∈ pre ++ [root] then false else d.onStack v
        stack := post
        found :=
          ⟨d.found.components.push (members ++ (pre ++ [root]).map g.name),
            ((pre ++ [root]).map g.name).foldl
              (fun byLit l => byLit.insert l (UInt32.ofNat d.found.components.size)) d.found.byLit⟩ } := by
  induction pre generalizing d members with
  | nil =>
      have hflags : Function.update d.onStack root false =
          fun v => if v ∈ [root] then false else d.onStack v := by
        funext v
        by_cases hv : v = root
        · simp [hv]
        · simp [hv]
      simp [popThrough, pop, record, hflags]
  | cons u pre ih =>
      have hne : u ≠ root := by
        intro heq
        exact hroot (heq ▸ List.mem_cons_self)
      have hrest : root ∉ pre := fun hmem => hroot (List.mem_cons_of_mem u hmem)
      rw [List.cons_append, popThrough, if_neg hne, ih hrest]
      have hflags : ∀ v, (if v ∈ pre ++ [root] then false else Function.update d.onStack u false v) =
          if v ∈ u :: pre ++ [root] then false else d.onStack v := by
        intro v
        by_cases hv : v = u
        · simp [hv]
        · simp [hv]
      simp only [pop, hflags, List.map_append, List.map_cons, List.cons_append, List.append_assoc,
        List.nil_append, List.foldl_cons]

end Descent

/-! ## The two side by side -/

/-- What a mark says in the terms of the recursion: the index, the `low` and the flag of a vertex. -/
def Mark.Says : Mark → Option Nat → Nat → Bool → Prop
  | .unseen, index, _, _ => index = none
  | .active i l, index, low, onStack => index = some i.toNat ∧ low = l.toNat ∧ onStack = true
  | .settled, index, _, onStack => index ≠ none ∧ onStack = false

namespace Search

variable {g : Graph}

/-- The recursion knows what the search knows. -/
structure Mirrors (s : Search) (d : Descent) : Prop where
  marks : ∀ v, (s.markOf v).Says (d.index v) (d.low v) (d.onStack v)
  stack_eq : d.stack = s.stack
  next_eq : d.next = s.next.toNat
  found_eq : d.found = s.found

theorem mirrors_start (g : Graph) : (start g).Mirrors .start where
  marks := by
    intro v
    rw [markOf_start]
    rfl
  stack_eq := rfl
  next_eq := rfl
  found_eq := rfl

namespace Mirrors

variable {s s' : Search} {d : Descent}

theorem unseen_iff (h : s.Mirrors d) (v : UInt32) : s.markOf v = .unseen ↔ d.index v = none := by
  have hv := h.marks v
  cases hmark : s.markOf v with
  | unseen =>
      rw [hmark] at hv
      exact iff_of_true rfl hv
  | active i l =>
      rw [hmark] at hv
      simp [hv.1]
  | settled =>
      rw [hmark] at hv
      exact iff_of_false (by simp) hv.1

theorem of_active (h : s.Mirrors d) {v : UInt32} (hv : v ∈ s.stack) (hs : s.Shape g) :
    d.index v = some (s.index v) ∧ d.low v = s.low v ∧ d.onStack v = true := by
  rcases (hs.mem_stack_iff v).1 hv with ⟨i, l, hmark⟩
  have hsays := h.marks v
  rw [Search.index, Search.low, hmark]
  rw [hmark] at hsays
  exact hsays

theorem onStack_iff (h : s.Mirrors d) (hs : s.Shape g) {v : UInt32} (hseen : s.markOf v ≠ .unseen) :
    d.onStack v = true ↔ v ∈ s.stack := by
  constructor
  · intro hon
    have hv := h.marks v
    cases hmark : s.markOf v with
    | unseen =>
        exact absurd hmark hseen
    | active i l =>
        exact (hs.mem_stack_iff v).2 ⟨i, l, hmark⟩
    | settled =>
        rw [hmark] at hv
        rw [hv.2] at hon
        cases hon
  · intro hv
    exact (h.of_active hv hs).2.2

/-- Discovering a vertex is entering it. -/
theorem enter (h : s.Mirrors d) (hg : g.WellFormed) (hs : s.Shape g) {v : UInt32}
    (he : Enters s v s') : s'.Mirrors (d.enter v) where
  marks := by
    intro u
    rw [he.markOf_eq]
    by_cases huv : u = v
    · rw [if_pos huv, huv]
      simp [Mark.Says, Descent.enter, h.next_eq]
    · rw [if_neg huv]
      simpa [Descent.enter, huv] using h.marks u
  stack_eq := by
    rw [he.stack_eq, ← h.stack_eq]
    rfl
  next_eq := by
    rw [he.toNat_next hg hs, ← h.next_eq]
    rfl
  found_eq := h.found_eq.trans he.found_eq.symm

/-- The `low` after passing an edge is what is learnt from the end of the edge. -/
theorem low_passes (h : s.Mirrors d) (hs : s.Shape g) {top : Frame} {rest : List Frame} {w : UInt32}
    (hframes : s.frames = top :: rest) (hseen : s.markOf w ≠ .unseen)
    (hp : Passes s top rest w s') : (d.learn top.vertex w).low top.vertex = s'.low top.vertex := by
  have htop := (h.of_active (hs.top_mem_stack hframes) hs).2.1
  have hcases := hp.low_eq
  rw [Descent.low_learn]
  by_cases hon : w ∈ s.stack
  · have hw := h.of_active hon hs
    have hle := hp.low_le
    have hleTarget := hp.low_le_target hon
    -- the new `low` is one of the two and no larger than either
    rw [if_pos hw.2.2, htop, hw.2.1]
    omega
  · have hoff : ¬ d.onStack w = true := fun hflag => hon ((h.onStack_iff hs hseen).1 hflag)
    rw [if_neg hoff, htop]
    rcases hcases with heq | ⟨hmem, _⟩
    · exact heq.symm
    · exact absurd hmem hon

/-- Passing an edge is learning from its end. -/
theorem learn (h : s.Mirrors d) (hs : s.Shape g) {top : Frame} {rest : List Frame} {w : UInt32}
    (hframes : s.frames = top :: rest) (hseen : s.markOf w ≠ .unseen)
    (hp : Passes s top rest w s') : s'.Mirrors (d.learn top.vertex w) where
  marks := by
    intro u
    rw [Descent.index_learn, Descent.onStack_learn]
    by_cases hu : u = top.vertex
    · have htop := h.of_active (hs.top_mem_stack hframes) hs
      have hlow := h.low_passes hs hframes hseen hp
      rcases hp.active with ⟨i, l, hmark⟩
      rw [← hp.index_eq, Search.index, hmark] at htop
      rw [Search.low, hmark] at hlow
      rw [hu, hmark]
      exact ⟨htop.1, hlow, htop.2.2⟩
    · rw [hp.markOf_eq u hu, Descent.low_learn_of_ne d w hu]
      exact h.marks u
  stack_eq := by
    rw [Descent.stack_learn, hp.stack_eq]
    exact h.stack_eq
  next_eq := by
    rw [Descent.next_learn, hp.next_eq]
    exact h.next_eq
  found_eq := by
    rw [Descent.found_learn, hp.found_eq]
    exact h.found_eq

/-- Closing a component is popping the stack. -/
theorem close (h : s.Mirrors d) (hs : s.Shape g) {top : Frame} {pre post : List UInt32}
    {rest : List Frame} (hc : Closes g s top.vertex pre post rest s') :
    s'.Mirrors (d.popThrough g top.vertex [] d.stack) := by
  have hroot : top.vertex ∉ pre := by
    have hnodup := hs.nodup
    rw [hc.stack_old, List.nodup_append] at hnodup
    intro hmem
    exact hnodup.2.2 _ hmem _ List.mem_cons_self rfl
  rw [h.stack_eq, hc.stack_old, Descent.popThrough_eq g hroot]
  refine ⟨?_, hc.stack_eq.symm, ?_, ?_⟩
  · intro u
    rw [hc.markOf_eq]
    by_cases hu : u ∈ pre ++ [top.vertex]
    · rw [if_pos hu]
      have hindex := (h.of_active (hc.member_stack hu) hs).1
      exact ⟨by simp [hindex], if_pos hu⟩
    · simp only [if_neg hu]
      exact h.marks u
  · rw [hc.next_eq]
    exact h.next_eq
  · rw [hc.found_eq, ← h.found_eq]
    rfl

/-- Dropping the top frame is leaving its vertex, which may close a component. -/
theorem leave (h : s.Mirrors d) (hs : s.Shape g) {top : Frame} {rest : List Frame}
    (hframes : s.frames = top :: rest) (hnone : g.successorAt top.vertex top.place = .ok none)
    (hcase : StepCase g s top rest s') :
    s'.frames = rest ∧ s'.Mirrors (d.leave g top.vertex) := by
  have htop := h.of_active (hs.top_mem_stack hframes) hs
  have hroot : d.index top.vertex = some (d.low top.vertex) ↔ s.low top.vertex = s.index top.vertex := by
    rw [htop.1, htop.2.1, Option.some_inj]
    exact eq_comm
  rcases hcase.of_none hnone with ⟨hne, heq⟩ | ⟨heq, pre, post, hc⟩
  · rw [Descent.leave, if_neg (fun hindex => hne (hroot.1 hindex)), ← heq]
    exact ⟨rfl, h.marks, h.stack_eq, h.next_eq, h.found_eq⟩
  · rw [Descent.leave, if_pos (hroot.2 heq)]
    exact ⟨hc.frames_eq, h.close hs hc⟩

end Mirrors

/-! ## A row and a visit -/

/-- The search runs on from `s` to a state with the frames `frames` that knows what `d` knows. -/
def Arrives (g : Graph) (s : Search) (frames : List Frame) (d : Descent) : Prop :=
  ∃ s' : Search, s.run g = s'.run g ∧ s'.Invariant g ∧ s'.frames = frames ∧ s'.Mirrors d

/-- From the discovery of `v`, the search runs on as the recursion visits `v`. -/
def Visits (g : Graph) (d : Descent) (v : UInt32) (hv : d.index v = none) : Prop :=
  ∀ (s : Search) (rest : List Frame), s.Invariant g → s.frames = ⟨v, 0⟩ :: rest →
    s.Mirrors (d.enter v) → Arrives g s rest (d.visit g v hv).1

theorem Arrives.of_step {s t : Search} {top : Frame} {rest frames : List Frame} {d : Descent}
    (hframes : s.frames = top :: rest) (hstep : s.step g top rest = .ok t)
    (h : Arrives g t frames d) : Arrives g s frames d := by
  rcases h with ⟨s', hrun, h⟩
  exact ⟨s', (run_of_cons hframes hstep).trans hrun, h⟩

/-- The first look at an edge visits its end if that is unvisited, and leaves the frame where it is. -/
theorem arrives_reach {s : Search} {d : Descent} {top : Frame} {rest : List Frame} {w : UInt32}
    (hg : g.WellFormed) (hvisits : ∀ hw, Visits g d w hw) (hi : s.Invariant g)
    (hframes : s.frames = top :: rest)
    (hsucc : g.successorAt top.vertex top.place = .ok (some w)) (hm : s.Mirrors d) :
    Arrives g s s.frames (d.reach g w) := by
  unfold Descent.reach
  by_cases hw : d.index w = none
  · rw [dif_pos hw]
    rcases hi.step hg hframes with ⟨t, hstep, hcase, hit⟩
    rcases hcase.of_some hsucc with he | ⟨hseen, _⟩
    · have hback := hvisits hw t s.frames hit he.frames_eq (hm.enter hg hi.shape he)
      exact hback.of_step hframes hstep
    · exact absurd ((hm.unseen_iff w).2 hw) hseen
  · rw [dif_neg hw]
    exact ⟨s, rfl, hi, rfl, hm⟩

/-- The last look at an edge learns from its end, and moves the frame on. -/
theorem arrives_learn {s : Search} {d : Descent} {top : Frame} {rest : List Frame} {w : UInt32}
    (hg : g.WellFormed) (hi : s.Invariant g) (hframes : s.frames = top :: rest)
    (hsucc : g.successorAt top.vertex top.place = .ok (some w)) (hm : s.Mirrors d)
    (hw : d.index w ≠ none) : Arrives g s (top.advance :: rest) (d.learn top.vertex w) := by
  have hseen : s.markOf w ≠ .unseen := fun hunseen => hw ((hm.unseen_iff w).1 hunseen)
  rcases hi.step hg hframes with ⟨t, hstep, hcase, hit⟩
  rcases hcase.of_some hsucc with he | ⟨_, hp⟩
  · exact absurd he.unseen hseen
  · exact ⟨t, run_of_cons hframes hstep, hit, hp.frames_eq, hm.learn hi.shape hframes hseen hp⟩

theorem Arrives.trans {s : Search} {frames frames' : List Frame} {d d' : Descent}
    (h : Arrives g s frames d)
    (h' : ∀ t : Search, t.Invariant g → t.frames = frames → t.Mirrors d → Arrives g t frames' d') :
    Arrives g s frames' d' := by
  rcases h with ⟨t, hrun, hi, hframes, hm⟩
  rcases h' t hi hframes hm with ⟨s', hrun', h'⟩
  exact ⟨s', hrun.trans hrun', h'⟩

/-- Reading the rest of a row is following the successors that are left. The induction is on those, for
visits that start from no more than `n` unvisited vertices. -/
theorem arrives_follow {n : Nat} (hg : g.WellFormed)
    (hvisits : ∀ (d : Descent) (w : UInt32) (hw : d.index w = none), d.unvisited ≤ n → Visits g d w hw)
    {v : UInt32} (hv : v.toNat < g.numVertices) {rest : List Frame} (ws : List UInt32) {s : Search}
    {d : Descent} {place : Nat} (hn : d.unvisited ≤ n) (hi : s.Invariant g)
    (hframes : s.frames = ⟨v, place⟩ :: rest) (hws : (g.row v).drop place = ws) (hm : s.Mirrors d) :
    ∃ stop, g.successorAt v stop = .ok none ∧
      Arrives g s (⟨v, stop⟩ :: rest) (d.follow g v ws).1 := by
  have hplace : g.successorAt v place = .ok ws.head? := by
    rw [Graph.successorAt_eq (hg.successors_eq_row hv), ← hws, List.head?_drop]
  induction ws generalizing s d place with
  | nil =>
      rw [Descent.follow_nil]
      exact ⟨place, hplace, s, rfl, hi, hframes, hm⟩
  | cons w ws ih =>
      have hdrop : (g.row v).drop (place + 1) = ws := by
        rw [← List.tail_drop, hws]
        rfl
      have hnext : g.successorAt v (place + 1) = .ok ws.head? := by
        rw [Graph.successorAt_eq (hg.successors_eq_row hv), ← hdrop, List.head?_drop]
      have hextends : d.Extends ((d.reach g w).learn v w) :=
        (Descent.extends_reach g d w).trans (Descent.extends_of_index (Descent.index_learn _ v w))
      have hback := arrives_reach hg (fun hw => hvisits d w hw hn) hi hframes hplace hm
      rw [hframes] at hback
      rw [Descent.follow_cons]
      rcases hback.trans fun t hit hft hmt =>
          arrives_learn hg hit hft hplace hmt (Descent.index_reach g d w) with
        ⟨t, hrun, hit, hft, hmt⟩
      rcases ih (hextends.unvisited_le.trans hn) hit hft hdrop hmt hnext with
        ⟨stop, hstop, s', hrun', h'⟩
      exact ⟨stop, hstop, s', hrun.trans hrun', h'⟩

/-- The search visits as the recursion does. -/
theorem visits (hg : g.WellFormed) (d : Descent) (v : UInt32) (hv : d.index v = none) :
    Visits g d v hv := by
  induction hn : d.unvisited using Nat.strongRecOn generalizing d v with
  | ind n ih =>
      intro s rest hi hframes hm
      have hlt := hi.shape.stack_lt (hi.shape.top_mem_stack hframes)
      -- entering lowers the number of unvisited vertices, so the visits inside are known
      have hinner : ∀ (d' : Descent) (w : UInt32) (hw : d'.index w = none),
          d'.unvisited ≤ (d.enter v).unvisited → Visits g d' w hw := by
        intro d' w hw hle
        have hfewer := Descent.unvisited_enter_lt hv
        exact ih d'.unvisited (by omega) d' w hw rfl
      rcases arrives_follow hg hinner hlt (g.row v) (Nat.le_refl _) hi hframes List.drop_zero hm with
        ⟨stop, hstop, hrow⟩
      rw [Descent.visit_eq]
      apply hrow.trans
      intro t hit hft hmt
      rcases hit.step hg hft with ⟨s', hstep, hcase, hi'⟩
      rcases hmt.leave hit.shape hft hstop hcase with ⟨hfs', hm'⟩
      exact ⟨s', run_of_cons hft hstep, hi', hfs', hm'⟩

/-- Searching from a vertex is visiting it unless it has been visited. -/
theorem visit_mirrors {s : Search} {d : Descent} (hg : g.WellFormed) (hi : s.Invariant g)
    (hframes : s.frames = []) (hm : s.Mirrors d) {v : UInt32} (hv : v.toNat < g.numVertices) :
    ∃ s', s.visit g v = .ok s' ∧ s'.Invariant g ∧ s'.frames = [] ∧ s'.Mirrors (d.reach g v) := by
  have hlt : v.toNat < s.marks.size := by
    rw [hi.shape.size_eq]
    exact hv
  have hmark := mark_eq hlt
  unfold Descent.reach
  by_cases hindex : d.index v = none
  · have hunseen := (hm.unseen_iff v).2 hindex
    rw [hunseen] at hmark
    rcases exists_enter hlt hunseen with ⟨t, henter, he⟩
    have hit : t.Invariant g := by
      apply hi.enter hg he
      intro top rest hcons
      rw [hframes] at hcons
      cases hcons
    rcases visits hg d v hindex t s.frames hit he.frames_eq (hm.enter hg hi.shape he) with
      ⟨s', hrun, hi', hframes', hm'⟩
    rw [hframes] at hframes'
    rw [run_of_nil hframes'] at hrun
    rw [dif_pos hindex]
    exact ⟨s', bind_eq_ok.2 ⟨_, hmark, bind_eq_ok.2 ⟨_, henter, hrun⟩⟩, hi', hframes', hm'⟩
  · have hseen : s.markOf v ≠ .unseen := fun hunseen => hindex ((hm.unseen_iff v).1 hunseen)
    rw [dif_neg hindex]
    refine ⟨s, bind_eq_ok.2 ⟨_, hmark, ?_⟩, hi, hframes, hm⟩
    cases hmarkOf : s.markOf v with
    | unseen =>
        exact absurd hmarkOf hseen
    | active index low =>
        rfl
    | settled =>
        rfl

end Search

/-! ## The components of a graph -/

/-- On a well-formed graph both searches find the same. -/
theorem Graph.WellFormed.partition_eq {g : Graph} (hg : g.WellFormed) :
    g.partition = .ok g.partitionByDescent := by
  have hexact : (UInt32.ofNat g.numVertices).toNat = g.numVertices :=
    UInt32.toNat_ofNat_of_lt' hg.size_lt
  have hvertices : (List.range g.numVertices).map UInt32.ofNat = g.vertices := by
    rw [Graph.vertices, hexact]
  have hstart : (Search.start g).Invariant g :=
    ⟨Search.shape_start g, Search.lowlinks_start g, Search.records_start g⟩
  -- after each vertex the search stands where the recursion stands
  have hstep : ∀ before v (s : Search), v ∈ g.vertices →
      s.Invariant g ∧ s.frames = [] ∧ s.Mirrors (before.foldl (Descent.reach g) .start) →
      ∃ s', s.visit g v = .ok s' ∧ s'.Invariant g ∧ s'.frames = [] ∧
        s'.Mirrors ((before ++ [v]).foldl (Descent.reach g) .start) := by
    rintro before v s hv ⟨hi, hframes, hm⟩
    rw [List.foldl_append]
    exact Search.visit_mirrors hg hi hframes hm ((mem_vertices hg.size_lt v).1 hv)
  rcases exists_foldlM (fun before (s : Search) => s.Invariant g ∧ s.frames = [] ∧
      s.Mirrors (before.foldl (Descent.reach g) .start)) ⟨hstart, rfl, Search.mirrors_start g⟩ hstep with
    ⟨s, hfold, _, _, hm⟩
  refine Graph.partition_eq_ok.2 ⟨s, hfold, ?_⟩
  rw [Graph.partitionByDescent, hvertices, hm.found_eq]

/-- The search with frames gives the partition of the recursive search for the graph of any formula: the
same components in the same order, each with its literals in the same order, and the same number for
each literal. -/
theorem partition_eq_partitionByDescent {f : Formula} (hf : f.Built)
    (hsize : f.graph.numVertices < UInt32.size) :
    f.graph.partition = .ok f.graph.partitionByDescent :=
  ((hf.coherent hsize).wellFormed_graph hsize).partition_eq

theorem partitionByDescent_loopWithExit :
    Formula.loopWithExit.Built ∧ Formula.loopWithExit.graph.numVertices < UInt32.size ∧
      Formula.loopWithExit.graph.partition =
        .ok Formula.loopWithExit.graph.partitionByDescent ∧
      Formula.loopWithExit.graph.partitionByDescent.components =
        #[[⟨3, true⟩], [⟨2, true⟩, ⟨1, true⟩], [⟨2, false⟩, ⟨1, false⟩], [⟨3, false⟩]] := by
  have hsize := Formula.numVertices_loopWithExit_lt
  have hsame := partition_eq_partitionByDescent Formula.built_loopWithExit hsize
  exact ⟨Formula.built_loopWithExit, hsize, hsame, (Formula.components_loopWithExit hsame).1⟩

end TwoCnf
