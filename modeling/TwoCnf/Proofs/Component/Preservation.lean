import TwoCnf.Proofs.Component.Transition

/-!
# Preservation — the steps that close nothing keep the invariant

Discovering a vertex, passing an edge and leaving a vertex for the one below keep each of the three parts
of the invariant. None of them changes the records, so `Records.congr` is enough for those.

* `Enters.shape`, `Enters.lowlinks`, `Enters.records` — discovering a vertex;
* `Passes.shape`, `Passes.lowlinks`, `Passes.records` — passing an edge;
* `Shape.leave`, `Lowlinks.leave`, `Records.leave` — leaving a vertex.
-/

namespace TwoCnf
namespace Search

variable {g : Graph} {s s' : Search}

/-- The records depend on what is settled and found, and on nothing else. -/
theorem Records.congr (hs : s.Records g) (hfound : s'.found = s.found)
    (hsettled : ∀ v, s'.markOf v = .settled ↔ s.markOf v = .settled) : s'.Records g where
  tidy := by
    rw [hfound]
    exact hs.tidy
  settled_iff := by
    intro v hv
    rw [hsettled, hfound]
    exact hs.settled_iff v hv
  exists_name := by
    rw [hfound]
    exact hs.exists_name
  same_iff := by
    intro u v hu hv hmark
    rw [hfound]
    exact hs.same_iff u v hu hv ((hsettled u).1 hmark)
  order := by
    rw [hfound]
    exact hs.order

/-! ## Discovering a vertex -/

namespace Enters

variable {v : UInt32}

theorem ne_of_mem (h : Enters s v s') (hs : s.Shape g) {u : UInt32} (hu : u ∈ s.stack) : u ≠ v := by
  intro heq
  rcases (hs.mem_stack_iff u).1 hu with ⟨index, low, hmark⟩
  rw [heq, h.unseen] at hmark
  cases hmark

theorem markOf_old (h : Enters s v s') (hs : s.Shape g) {u : UInt32} (hu : u ∈ s.stack) :
    s'.markOf u = s.markOf u := by
  rw [h.markOf_eq, if_neg (h.ne_of_mem hs hu)]

theorem index_old (h : Enters s v s') (hs : s.Shape g) {u : UInt32} (hu : u ∈ s.stack) :
    s'.index u = s.index u :=
  index_eq_of_markOf (h.markOf_old hs hu)

theorem low_old (h : Enters s v s') (hs : s.Shape g) {u : UInt32} (hu : u ∈ s.stack) :
    s'.low u = s.low u :=
  low_eq_of_markOf (h.markOf_old hs hu)

theorem index_new (h : Enters s v s') : s'.index v = s.next.toNat := by
  rw [index, h.markOf_eq, if_pos rfl]
  rfl

theorem low_new (h : Enters s v s') : s'.low v = s.next.toNat := by
  rw [low, h.markOf_eq, if_pos rfl]
  rfl

theorem index_old_lt (h : Enters s v s') (hs : s.Shape g) {u : UInt32} (hu : u ∈ s.stack) :
    s'.index u < s'.index v := by
  rw [h.index_old hs hu, h.index_new]
  exact hs.index_lt u hu

/-- The next index does not wrap around, since it counts the vertices seen so far. -/
theorem toNat_next (h : Enters s v s') (hg : g.WellFormed) (hs : s.Shape g) :
    s'.next.toNat = s.next.toNat + 1 := by
  have hcount := h.count
  have htotal := hs.count
  have hsize := hs.size_eq
  have hlt := hg.size_lt
  have hsmall : s.next.toNat + 1 < UInt32.size := by omega
  rw [h.next_eq, UInt32.toNat_add]
  exact Nat.mod_eq_of_lt hsmall

theorem shape (h : Enters s v s') (hg : g.WellFormed) (hs : s.Shape g)
    (hawait : ∀ top rest, s.frames = top :: rest →
      g.successorAt top.vertex top.place = .ok (some v)) : s'.Shape g := by
  have hnext := h.toNat_next hg hs
  refine
    { size_eq := h.size_eq.trans hs.size_eq
      count := ?_
      mem_stack_iff := ?_
      index_lt := ?_
      sorted := ?_
      frames_sublist := ?_
      path := ?_
      found_le := ?_ }
  · have hcount := h.count
    have htotal := hs.count
    have hsize := h.size_eq
    omega
  · intro u
    rw [h.stack_eq, h.markOf_eq, List.mem_cons]
    by_cases huv : u = v
    · simp [huv]
    · rw [if_neg huv, ← hs.mem_stack_iff]
      simp [huv]
  · intro u hu
    rw [h.stack_eq] at hu
    rcases List.mem_cons.1 hu with rfl | hold
    · rw [h.index_new]
      omega
    · have hlt := hs.index_lt u hold
      rw [h.index_old hs hold]
      omega
  · rw [h.stack_eq, List.pairwise_cons]
    refine ⟨fun u hu => h.index_old_lt hs hu, ?_⟩
    refine hs.sorted.imp_of_mem ?_
    intro a b ha hb hlt
    rw [h.index_old hs ha, h.index_old hs hb]
    exact hlt
  · rw [h.stack_eq, h.frames_eq, List.map_cons]
    exact hs.frames_sublist.cons_cons v
  · rw [h.frames_eq]
    -- the old top frame looks at the new vertex, so the path goes on
    cases hframes : s.frames with
    | nil =>
        exact List.IsChain.singleton _
    | cons top rest =>
        rw [List.isChain_cons_cons]
        refine ⟨hawait top rest hframes, ?_⟩
        rw [← hframes]
        exact hs.path
  · have hle := hs.found_le
    rw [h.stack_eq, h.found_eq, List.length_cons]
    omega

/-- No edge of a new vertex has been passed. -/
theorem not_examined (h : Enters s v s') (w : UInt32) : ¬ s'.Examined g v w := by
  rintro ⟨place, _, hbefore⟩
  have hmem : (⟨v, 0⟩ : Frame) ∈ s'.frames := by
    rw [h.frames_eq]
    exact List.mem_cons_self
  exact Nat.not_lt_zero place (hbefore ⟨v, 0⟩ hmem rfl)

theorem examined_old (h : Enters s v s') {u w : UInt32} (hex : s'.Examined g u w) :
    s.Examined g u w := by
  refine hex.of_frames ?_
  intro f hf hfu
  refine ⟨f, ?_, hfu, Nat.le_refl _⟩
  rw [h.frames_eq]
  exact List.mem_cons_of_mem _ hf

theorem mem_old (h : Enters s v s') {u : UInt32} (hu : u ∈ s.stack) : u ∈ s'.stack := by
  rw [h.stack_eq]
  exact List.mem_cons_of_mem v hu

theorem mem_new (h : Enters s v s') : v ∈ s'.stack := by
  rw [h.stack_eq]
  exact List.mem_cons_self

theorem frame_old (h : Enters s v s') {f : Frame} (hf : f ∈ s.frames) : f ∈ s'.frames := by
  rw [h.frames_eq]
  exact List.mem_cons_of_mem _ hf

/-- Every frame reaches the new vertex: it reaches the top one, which has an edge to the new one. -/
theorem reaches_new (hg : g.WellFormed) (hs : s.Shape g) (hl : s.Lowlinks g)
    (hawait : ∀ top rest, s.frames = top :: rest →
      g.successorAt top.vertex top.place = .ok (some v)) {f : Frame} (hf : f ∈ s.frames) :
    g.Reaches f.vertex v := by
  cases hframes : s.frames with
  | nil =>
      rw [hframes] at hf
      cases hf
  | cons top rest =>
      have hreach : g.Reaches f.vertex top.vertex :=
        hl.frame_reaches f hf top.vertex (hs.top_mem_stack hframes) (hs.index_le_top hframes hf)
      exact hreach.tail (hs.edge_top hg hframes (hawait top rest hframes))

theorem frame_reaches (h : Enters s v s') (hg : g.WellFormed) (hs : s.Shape g) (hl : s.Lowlinks g)
    (hawait : ∀ top rest, s.frames = top :: rest →
      g.successorAt top.vertex top.place = .ok (some v)) {f : Frame} (hf : f ∈ s'.frames)
    {x : UInt32} (hx : x ∈ s'.stack) (hle : s'.index f.vertex ≤ s'.index x) :
    g.Reaches f.vertex x := by
  rw [h.frames_eq] at hf
  rw [h.stack_eq] at hx
  rcases List.mem_cons.1 hx with rfl | hxold
  · rcases List.mem_cons.1 hf with rfl | hfold
    · exact Relation.ReflTransGen.refl
    · exact reaches_new hg hs hl hawait hfold
  · rcases List.mem_cons.1 hf with rfl | hfold
    · -- the new vertex has the largest index of all
      have hlt := h.index_old_lt hs hxold
      exact absurd hle (Nat.not_le.2 hlt)
    · rw [h.index_old hs (hs.frame_mem_stack hfold), h.index_old hs hxold] at hle
      exact hl.frame_reaches f hfold x hxold hle

/-- Whoever had to report to an old frame is on the path now: if it was awaited, it would be the new
vertex, which was not on the stack. -/
theorem escape (h : Enters s v s') (hs : s.Shape g) (hl : s.Lowlinks g)
    (hawait : ∀ top rest, s.frames = top :: rest →
      g.successorAt top.vertex top.place = .ok (some v)) {f : Frame} (hf : f ∈ s.frames)
    {x : UInt32} (hx : x ∈ s.stack) (hle : s.index f.vertex ≤ s.index x) {w : UInt32}
    (hw : w ∈ s.stack) (hex : s.Examined g x w) :
    ∃ q ∈ s.stack, s.index f.vertex ≤ s.index q ∧ s.low q ≤ s.index w ∧ s.OnPath q := by
  rcases hl.escape f hf x hx hle w hw hex with ⟨q, hq, hfq, hlow, hpath | hawaited⟩
  · exact ⟨q, hq, hfq, hlow, hpath⟩
  · rcases hawaited with ⟨top, rest, hframes, hsucc⟩
    have hv := hawait top rest hframes
    rw [hsucc] at hv
    have heq : q = v := Option.some.inj (Except.ok.inj hv)
    exact absurd heq (h.ne_of_mem hs hq)

theorem lowlinks (h : Enters s v s') (hg : g.WellFormed) (hs : s.Shape g) (hl : s.Lowlinks g)
    (hawait : ∀ top rest, s.frames = top :: rest →
      g.successorAt top.vertex top.place = .ok (some v)) : s'.Lowlinks g := by
  refine
    { low_le := ?_
      low_reaches := ?_
      frame_reaches := fun f hf x hx hle => h.frame_reaches hg hs hl hawait hf hx hle
      reaches_frame := ?_
      seen := ?_
      escape := ?_
      closed := ?_ }
  · intro u hu
    rw [h.stack_eq] at hu
    rcases List.mem_cons.1 hu with rfl | hold
    · rw [h.low_new, h.index_new]
    · rw [h.low_old hs hold, h.index_old hs hold]
      exact hl.low_le u hold
  · intro u hu
    rw [h.stack_eq] at hu
    rcases List.mem_cons.1 hu with rfl | hold
    · exact ⟨u, h.mem_new, by rw [h.low_new, h.index_new], Relation.ReflTransGen.refl⟩
    · rcases hl.low_reaches u hold with ⟨w, hw, hindex, hreach⟩
      refine ⟨w, h.mem_old hw, ?_, hreach⟩
      rw [h.index_old hs hw, h.low_old hs hold]
      exact hindex
  · intro x hx
    rw [h.stack_eq] at hx
    -- the new vertex has a frame of its own
    rcases List.mem_cons.1 hx with rfl | hxold
    · refine ⟨⟨x, 0⟩, ?_, Nat.le_refl _, Relation.ReflTransGen.refl⟩
      rw [h.frames_eq]
      exact List.mem_cons_self
    · rcases hl.reaches_frame x hxold with ⟨f, hf, hle, hreach⟩
      refine ⟨f, h.frame_old hf, ?_, hreach⟩
      rw [h.index_old hs (hs.frame_mem_stack hf), h.index_old hs hxold]
      exact hle
  · intro x hx w hex
    rw [h.stack_eq] at hx
    rcases List.mem_cons.1 hx with rfl | hxold
    · exact absurd hex (h.not_examined w)
    · have hw := hl.seen x hxold w (h.examined_old hex)
      rw [h.markOf_eq]
      by_cases hwv : w = v
      · simp [hwv]
      · rw [if_neg hwv]
        exact hw
  · intro f hf x hx hle w hw hex
    rw [h.frames_eq] at hf
    rw [h.stack_eq] at hx hw
    -- the new vertex is neither end of an examined edge
    rcases List.mem_cons.1 hx with rfl | hxold
    · exact absurd hex (h.not_examined w)
    · have hexold := h.examined_old hex
      have hwold : w ∈ s.stack := by
        rcases List.mem_cons.1 hw with rfl | hwold
        · exact absurd h.unseen (hl.seen x hxold w hexold)
        · exact hwold
      rcases List.mem_cons.1 hf with rfl | hfold
      · have hlt := h.index_old_lt hs hxold
        exact absurd hle (Nat.not_le.2 hlt)
      · rw [h.index_old hs (hs.frame_mem_stack hfold), h.index_old hs hxold] at hle
        rcases h.escape hs hl hawait hfold hxold hle hwold hexold with ⟨q, hq, hfq, hlow, f', hf', hvq⟩
        refine ⟨q, h.mem_old hq, ?_, ?_, Or.inl ⟨f', h.frame_old hf', hvq⟩⟩
        · rw [h.index_old hs (hs.frame_mem_stack hfold), h.index_old hs hq]
          exact hfq
        · rw [h.low_old hs hq, h.index_old hs hwold]
          exact hlow
  · intro x hx w hedge
    rw [h.markOf_eq] at hx
    by_cases hxv : x = v
    · rw [if_pos hxv] at hx
      cases hx
    · rw [if_neg hxv] at hx
      have hw := hl.closed x hx w hedge
      -- closed vertices lead to closed ones, and the new one was not even seen
      have hwv : w ≠ v := by
        intro heq
        rw [heq, h.unseen] at hw
        cases hw
      rw [h.markOf_eq, if_neg hwv]
      exact hw

theorem records (h : Enters s v s') (hr : s.Records g) : s'.Records g := by
  refine hr.congr h.found_eq ?_
  intro u
  rw [h.markOf_eq]
  by_cases huv : u = v
  · subst huv
    simp [h.unseen]
  · rw [if_neg huv]

end Enters

/-! ## Passing an edge -/

namespace Passes

variable {top : Frame} {rest : List Frame} {w : UInt32}

theorem index_all (h : Passes s top rest w s') (u : UInt32) : s'.index u = s.index u := by
  by_cases hu : u = top.vertex
  · rw [hu]
    exact h.index_eq
  · exact index_eq_of_markOf (h.markOf_eq u hu)

theorem low_other (h : Passes s top rest w s') {u : UInt32} (hu : u ≠ top.vertex) :
    s'.low u = s.low u :=
  low_eq_of_markOf (h.markOf_eq u hu)

theorem low_all_le (h : Passes s top rest w s') (u : UInt32) : s'.low u ≤ s.low u := by
  by_cases hu : u = top.vertex
  · rw [hu]
    exact h.low_le
  · exact Nat.le_of_eq (h.low_other hu)

theorem active_iff (h : Passes s top rest w s') (hs : s.Shape g) (hframes : s.frames = top :: rest)
    (u : UInt32) :
    (∃ index low, s'.markOf u = .active index low) ↔ ∃ index low, s.markOf u = .active index low := by
  by_cases hu : u = top.vertex
  · rw [hu]
    exact ⟨fun _ => hs.active_top hframes, fun _ => h.active⟩
  · rw [h.markOf_eq u hu]

theorem settled_iff (h : Passes s top rest w s') (hs : s.Shape g) (hframes : s.frames = top :: rest)
    (u : UInt32) : s'.markOf u = .settled ↔ s.markOf u = .settled := by
  by_cases hu : u = top.vertex
  · rcases h.active with ⟨index, low, hnew⟩
    rcases hs.active_top hframes with ⟨index', low', hold⟩
    rw [hu, hnew, hold]
    simp
  · rw [h.markOf_eq u hu]

theorem map_vertex (h : Passes s top rest w s') (hframes : s.frames = top :: rest) :
    s'.frames.map Frame.vertex = s.frames.map Frame.vertex := by
  rw [h.frames_eq, hframes]
  rfl

theorem onPath_iff (h : Passes s top rest w s') (hframes : s.frames = top :: rest) (u : UInt32) :
    s'.OnPath u ↔ s.OnPath u := by
  have hmem : ∀ t : Search, t.OnPath u ↔ u ∈ t.frames.map Frame.vertex := by
    intro t
    exact List.mem_map.symm
  rw [hmem, hmem, h.map_vertex hframes]

theorem exists_frame (h : Passes s top rest w s') (hframes : s.frames = top :: rest) {f : Frame}
    (hf : f ∈ s'.frames) : ∃ old ∈ s.frames, old.vertex = f.vertex :=
  (h.onPath_iff hframes f.vertex).1 ⟨f, hf, rfl⟩

theorem shape (h : Passes s top rest w s') (hs : s.Shape g) (hframes : s.frames = top :: rest) :
    s'.Shape g := by
  refine
    { size_eq := h.size_eq.trans hs.size_eq
      count := by rw [h.next_eq, h.count, h.size_eq]; exact hs.count
      mem_stack_iff := ?_
      index_lt := ?_
      sorted := ?_
      frames_sublist := by rw [h.map_vertex hframes, h.stack_eq]; exact hs.frames_sublist
      path := ?_
      found_le := by rw [h.found_eq, h.stack_eq, h.next_eq]; exact hs.found_le }
  · intro u
    rw [h.stack_eq, h.active_iff hs hframes]
    exact hs.mem_stack_iff u
  · intro u hu
    rw [h.stack_eq] at hu
    rw [h.index_all, h.next_eq]
    exact hs.index_lt u hu
  · rw [h.stack_eq]
    refine hs.sorted.imp ?_
    intro a b hlt
    rw [h.index_all, h.index_all]
    exact hlt
  · -- only the frame below the top speaks of the top, and it speaks of the vertex alone
    have hpath := hs.path
    rw [hframes] at hpath
    rw [h.frames_eq]
    cases rest with
    | nil =>
        exact List.IsChain.singleton _
    | cons below rest =>
        rw [List.isChain_cons_cons] at hpath ⊢
        exact hpath

/-- The only edge that is newly examined is the one that has been passed. -/
theorem examined_cases (h : Passes s top rest w s') (hframes : s.frames = top :: rest)
    (hsucc : g.successorAt top.vertex top.place = .ok (some w)) {u x : UInt32}
    (hex : s'.Examined g u x) : s.Examined g u x ∨ (u = top.vertex ∧ x = w) := by
  rcases hex with ⟨place, hplace, hbefore⟩
  rw [h.frames_eq] at hbefore
  by_cases hnew : u = top.vertex ∧ place = top.place
  · rcases hnew with ⟨rfl, rfl⟩
    rw [hsucc] at hplace
    exact Or.inr ⟨rfl, (Option.some.inj (Except.ok.inj hplace)).symm⟩
  · refine Or.inl ⟨place, hplace, ?_⟩
    intro f hf hfu
    rw [hframes] at hf
    rcases List.mem_cons.1 hf with rfl | hrest
    · have hlt : place < f.place + 1 := hbefore f.advance List.mem_cons_self hfu
      have hne : place ≠ f.place := by
        intro heq
        exact hnew ⟨hfu.symm, heq⟩
      omega
    · exact hbefore f (List.mem_cons_of_mem _ hrest) hfu

theorem low_reaches (h : Passes s top rest w s') (hl : s.Lowlinks g) (hedge : g.Edge top.vertex w)
    {u : UInt32} (hu : u ∈ s.stack) :
    ∃ x ∈ s.stack, s.index x = s'.low u ∧ g.Reaches u x := by
  by_cases htop : u = top.vertex
  · subst htop
    rcases h.low_eq with hsame | ⟨hw, hlow⟩
    · rw [hsame]
      exact hl.low_reaches top.vertex hu
    · -- what the target reaches, the top vertex reaches through the passed edge
      rcases hl.low_reaches w hw with ⟨x, hx, hindex, hreach⟩
      exact ⟨x, hx, hindex.trans hlow.symm, hreach.head hedge⟩
  · rw [h.low_other htop]
    exact hl.low_reaches u hu

/-- The top vertex takes over what its successor had to report. -/
theorem escape (h : Passes s top rest w s') (hs : s.Shape g) (hl : s.Lowlinks g)
    (hframes : s.frames = top :: rest)
    (hsucc : g.successorAt top.vertex top.place = .ok (some w)) {f : Frame} (hf : f ∈ s.frames)
    {x : UInt32} (hx : x ∈ s.stack) (hle : s.index f.vertex ≤ s.index x) {y : UInt32}
    (hy : y ∈ s.stack) (hex : s'.Examined g x y) :
    ∃ q ∈ s.stack, s.index f.vertex ≤ s.index q ∧ s'.low q ≤ s.index y ∧ s.OnPath q := by
  have htop : top ∈ s.frames := top_mem hframes
  have hmem : top.vertex ∈ s.stack := hs.top_mem_stack hframes
  have hreport : w ∈ s.stack → s.low w ≤ s.index y →
      ∃ q ∈ s.stack, s.index f.vertex ≤ s.index q ∧ s'.low q ≤ s.index y ∧ s.OnPath q := by
    intro hw hlow
    have hlow' := h.low_le_target hw
    exact ⟨top.vertex, hmem, hs.index_le_top hframes hf, by omega, top, htop, rfl⟩
  -- an edge passed earlier had somebody to report it; the one just passed is reported by the top
  rcases h.examined_cases hframes hsucc hex with hold | ⟨_, rfl⟩
  · rcases hl.escape f hf x hx hle y hy hold with ⟨q, hq, hfq, hlow, hpath | hawaited⟩
    · have hlow' := h.low_all_le q
      exact ⟨q, hq, hfq, by omega, hpath⟩
    · rcases hawaited with ⟨top', rest', hframes', hsucc'⟩
      -- the awaited vertex is the target of the edge that has been passed
      rw [hframes] at hframes'
      cases hframes'
      rw [hsucc] at hsucc'
      cases hsucc'
      exact hreport hq hlow
  · exact hreport hy (hl.low_le y hy)

theorem lowlinks (h : Passes s top rest w s') (hg : g.WellFormed) (hs : s.Shape g)
    (hl : s.Lowlinks g) (hframes : s.frames = top :: rest)
    (hsucc : g.successorAt top.vertex top.place = .ok (some w)) (hw : s.markOf w ≠ .unseen) :
    s'.Lowlinks g := by
  have hedge : g.Edge top.vertex w := hs.edge_top hg hframes hsucc
  refine
    { low_le := ?_
      low_reaches := ?_
      frame_reaches := ?_
      reaches_frame := ?_
      seen := ?_
      escape := ?_
      closed := ?_ }
  · intro u hu
    rw [h.stack_eq] at hu
    rw [h.index_all]
    exact Nat.le_trans (h.low_all_le u) (hl.low_le u hu)
  · intro u hu
    rw [h.stack_eq] at hu ⊢
    simp only [h.index_all]
    exact h.low_reaches hl hedge hu
  · intro f hf x hx hle
    rcases h.exists_frame hframes hf with ⟨old, hold, hvertex⟩
    rw [h.stack_eq] at hx
    rw [h.index_all, h.index_all, ← hvertex] at hle
    rw [← hvertex]
    exact hl.frame_reaches old hold x hx hle
  · intro x hx
    rw [h.stack_eq] at hx
    rcases hl.reaches_frame x hx with ⟨f, hf, hle, hreach⟩
    rcases (h.onPath_iff hframes f.vertex).2 ⟨f, hf, rfl⟩ with ⟨new, hnew, hvertex⟩
    refine ⟨new, hnew, ?_, ?_⟩
    · rw [h.index_all, h.index_all, hvertex]
      exact hle
    · rw [hvertex]
      exact hreach
  · intro x hx y hex
    rw [h.stack_eq] at hx
    have hy : s.markOf y ≠ .unseen := by
      rcases h.examined_cases hframes hsucc hex with hold | ⟨_, rfl⟩
      · exact hl.seen x hx y hold
      · exact hw
    by_cases htop : y = top.vertex
    · rcases h.active with ⟨index, low, hactive⟩
      rw [htop, hactive]
      simp
    · rw [h.markOf_eq y htop]
      exact hy
  · intro f hf x hx hle y hy hex
    rcases h.exists_frame hframes hf with ⟨old, hold, hvertex⟩
    rw [h.stack_eq] at hx hy
    rw [h.index_all, h.index_all, ← hvertex] at hle
    rcases h.escape hs hl hframes hsucc hold hx hle hy hex with ⟨q, hq, hfq, hlow, hpath⟩
    refine ⟨q, ?_, ?_, ?_, Or.inl ((h.onPath_iff hframes q).2 hpath)⟩
    · rw [h.stack_eq]
      exact hq
    · rw [h.index_all, h.index_all, ← hvertex]
      exact hfq
    · rw [h.index_all]
      exact hlow
  · intro x hx y hxy
    rw [h.settled_iff hs hframes] at hx ⊢
    exact hl.closed x hx y hxy

theorem records (h : Passes s top rest w s') (hs : s.Shape g) (hr : s.Records g)
    (hframes : s.frames = top :: rest) : s'.Records g :=
  hr.congr h.found_eq (h.settled_iff hs hframes)

end Passes

/-! ## Leaving a vertex -/

section Leaving

variable {top : Frame} {rest : List Frame}

/-- Past the end of a row there are no further edges. -/
theorem lt_place_of_none (hg : g.WellFormed) {v w : UInt32} {stop place : Nat}
    (hv : v.toNat < g.numVertices) (hnone : g.successorAt v stop = .ok none)
    (hsome : g.successorAt v place = .ok (some w)) : place < stop := by
  rcases hg.successors_ok v hv with ⟨ws, hws⟩
  rw [Graph.successorAt_eq hws] at hnone hsome
  have hlen := List.getElem?_eq_none_iff.1 (Except.ok.inj hnone)
  have hlt := (List.getElem?_eq_some_iff.1 (Except.ok.inj hsome)).1
  omega

/-- All edges of a vertex have been examined once its row is read. -/
theorem examined_of_edge (hg : g.WellFormed) (hs : s.Shape g) (hframes : s.frames = top :: rest)
    (hnone : g.successorAt top.vertex top.place = .ok none) {x w : UInt32} (hx : x ∈ s.stack)
    (hle : s.index top.vertex ≤ s.index x) (hedge : g.Edge x w) : s.Examined g x w := by
  have hlt := hs.stack_lt hx
  rcases (hg.edge_iff hlt).1 hedge with ⟨place, hplace⟩
  refine ⟨place, hplace, ?_⟩
  intro f hf hfx
  -- no other frame reads the row of a vertex with so large an index
  have htop : f = top := by
    rw [hframes] at hf
    rcases List.mem_cons.1 hf with rfl | hrest
    · rfl
    · have hsmall := hs.index_lt_top hframes hrest
      rw [hfx] at hsmall
      omega
  subst htop
  rw [← hfx] at hplace hlt
  exact lt_place_of_none hg hlt hnone hplace

/-- A frame at the end of its row looks at no edge. -/
theorem not_awaited (hframes : s.frames = top :: rest)
    (hnone : g.successorAt top.vertex top.place = .ok none) (q : UInt32) : ¬ s.Awaited g q := by
  rintro ⟨top', rest', hframes', hsucc⟩
  rw [hframes] at hframes'
  cases hframes'
  rw [hnone] at hsucc
  cases hsucc

theorem Shape.leave (hs : s.Shape g) (hframes : s.frames = top :: rest) :
    (s.withFrames rest).Shape g where
  size_eq := hs.size_eq
  count := hs.count
  mem_stack_iff := hs.mem_stack_iff
  index_lt := hs.index_lt
  sorted := hs.sorted
  frames_sublist := by
    have hsub := hs.frames_sublist
    rw [hframes, List.map_cons] at hsub
    exact (List.sublist_cons_self _ _).trans hsub
  path := by
    have hpath := hs.path
    rw [hframes] at hpath
    exact hpath.tail
  found_le := hs.found_le

/-- If the top vertex reaches below itself, so does whatever relied on it to reach a frame. -/
theorem reaches_frame_of_low_lt (hs : s.Shape g) (hl : s.Lowlinks g)
    (hframes : s.frames = top :: rest) (hlow : s.low top.vertex < s.index top.vertex)
    {x : UInt32} (hx : x ∈ s.stack) :
    ∃ f ∈ rest, s.index f.vertex ≤ s.index x ∧ g.Reaches x f.vertex := by
  rcases hl.reaches_frame x hx with ⟨f, hf, hle, hreach⟩
  rw [hframes] at hf
  rcases List.mem_cons.1 hf with rfl | hrest
  · rcases hl.low_reaches f.vertex (hs.top_mem_stack hframes) with ⟨w, hw, hindex, hfw⟩
    rcases hl.reaches_frame w hw with ⟨f', hf', hle', hwf'⟩
    -- the frame found from below has a smaller index than the top one
    have hne : f' ∈ rest := by
      rw [hframes] at hf'
      rcases List.mem_cons.1 hf' with rfl | hrest
      · omega
      · exact hrest
    exact ⟨f', hne, by omega, (hreach.trans hfw).trans hwf'⟩
  · exact ⟨f, hrest, hle, hreach⟩

theorem Lowlinks.leave (hl : s.Lowlinks g) (hg : g.WellFormed) (hs : s.Shape g)
    (hframes : s.frames = top :: rest) (hnone : g.successorAt top.vertex top.place = .ok none)
    (hlow : s.low top.vertex < s.index top.vertex) : (s.withFrames rest).Lowlinks g := by
  -- dropping the top frame examines no edge anew, since its row has been read to the end
  have hexamined : ∀ {x w}, x ∈ s.stack → (s.withFrames rest).Examined g x w →
      s.Examined g x w := by
    intro x w hx hex
    by_cases htop : x = top.vertex
    · exact examined_of_edge hg hs hframes hnone hx (by rw [htop])
        (hex.edge hg (hs.stack_lt hx))
    · refine hex.of_frames ?_
      intro f hf hfx
      rw [hframes] at hf
      rcases List.mem_cons.1 hf with rfl | hrest
      · exact absurd hfx.symm htop
      · exact ⟨f, hrest, hfx, Nat.le_refl _⟩
  refine
    { low_le := hl.low_le
      low_reaches := hl.low_reaches
      frame_reaches := fun f hf => hl.frame_reaches f (mem_of_mem_rest hframes hf)
      reaches_frame := fun x hx => reaches_frame_of_low_lt hs hl hframes hlow hx
      seen := fun x hx w hex => hl.seen x hx w (hexamined hx hex)
      escape := ?_
      closed := hl.closed }
  intro f hf x hx hle w hw hex
  rcases hl.escape f (mem_of_mem_rest hframes hf) x hx hle w hw (hexamined hx hex) with ⟨q, hq, hfq, hlq, hpending⟩
  refine ⟨q, hq, hfq, hlq, ?_⟩
  rcases hpending with ⟨f', hf', rfl⟩ | hawaited
  · rw [hframes] at hf'
    rcases List.mem_cons.1 hf' with rfl | hrest
    · -- the vertex that is left is the one that the frame below looks at
      have hpath := hs.path
      rw [hframes] at hpath
      cases hbelow : rest with
      | nil =>
          have hf' : f ∈ rest := hf
          rw [hbelow] at hf'
          cases hf'
      | cons below others =>
          rw [hbelow, List.isChain_cons_cons] at hpath
          exact Or.inr ⟨below, others, rfl, hpath.1⟩
    · exact Or.inl ⟨f', hrest, rfl⟩
  · exact absurd hawaited (not_awaited hframes hnone q)

theorem Records.leave (hr : s.Records g) : (s.withFrames rest).Records g :=
  hr.congr rfl (fun _ => Iff.rfl)

end Leaving

end Search
end TwoCnf
