import TwoCnf.Proofs.Component.Preservation

/-!
# Closing — the vertices from a root upwards are a component

When the row of a vertex is read to its end and its `low` is its own index, the vertices from it upwards
are taken off the stack and become a component.

* `Closes.edge_closed`, `Closes.reaches_closed` — no edge and no path leads from them to an open vertex;
* `Closes.mutual_root` — they reach each other through the root;
* `Closes.shape`, `Closes.lowlinks`, `Closes.records` — closing keeps the three parts of the invariant.
-/

namespace TwoCnf
namespace Search

variable {g : Graph} {s s' : Search}

/-! ## The stack below the root -/

theorem sublist_of_cons_sublist_append {root : UInt32} {xs pre post : List UInt32}
    (hroot : root ∉ pre) (h : (root :: xs).Sublist (pre ++ root :: post)) : xs.Sublist post := by
  induction pre with
  | nil =>
      exact List.cons_sublist_cons.1 h
  | cons u pre ih =>
      have hne : root ≠ u := by
        intro heq
        exact hroot (heq ▸ List.mem_cons_self)
      have hpre : root ∉ pre := by
        intro hmem
        exact hroot (List.mem_cons_of_mem u hmem)
      cases h with
      | cons _ htail =>
          exact ih hpre htail
      | cons_cons =>
          exact absurd rfl hne

namespace Closes

variable {top : Frame} {rest : List Frame} {pre post : List UInt32}

theorem mem_stack_iff (h : Closes g s top.vertex pre post rest s') (u : UInt32) :
    u ∈ s.stack ↔ u ∈ pre ++ [top.vertex] ∨ u ∈ post := by
  rw [h.stack_old, List.append_cons, List.mem_append]

/-- The members are the vertices of the stack from the root upwards. -/
theorem mem_iff (h : Closes g s top.vertex pre post rest s') (hs : s.Shape g) {u : UInt32}
    (hu : u ∈ s.stack) : u ∈ pre ++ [top.vertex] ↔ s.index top.vertex ≤ s.index u := by
  have hsorted := hs.sorted
  rw [h.stack_old, List.pairwise_append, List.pairwise_cons] at hsorted
  rcases hsorted with ⟨_, ⟨hpost, _⟩, hpre⟩
  constructor
  · intro hmem
    rcases List.mem_append.1 hmem with hin | hlast
    · exact Nat.le_of_lt (hpre u hin top.vertex List.mem_cons_self)
    · rw [List.mem_singleton.1 hlast]
  · intro hle
    rcases (h.mem_stack_iff u).1 hu with hmem | hin
    · exact hmem
    · have hlt := hpost u hin
      omega

theorem index_lt (h : Closes g s top.vertex pre post rest s') (hs : s.Shape g) {u : UInt32}
    (hu : u ∈ post) : s.index u < s.index top.vertex := by
  have hsorted := hs.sorted
  rw [h.stack_old, List.pairwise_append, List.pairwise_cons] at hsorted
  exact hsorted.2.1.1 u hu

theorem mem_post (h : Closes g s top.vertex pre post rest s') (hs : s.Shape g) {u : UInt32}
    (hu : u ∈ s.stack) (hlt : s.index u < s.index top.vertex) : u ∈ post := by
  rcases (h.mem_stack_iff u).1 hu with hmem | hpost
  · have hle := (h.mem_iff hs hu).1 hmem
    omega
  · exact hpost

theorem post_subset (h : Closes g s top.vertex pre post rest s') {u : UInt32} (hu : u ∈ post) :
    u ∈ s.stack :=
  (h.mem_stack_iff u).2 (Or.inr hu)

theorem markOf_post (h : Closes g s top.vertex pre post rest s') (hs : s.Shape g) {u : UInt32}
    (hu : u ∈ post) : s'.markOf u = s.markOf u := by
  have hnot : u ∉ pre ++ [top.vertex] := by
    intro hmem
    have hle := (h.mem_iff hs (h.post_subset hu)).1 hmem
    have hlt := h.index_lt hs hu
    omega
  rw [h.markOf_eq, if_neg hnot]

theorem index_post (h : Closes g s top.vertex pre post rest s') (hs : s.Shape g) {u : UInt32}
    (hu : u ∈ post) : s'.index u = s.index u :=
  index_eq_of_markOf (h.markOf_post hs hu)

theorem low_post (h : Closes g s top.vertex pre post rest s') (hs : s.Shape g) {u : UInt32}
    (hu : u ∈ post) : s'.low u = s.low u :=
  low_eq_of_markOf (h.markOf_post hs hu)

theorem frame_mem_post (h : Closes g s top.vertex pre post rest s') (hs : s.Shape g)
    (hframes : s.frames = top :: rest) {f : Frame} (hf : f ∈ rest) : f.vertex ∈ post := by
  have hmem : f ∈ s.frames := mem_of_mem_rest hframes hf
  exact h.mem_post hs (hs.frame_mem_stack hmem) (hs.index_lt_top hframes hf)

theorem not_unseen (h : Closes g s top.vertex pre post rest s') {u : UInt32}
    (hu : s.markOf u ≠ .unseen) : s'.markOf u ≠ .unseen := by
  rw [h.markOf_eq]
  split
  · simp
  · exact hu

theorem shape (h : Closes g s top.vertex pre post rest s') (hs : s.Shape g)
    (hframes : s.frames = top :: rest) : s'.Shape g := by
  have hlength : s.stack.length = pre.length + (post.length + 1) := by
    rw [h.stack_old, List.length_append, List.length_cons]
  refine
    { size_eq := h.size_eq.trans hs.size_eq
      count := by rw [h.next_eq, h.count, h.size_eq]; exact hs.count
      mem_stack_iff := ?_
      index_lt := ?_
      sorted := ?_
      frames_sublist := ?_
      path := ?_
      found_le := ?_ }
  · intro u
    rw [h.stack_eq, h.markOf_eq]
    constructor
    · intro hu
      have hmark := h.markOf_post hs hu
      rw [h.markOf_eq] at hmark
      rw [hmark]
      exact (hs.mem_stack_iff u).1 (h.post_subset hu)
    · rintro ⟨index, low, hactive⟩
      split at hactive
      · cases hactive
      · rename_i hnot
        have hu := (hs.mem_stack_iff u).2 ⟨index, low, hactive⟩
        exact ((h.mem_stack_iff u).1 hu).resolve_left hnot
  · intro u hu
    rw [h.stack_eq] at hu
    rw [h.index_post hs hu, h.next_eq]
    exact hs.index_lt u (h.post_subset hu)
  · have hsorted := hs.sorted
    rw [h.stack_old, List.pairwise_append, List.pairwise_cons] at hsorted
    rw [h.stack_eq]
    refine hsorted.2.1.2.imp_of_mem ?_
    intro a b ha hb hlt
    rw [h.index_post hs ha, h.index_post hs hb]
    exact hlt
  · -- the other frames lie below the root, where nothing has been popped
    have hsub := hs.frames_sublist
    rw [hframes, h.stack_old, List.map_cons] at hsub
    rw [h.frames_eq, h.stack_eq]
    have hroot : top.vertex ∉ pre := by
      have hnodup := hs.nodup
      rw [h.stack_old, List.nodup_append] at hnodup
      intro hmem
      exact hnodup.2.2 top.vertex hmem top.vertex List.mem_cons_self rfl
    exact sublist_of_cons_sublist_append hroot hsub
  · have hpath := hs.path
    rw [hframes] at hpath
    rw [h.frames_eq]
    exact hpath.tail
  · have hle := hs.found_le
    rw [h.found_eq, h.stack_eq, h.next_eq, Partition.size_push]
    omega

theorem settled_iff (h : Closes g s top.vertex pre post rest s') (u : UInt32) :
    s'.markOf u = .settled ↔ u ∈ pre ++ [top.vertex] ∨ s.markOf u = .settled := by
  rw [h.markOf_eq]
  by_cases hu : u ∈ pre ++ [top.vertex]
  · rw [if_pos hu]
    exact ⟨fun _ => Or.inl hu, fun _ => rfl⟩
  · rw [if_neg hu]
    exact ⟨Or.inr, fun hor => hor.resolve_left hu⟩

/-! ## The component -/

/-- No edge leads from the component to a vertex that is still open. An edge to the stack below the root
would have been noticed: nobody on the path but the root itself is left to report it. -/
theorem edge_closed (h : Closes g s top.vertex pre post rest s') (hg : g.WellFormed)
    (hs : s.Shape g) (hl : s.Lowlinks g) (hframes : s.frames = top :: rest)
    (hnone : g.successorAt top.vertex top.place = .ok none)
    (hroot : s.low top.vertex = s.index top.vertex) {x w : UInt32}
    (hx : x ∈ pre ++ [top.vertex]) (hedge : g.Edge x w) :
    w ∈ pre ++ [top.vertex] ∨ s.markOf w = .settled := by
  have htop : top ∈ s.frames := top_mem hframes
  have hxstack : x ∈ s.stack := (h.mem_stack_iff x).2 (Or.inl hx)
  have hxle := (h.mem_iff hs hxstack).1 hx
  -- every edge of the component has been examined, so its target has been seen
  have hex := examined_of_edge hg hs hframes hnone hxstack hxle hedge
  cases hw : s.markOf w with
  | unseen =>
      exact absurd hw (hl.seen x hxstack w hex)
  | settled =>
      exact Or.inr rfl
  | active index low =>
      have hwstack : w ∈ s.stack := (hs.mem_stack_iff w).2 ⟨index, low, hw⟩
      rcases hl.escape top htop x hxstack hxle w hwstack hex with ⟨q, _, hle, hlow, hpending⟩
      -- whoever has to report the edge is the root, whose `low` is its own index
      have hq : q = top.vertex := by
        rcases hpending with hpath | hawaited
        · exact hs.eq_top_of_onPath hframes hpath hle
        · exact absurd hawaited (not_awaited hframes hnone q)
      subst hq
      exact Or.inl ((h.mem_iff hs hwstack).2 (by omega))

theorem examined_old (h : Closes g s top.vertex pre post rest s') (hs : s.Shape g)
    (hframes : s.frames = top :: rest) {x w : UInt32} (hx : x ∈ post)
    (hex : s'.Examined g x w) : s.Examined g x w := by
  refine hex.of_frames ?_
  intro f hf hfx
  rw [hframes] at hf
  rcases List.mem_cons.1 hf with rfl | hrest
  · have hlt := h.index_lt hs hx
    rw [hfx] at hlt
    exact absurd hlt (Nat.lt_irrefl _)
  · refine ⟨f, ?_, hfx, Nat.le_refl _⟩
    rw [h.frames_eq]
    exact hrest

theorem escape (h : Closes g s top.vertex pre post rest s') (hs : s.Shape g) (hl : s.Lowlinks g)
    (hframes : s.frames = top :: rest) (hnone : g.successorAt top.vertex top.place = .ok none)
    (hroot : s.low top.vertex = s.index top.vertex) {f : Frame} (hf : f ∈ rest) {x : UInt32}
    (hx : x ∈ post) (hle : s.index f.vertex ≤ s.index x) {w : UInt32} (hw : w ∈ post)
    (hex : s.Examined g x w) :
    ∃ q ∈ post, s.index f.vertex ≤ s.index q ∧ s.low q ≤ s.index w ∧ ∃ f ∈ rest, f.vertex = q := by
  have hmem : f ∈ s.frames := mem_of_mem_rest hframes hf
  rcases hl.escape f hmem x (h.post_subset hx) hle w (h.post_subset hw) hex with
    ⟨q, hq, hfq, hlow, hpending⟩
  rcases hpending with ⟨f', hf', rfl⟩ | hawaited
  · rw [hframes] at hf'
    rcases List.mem_cons.1 hf' with rfl | hrest
    · -- the root carries no `low` below its own index
      have hlt := h.index_lt hs hw
      omega
    · exact ⟨f'.vertex, h.frame_mem_post hs hframes hrest, hfq, hlow, f', hrest, rfl⟩
  · exact absurd hawaited (not_awaited hframes hnone q)

theorem lowlinks (h : Closes g s top.vertex pre post rest s') (hg : g.WellFormed)
    (hs : s.Shape g) (hl : s.Lowlinks g) (hframes : s.frames = top :: rest)
    (hnone : g.successorAt top.vertex top.place = .ok none)
    (hroot : s.low top.vertex = s.index top.vertex) : s'.Lowlinks g := by
  refine
    { low_le := ?_
      low_reaches := ?_
      frame_reaches := ?_
      reaches_frame := ?_
      seen := ?_
      escape := ?_
      closed := ?_ }
  · intro u hu
    rw [h.stack_eq] at hu
    rw [h.low_post hs hu, h.index_post hs hu]
    exact hl.low_le u (h.post_subset hu)
  · intro u hu
    rw [h.stack_eq] at hu ⊢
    rcases hl.low_reaches u (h.post_subset hu) with ⟨w, hw, hindex, hreach⟩
    have hle := hl.low_le u (h.post_subset hu)
    have hlt := h.index_lt hs hu
    -- what a vertex below the root has learnt of is below the root as well
    have hwpost : w ∈ post := h.mem_post hs hw (by omega)
    refine ⟨w, hwpost, ?_, hreach⟩
    rw [h.index_post hs hwpost, h.low_post hs hu]
    exact hindex
  · intro f hf x hx hle
    rw [h.frames_eq] at hf
    rw [h.stack_eq] at hx
    rw [h.index_post hs (h.frame_mem_post hs hframes hf), h.index_post hs hx] at hle
    exact hl.frame_reaches f (mem_of_mem_rest hframes hf) x (h.post_subset hx) hle
  · intro x hx
    rw [h.stack_eq] at hx
    rw [h.frames_eq]
    rcases hl.reaches_frame x (h.post_subset hx) with ⟨f, hf, hle, hreach⟩
    have hlt := h.index_lt hs hx
    have hrest : f ∈ rest := by
      rw [hframes] at hf
      rcases List.mem_cons.1 hf with rfl | hrest
      · omega
      · exact hrest
    refine ⟨f, hrest, ?_, hreach⟩
    rw [h.index_post hs (h.frame_mem_post hs hframes hrest), h.index_post hs hx]
    exact hle
  · intro x hx w hex
    rw [h.stack_eq] at hx
    exact h.not_unseen (hl.seen x (h.post_subset hx) w (h.examined_old hs hframes hx hex))
  · intro f hf x hx hle w hw hex
    rw [h.frames_eq] at hf
    rw [h.stack_eq] at hx hw ⊢
    rw [h.index_post hs (h.frame_mem_post hs hframes hf), h.index_post hs hx] at hle
    rcases h.escape hs hl hframes hnone hroot hf hx hle hw (h.examined_old hs hframes hx hex) with
      ⟨q, hq, hfq, hlow, f', hf', hvertex⟩
    refine ⟨q, hq, ?_, ?_, Or.inl ⟨f', ?_, hvertex⟩⟩
    · rw [h.index_post hs (h.frame_mem_post hs hframes hf), h.index_post hs hq]
      exact hfq
    · rw [h.low_post hs hq, h.index_post hs hw]
      exact hlow
    · rw [h.frames_eq]
      exact hf'
  · intro x hx w hedge
    rw [h.settled_iff] at hx ⊢
    rcases hx with hx | hx
    · exact h.edge_closed hg hs hl hframes hnone hroot hx hedge
    · exact Or.inr (hl.closed x hx w hedge)

theorem member_stack (h : Closes g s top.vertex pre post rest s') {u : UInt32}
    (hu : u ∈ pre ++ [top.vertex]) : u ∈ s.stack :=
  (h.mem_stack_iff u).2 (Or.inl hu)

/-- The root reaches every member of its component, and every member reaches the root. -/
theorem mutual_root (h : Closes g s top.vertex pre post rest s') (hs : s.Shape g)
    (hl : s.Lowlinks g) (hframes : s.frames = top :: rest) {x : UInt32}
    (hx : x ∈ pre ++ [top.vertex]) : g.Reaches top.vertex x ∧ g.Reaches x top.vertex := by
  have htop : top ∈ s.frames := top_mem hframes
  have hxstack := h.member_stack hx
  refine ⟨hl.frame_reaches top htop x hxstack ((h.mem_iff hs hxstack).1 hx), ?_⟩
  rcases hl.reaches_frame x hxstack with ⟨f, hf, _, hreach⟩
  have hft := hl.frame_reaches f hf top.vertex (hs.top_mem_stack hframes)
    (hs.index_le_top hframes hf)
  exact hreach.trans hft

/-- Paths from the component stay in it or lead to closed components. -/
theorem reaches_closed (h : Closes g s top.vertex pre post rest s') (hg : g.WellFormed)
    (hs : s.Shape g) (hl : s.Lowlinks g) (hframes : s.frames = top :: rest)
    (hnone : g.successorAt top.vertex top.place = .ok none)
    (hroot : s.low top.vertex = s.index top.vertex) {x w : UInt32}
    (hx : x ∈ pre ++ [top.vertex]) (hreach : g.Reaches x w) :
    w ∈ pre ++ [top.vertex] ∨ s.markOf w = .settled := by
  induction hreach with
  | refl =>
      exact Or.inl hx
  | @tail u w _ hedge ih =>
      rcases ih with hu | hu
      · exact h.edge_closed hg hs hl hframes hnone hroot hu hedge
      · exact Or.inr (hl.closed u hu w hedge)

theorem found_size_lt (h : Closes g s top.vertex pre post rest s') (hg : g.WellFormed)
    (hs : s.Shape g) : s.found.size < UInt32.size := by
  have hle := hs.found_le
  have hcount := hs.count
  have hsize := hs.size_eq
  have hlt := hg.size_lt
  have hlength : s.stack.length = pre.length + (post.length + 1) := by
    rw [h.stack_old, List.length_append, List.length_cons]
  omega

theorem mem_names (h : Closes g s top.vertex pre post rest s') (hg : g.WellFormed) (hs : s.Shape g)
    {u : UInt32} (hu : u.toNat < g.numVertices) :
    g.name u ∈ (pre ++ [top.vertex]).map g.name ↔ u ∈ pre ++ [top.vertex] := by
  constructor
  · intro hmem
    rcases List.mem_map.1 hmem with ⟨v, hv, hname⟩
    have heq := hg.name_injective (hs.stack_lt (h.member_stack hv)) hu hname
    exact heq ▸ hv
  · intro hmem
    exact List.mem_map.2 ⟨u, hmem, rfl⟩

/-- The members get the next number, all other vertices keep theirs. -/
theorem componentOf?_name (h : Closes g s top.vertex pre post rest s') (hg : g.WellFormed)
    (hs : s.Shape g) {u : UInt32} (hu : u.toNat < g.numVertices) :
    s'.found.componentOf? (g.name u) =
      if u ∈ pre ++ [top.vertex] then some s.found.size else s.found.componentOf? (g.name u) := by
  rw [h.found_eq, Partition.componentOf?_push _ _ _ (h.found_size_lt hg hs)]
  simp only [h.mem_names hg hs hu]

theorem member_active (h : Closes g s top.vertex pre post rest s') (hs : s.Shape g) {u : UInt32}
    (hu : u ∈ pre ++ [top.vertex]) : s.markOf u ≠ .settled := by
  rcases (hs.mem_stack_iff u).1 (h.member_stack hu) with ⟨index, low, hmark⟩
  rw [hmark]
  simp

theorem tidy (h : Closes g s top.vertex pre post rest s') (hg : g.WellFormed) (hs : s.Shape g)
    (hr : s.Records g) : s'.found.Tidy := by
  rw [h.found_eq]
  refine hr.tidy.push (h.found_size_lt hg hs) (by simp) ?_ ?_
  · have hnodup := hs.nodup
    rw [h.stack_old, List.append_cons, List.nodup_append] at hnodup
    refine hnodup.1.map_on ?_
    intro u hu v hv hname
    exact hg.name_injective (hs.stack_lt (h.member_stack hu)) (hs.stack_lt (h.member_stack hv)) hname
  · intro l hl
    rcases List.mem_map.1 hl with ⟨v, hv, rfl⟩
    cases hnumber : s.found.componentOf? (g.name v) with
    | none =>
        rfl
    | some i =>
        have hsettled := (hr.settled_iff v (hs.stack_lt (h.member_stack hv))).2 ⟨i, hnumber⟩
        exact absurd hsettled (h.member_active hs hv)

theorem same_iff (h : Closes g s top.vertex pre post rest s') (hg : g.WellFormed)
    (hs : s.Shape g) (hl : s.Lowlinks g) (hr : s.Records g) (hframes : s.frames = top :: rest)
    (hnone : g.successorAt top.vertex top.place = .ok none)
    (hroot : s.low top.vertex = s.index top.vertex) {u v : UInt32} (hu : u.toNat < g.numVertices)
    (hv : v.toNat < g.numVertices) (hsettled : s'.markOf u = .settled) :
    s'.found.componentOf? (g.name u) = s'.found.componentOf? (g.name v) ↔
      g.Reaches u v ∧ g.Reaches v u := by
  rw [h.componentOf?_name hg hs hu, h.componentOf?_name hg hs hv]
  -- an old number is smaller than the new one
  have hdiffer : ∀ w : UInt32, s.found.componentOf? (g.name w) ≠ some s.found.size := by
    intro w hw
    exact Nat.lt_irrefl _ (hr.tidy.lt_size hw)
  -- paths from closed components stay in closed components
  have hreaches : ∀ {a b : UInt32}, s.markOf a = .settled → g.Reaches a b →
      s.markOf b = .settled := by
    intro a b ha hab
    induction hab with
    | refl =>
        exact ha
    | @tail b c _ hedge ih =>
        exact hl.closed b ih c hedge
  by_cases humem : u ∈ pre ++ [top.vertex]
  · rw [if_pos humem]
    have hurt := h.mutual_root hs hl hframes humem
    by_cases hvmem : v ∈ pre ++ [top.vertex]
    · rw [if_pos hvmem]
      have hvrt := h.mutual_root hs hl hframes hvmem
      exact ⟨fun _ => ⟨hurt.2.trans hvrt.1, hvrt.2.trans hurt.1⟩, fun _ => rfl⟩
    · rw [if_neg hvmem]
      constructor
      · intro heq
        exact absurd heq.symm (hdiffer v)
      · rintro ⟨huv, hvu⟩
        have hvset := (h.reaches_closed hg hs hl hframes hnone hroot humem huv).resolve_left hvmem
        exact absurd (hreaches hvset hvu) (h.member_active hs humem)
  · rw [if_neg humem]
    have huset := ((h.settled_iff u).1 hsettled).resolve_left humem
    by_cases hvmem : v ∈ pre ++ [top.vertex]
    · rw [if_pos hvmem]
      constructor
      · intro heq
        exact absurd heq (hdiffer u)
      · rintro ⟨huv, _⟩
        exact absurd (hreaches huset huv) (h.member_active hs hvmem)
    · rw [if_neg hvmem]
      exact hr.same_iff u v hu hv huset

theorem records (h : Closes g s top.vertex pre post rest s') (hg : g.WellFormed)
    (hs : s.Shape g) (hl : s.Lowlinks g) (hr : s.Records g) (hframes : s.frames = top :: rest)
    (hnone : g.successorAt top.vertex top.place = .ok none)
    (hroot : s.low top.vertex = s.index top.vertex) : s'.Records g where
  tidy := h.tidy hg hs hr
  settled_iff := by
    intro v hv
    rw [h.settled_iff, h.componentOf?_name hg hs hv]
    by_cases hmem : v ∈ pre ++ [top.vertex]
    · simp [hmem]
    · rw [if_neg hmem, ← hr.settled_iff v hv]
      exact ⟨fun hor => hor.resolve_left hmem, Or.inr⟩
  exists_name := by
    intro l i hi
    rw [h.found_eq, Partition.componentOf?_push _ _ _ (h.found_size_lt hg hs)] at hi
    by_cases hmem : l ∈ (pre ++ [top.vertex]).map g.name
    · rcases List.mem_map.1 hmem with ⟨v, hv, hname⟩
      exact ⟨v, hs.stack_lt (h.member_stack hv), hname⟩
    · rw [if_neg hmem] at hi
      exact hr.exists_name l i hi
  same_iff := by
    intro u v hu hv hsettled
    exact h.same_iff hg hs hl hr hframes hnone hroot hu hv hsettled
  order := by
    intro u v i j hu hv hedge hi hj
    rw [h.componentOf?_name hg hs hu] at hi
    rw [h.componentOf?_name hg hs hv] at hj
    by_cases humem : u ∈ pre ++ [top.vertex]
    · -- the new component has the largest number of all
      rw [if_pos humem] at hi
      have hi' := Option.some.inj hi
      by_cases hvmem : v ∈ pre ++ [top.vertex]
      · rw [if_pos hvmem] at hj
        have hj' := Option.some.inj hj
        omega
      · rw [if_neg hvmem] at hj
        have hlt := hr.tidy.lt_size hj
        omega
    · rw [if_neg humem] at hi
      have huset := (hr.settled_iff u hu).2 ⟨i, hi⟩
      -- an old component has no edge to the new one
      have hvmem : v ∉ pre ++ [top.vertex] := by
        intro hmem
        exact h.member_active hs hmem (hl.closed u huset v hedge)
      rw [if_neg hvmem] at hj
      exact hr.order u v i j hu hv hedge hi hj

end Closes
end Search
end TwoCnf
