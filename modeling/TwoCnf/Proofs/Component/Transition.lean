import TwoCnf.Proofs.Component.Invariant

/-!
# Transition — what a step of a search can do

A step discovers a vertex, passes an edge, leaves a vertex, or leaves it and closes its component. This
module says once what each of the four does to a search (`Enters`, `Passes`, `Closes`; leaving alone only
drops a frame) and that none of them fails (`exists_step`).
-/

namespace TwoCnf
namespace Search

/-! ## Marks -/

theorem count_unseen_set {marks : Array Mark} {i : Nat} {old new : Mark}
    (h : marks[i]? = some old) (hnew : new ≠ .unseen) :
    (marks.setIfInBounds i new).count .unseen + (if old = .unseen then 1 else 0) =
      marks.count .unseen := by
  rcases Array.getElem?_eq_some_iff.1 h with ⟨hlt, hold⟩
  -- the subtraction in the count after a change is exact
  have hle : (if marks[i] == Mark.unseen then 1 else 0) ≤ marks.count .unseen :=
    Array.boole_getElem_le_count hlt
  have hbeq : (new == Mark.unseen) = false := by simpa using hnew
  rw [hold] at hle
  rw [Array.setIfInBounds, dif_pos hlt, Array.count_set, hold, hbeq]
  by_cases hu : old = .unseen
  · subst hu
    simp only [beq_self_eq_true, if_true] at hle ⊢
    simp only [Bool.false_eq_true, if_false]
    omega
  · simp [hu]

theorem getElem?_marks {s : Search} {v : UInt32} (h : v.toNat < s.marks.size) :
    s.marks[v.toNat]? = some (s.markOf v) :=
  entry_eq_ok.1 (mark_eq h)

/-! ## Discovering a vertex -/

/-- `s'` is `s` after the discovery of `v`. -/
structure Enters (s : Search) (v : UInt32) (s' : Search) : Prop where
  unseen : s.markOf v = .unseen
  size_eq : s'.marks.size = s.marks.size
  count : s'.marks.count .unseen + 1 = s.marks.count .unseen
  markOf_eq : ∀ u, s'.markOf u = if u = v then .active s.next s.next else s.markOf u
  stack_eq : s'.stack = v :: s.stack
  frames_eq : s'.frames = ⟨v, 0⟩ :: s.frames
  next_eq : s'.next = s.next + 1
  found_eq : s'.found = s.found

theorem exists_enter {s : Search} {v : UInt32} (hv : v.toNat < s.marks.size)
    (hunseen : s.markOf v = .unseen) : ∃ s', s.enter v = .ok s' ∧ Enters s v s' := by
  refine ⟨_, enter_eq_ok.2 ⟨hv, rfl⟩, ?_⟩
  have hcount := count_unseen_set (getElem?_marks hv)
    (show Mark.active s.next s.next ≠ .unseen by simp)
  rw [if_pos hunseen] at hcount
  exact
    { unseen := hunseen
      size_eq := Array.size_setIfInBounds
      count := hcount
      markOf_eq := markOf_set hv rfl
      stack_eq := rfl
      frames_eq := rfl
      next_eq := rfl
      found_eq := rfl }

/-! ## Passing an edge -/

/-- `s'` is `s` after the top frame has passed its edge to `w`. If `w` is on the stack, the top vertex
has learnt what `w` reaches. -/
structure Passes (s : Search) (top : Frame) (rest : List Frame) (w : UInt32) (s' : Search) : Prop where
  size_eq : s'.marks.size = s.marks.size
  count : s'.marks.count .unseen = s.marks.count .unseen
  markOf_eq : ∀ u, u ≠ top.vertex → s'.markOf u = s.markOf u
  active : ∃ index low, s'.markOf top.vertex = .active index low
  index_eq : s'.index top.vertex = s.index top.vertex
  low_eq : s'.low top.vertex = s.low top.vertex ∨
    (w ∈ s.stack ∧ s'.low top.vertex = s.low w)
  low_le : s'.low top.vertex ≤ s.low top.vertex
  low_le_target : w ∈ s.stack → s'.low top.vertex ≤ s.low w
  stack_eq : s'.stack = s.stack
  frames_eq : s'.frames = top.advance :: rest
  next_eq : s'.next = s.next
  found_eq : s'.found = s.found

theorem passes_of_settled {g : Graph} {s : Search} {top : Frame} {rest : List Frame} {w : UInt32}
    (hs : s.Shape g) (hframes : s.frames = top :: rest) (hw : s.markOf w = .settled) :
    Passes s top rest w (s.withFrames (top.advance :: rest)) where
  size_eq := rfl
  count := rfl
  markOf_eq := fun _ _ => rfl
  active := hs.active_top hframes
  index_eq := rfl
  low_eq := Or.inl rfl
  low_le := Nat.le_refl _
  low_le_target := by
    intro hmem
    rcases (hs.mem_stack_iff w).1 hmem with ⟨index, low, hactive⟩
    rw [hw] at hactive
    cases hactive
  stack_eq := rfl
  frames_eq := rfl
  next_eq := rfl
  found_eq := rfl

theorem exists_lower {g : Graph} {s : Search} {top : Frame} {rest : List Frame} {w : UInt32}
    {index low : UInt32} (hs : s.Shape g) (hframes : s.frames = top :: rest)
    (hw : s.markOf w = .active index low) :
    ∃ s', (s.withFrames (top.advance :: rest)).lower top.vertex low = .ok s' ∧
      Passes s top rest w s' := by
  rcases hs.active_top hframes with ⟨i, own, htop⟩
  have hlt : top.vertex.toNat < s.marks.size := lt_size_of_markOf (by rw [htop]; simp)
  have hlow : (s.withFrames (top.advance :: rest)).lower top.vertex low =
      .ok { s.withFrames (top.advance :: rest) with
        marks := s.marks.setIfInBounds top.vertex.toNat (.active i (min own low)) } := by
    have hmark : (s.withFrames (top.advance :: rest)).mark top.vertex = .ok (.active i own) := by
      rw [← htop]
      exact mark_eq hlt
    exact bind_eq_ok.2 ⟨_, hmark, setMark_eq_ok.2 ⟨hlt, rfl⟩⟩
  refine ⟨_, hlow, ?_⟩
  have hcount := count_unseen_set (getElem?_marks hlt)
    (show Mark.active i (min own low) ≠ .unseen by simp)
  rw [htop, if_neg (by simp), Nat.add_zero] at hcount
  -- the one mark that changes is that of the top vertex
  have hset : ∀ u, Search.markOf { s.withFrames (top.advance :: rest) with
      marks := s.marks.setIfInBounds top.vertex.toNat (.active i (min own low)) } u =
        if u = top.vertex then .active i (min own low) else s.markOf u :=
    markOf_set hlt rfl
  have hnew := hset top.vertex
  rw [if_pos rfl] at hnew
  have hindex : s.index top.vertex = i.toNat := by rw [Search.index, htop]; rfl
  have hlowTop : s.low top.vertex = own.toNat := by rw [Search.low, htop]; rfl
  have hlowW : s.low w = low.toNat := by rw [Search.low, hw]; rfl
  have hmem : w ∈ s.stack := (hs.mem_stack_iff w).2 ⟨index, low, hw⟩
  have hmin : (min own low).toNat = min own.toNat low.toNat := UInt32.toNat_min own low
  refine
    { size_eq := Array.size_setIfInBounds
      count := hcount
      markOf_eq := fun u hu => by rw [hset u, if_neg hu]
      active := ⟨_, _, hnew⟩
      index_eq := ?_
      low_eq := ?_
      low_le := ?_
      low_le_target := ?_
      stack_eq := rfl
      frames_eq := rfl
      next_eq := rfl
      found_eq := rfl }
  · rw [hindex, Search.index, hnew]
    rfl
  · rw [hlowTop, hlowW, Search.low, hnew]
    show (min own low).toNat = own.toNat ∨ _ ∧ (min own low).toNat = low.toNat
    rcases Nat.le_total own.toNat low.toNat with hle | hle
    · exact Or.inl (by rw [hmin, Nat.min_eq_left hle])
    · exact Or.inr ⟨hmem, by rw [hmin, Nat.min_eq_right hle]⟩
  · rw [hlowTop, Search.low, hnew]
    show (min own low).toNat ≤ own.toNat
    rw [hmin]
    exact Nat.min_le_left _ _
  · intro _
    rw [hlowW, Search.low, hnew]
    show (min own low).toNat ≤ low.toNat
    rw [hmin]
    exact Nat.min_le_right _ _

/-! ## Closing a component -/

/-- `s'` is `s` after the component of `root` has been closed and its frame dropped. -/
structure Closes (g : Graph) (s : Search) (root : UInt32) (pre post : List UInt32)
    (rest : List Frame) (s' : Search) : Prop where
  stack_old : s.stack = pre ++ root :: post
  size_eq : s'.marks.size = s.marks.size
  count : s'.marks.count .unseen = s.marks.count .unseen
  markOf_eq : ∀ u, s'.markOf u = if u ∈ pre ++ [root] then .settled else s.markOf u
  stack_eq : s'.stack = post
  frames_eq : s'.frames = rest
  next_eq : s'.next = s.next
  found_eq : s'.found = s.found.push ((pre ++ [root]).map g.name)

theorem exists_settle (vs : List UInt32) (s : Search) (hlt : ∀ v ∈ vs, v.toNat < s.marks.size)
    (hseen : ∀ v ∈ vs, s.markOf v ≠ .unseen) :
    ∃ marks : Array Mark, s.settle vs = .ok { s with marks := marks } ∧
      marks.size = s.marks.size ∧ marks.count .unseen = s.marks.count .unseen ∧
      ∀ u, Search.markOf { s with marks := marks } u =
        if u ∈ vs then .settled else s.markOf u := by
  induction vs generalizing s with
  | nil =>
      refine ⟨s.marks, rfl, rfl, rfl, ?_⟩
      intro u
      simp [markOf]
  | cons v vs ih =>
      have hv : v.toNat < s.marks.size := hlt v List.mem_cons_self
      have hv' : s.markOf v ≠ .unseen := hseen v List.mem_cons_self
      have hset : ∀ u, Search.markOf { s with marks := s.marks.setIfInBounds v.toNat .settled } u =
          if u = v then .settled else s.markOf u :=
        markOf_set hv rfl
      have hcount := count_unseen_set (getElem?_marks hv) (show Mark.settled ≠ .unseen by simp)
      rw [if_neg hv', Nat.add_zero] at hcount
      have hlt' : ∀ u ∈ vs, u.toNat < (s.marks.setIfInBounds v.toNat Mark.settled).size := by
        intro u hu
        rw [Array.size_setIfInBounds]
        exact hlt u (List.mem_cons_of_mem v hu)
      have hseen' : ∀ u ∈ vs,
          Search.markOf { s with marks := s.marks.setIfInBounds v.toNat .settled } u ≠ .unseen := by
        intro u hu
        rw [hset u]
        by_cases huv : u = v
        · simp [huv]
        · rw [if_neg huv]
          exact hseen u (List.mem_cons_of_mem v hu)
      rcases ih { s with marks := s.marks.setIfInBounds v.toNat .settled } hlt' hseen' with
        ⟨marks, hsettle, hsize, hcount', hmarks⟩
      -- the first mark is set, and then the others by the induction hypothesis
      refine ⟨marks, ?_, ?_, hcount'.trans hcount, ?_⟩
      · unfold settle
        rw [List.foldlM_cons]
        exact bind_eq_ok.2 ⟨_, setMark_eq_ok.2 ⟨hv, rfl⟩, hsettle⟩
      · rw [hsize, Array.size_setIfInBounds]
      · intro u
        have hu := hmarks u
        rw [hset u] at hu
        rw [show Search.markOf { s with marks := marks } u = _ from hu]
        by_cases huv : u = v
        · simp [huv]
        · simp [huv]

theorem bne_of_not_mem {root : UInt32} {pre : List UInt32} (h : root ∉ pre) :
    ∀ u ∈ pre, (u != root) = true := by
  intro u hu
  have hne : u ≠ root := by
    intro heq
    exact h (heq ▸ hu)
  simpa using hne

theorem above_append {root : UInt32} {pre post : List UInt32} (h : root ∉ pre) :
    above root (pre ++ root :: post) = pre ++ [root] := by
  have hpos := bne_of_not_mem h
  unfold above
  rw [List.takeWhile_append_of_pos hpos, List.dropWhile_append_of_pos hpos]
  simp

theorem below_append {root : UInt32} {pre post : List UInt32} (h : root ∉ pre) :
    below root (pre ++ root :: post) = post := by
  have hpos := bne_of_not_mem h
  unfold below
  rw [List.dropWhile_append_of_pos hpos]
  simp

theorem exists_close {g : Graph} {s : Search} (hs : s.Shape g) {root : UInt32}
    {pre post : List UInt32} (hstack : s.stack = pre ++ root :: post) (rest : List Frame) :
    ∃ s', (s.withFrames rest).close g root = .ok s' ∧ Closes g s root pre post rest s' := by
  have hnodup := hs.nodup
  rw [hstack, List.nodup_append] at hnodup
  -- the stack lists the root once, so cutting at it gives back the two parts
  have hroot : root ∉ pre := by
    intro hmem
    exact hnodup.2.2 root hmem root List.mem_cons_self rfl
  have hmember : ∀ v ∈ pre ++ [root], v ∈ s.stack := by
    intro v hv
    rw [hstack]
    rcases List.mem_append.1 hv with hpre | hlast
    · exact List.mem_append_left _ hpre
    · exact List.mem_append_right _ (List.mem_cons.2 (Or.inl (List.mem_singleton.1 hlast)))
  have hseen : ∀ v ∈ pre ++ [root], s.markOf v ≠ .unseen := by
    intro v hv
    rcases (hs.mem_stack_iff v).1 (hmember v hv) with ⟨index, low, hmark⟩
    rw [hmark]
    simp
  have hlits : (pre ++ [root]).mapM g.lit = .ok ((pre ++ [root]).map g.name) := by
    apply mapM_eq_ok_map
    intro v hv
    exact Graph.lit_eq_name (hs.stack_lt (hmember v hv))
  rcases exists_settle (pre ++ [root])
      { s.withFrames rest with
        stack := post
        found := s.found.push ((pre ++ [root]).map g.name) }
      (fun v hv => lt_size_of_markOf (hseen v hv)) hseen with
    ⟨marks, hsettle, hsize, hcount, hmarks⟩
  refine ⟨_, ?_, ⟨hstack, hsize, hcount, hmarks, rfl, rfl, rfl, rfl⟩⟩
  have habove : above root (s.withFrames rest).stack = pre ++ [root] := by
    show above root s.stack = _
    rw [hstack, above_append hroot]
  have hbelow : below root (s.withFrames rest).stack = post := by
    show below root s.stack = _
    rw [hstack, below_append hroot]
  unfold close
  rw [habove, hbelow]
  exact bind_eq_ok.2 ⟨_, hlits, hsettle⟩

/-! ## Any step -/

/-- All that a step on the frame `top` over the frames `rest` can do. -/
inductive StepCase (g : Graph) (s : Search) (top : Frame) (rest : List Frame) (s' : Search) : Prop where
  | enters (w : UInt32) (hsucc : g.successorAt top.vertex top.place = .ok (some w))
      (h : Enters s w s') : StepCase g s top rest s'
  | passes (w : UInt32) (hsucc : g.successorAt top.vertex top.place = .ok (some w))
      (hseen : s.markOf w ≠ .unseen) (h : Passes s top rest w s') : StepCase g s top rest s'
  | leaves (hnone : g.successorAt top.vertex top.place = .ok none)
      (hroot : s.low top.vertex ≠ s.index top.vertex) (h : s.withFrames rest = s') :
      StepCase g s top rest s'
  | closes (hnone : g.successorAt top.vertex top.place = .ok none)
      (hroot : s.low top.vertex = s.index top.vertex) (pre post : List UInt32)
      (h : Closes g s top.vertex pre post rest s') : StepCase g s top rest s'

theorem StepCase.of_some {g : Graph} {s s' : Search} {top : Frame} {rest : List Frame} {w : UInt32}
    (h : StepCase g s top rest s') (hsucc : g.successorAt top.vertex top.place = .ok (some w)) :
    Enters s w s' ∨ s.markOf w ≠ .unseen ∧ Passes s top rest w s' := by
  cases h with
  | enters w' hsucc' he =>
      cases hsucc.symm.trans hsucc'
      exact Or.inl he
  | passes w' hsucc' hseen hp =>
      cases hsucc.symm.trans hsucc'
      exact Or.inr ⟨hseen, hp⟩
  | leaves hnone _ _ =>
      cases hsucc.symm.trans hnone
  | closes hnone _ _ _ _ =>
      cases hsucc.symm.trans hnone

theorem StepCase.of_none {g : Graph} {s s' : Search} {top : Frame} {rest : List Frame}
    (h : StepCase g s top rest s') (hnone : g.successorAt top.vertex top.place = .ok none) :
    s.low top.vertex ≠ s.index top.vertex ∧ s.withFrames rest = s' ∨
      s.low top.vertex = s.index top.vertex ∧
        ∃ pre post, Closes g s top.vertex pre post rest s' := by
  cases h with
  | enters w hsucc _ =>
      cases hnone.symm.trans hsucc
  | passes w hsucc _ _ =>
      cases hnone.symm.trans hsucc
  | leaves _ hroot heq =>
      exact Or.inl ⟨hroot, heq⟩
  | closes _ hroot pre post hc =>
      exact Or.inr ⟨hroot, pre, post, hc⟩

theorem exists_leave {g : Graph} {s : Search} (hs : s.Shape g) {top : Frame} {rest : List Frame}
    (hframes : s.frames = top :: rest) (hnone : g.successorAt top.vertex top.place = .ok none) :
    ∃ s', (s.withFrames rest).leave g top.vertex = .ok s' ∧ StepCase g s top rest s' := by
  rcases hs.active_top hframes with ⟨index, low, hactive⟩
  have hmark : (s.withFrames rest).mark top.vertex = .ok (.active index low) := by
    have hlt : top.vertex.toNat < s.marks.size := lt_size_of_markOf (by rw [hactive]; simp)
    rw [← hactive]
    exact mark_eq hlt
  have hindex : s.index top.vertex = index.toNat := by rw [Search.index, hactive]; rfl
  have hlow : s.low top.vertex = low.toNat := by rw [Search.low, hactive]; rfl
  -- a vertex whose `low` is its own index is the root of a component
  by_cases hroot : index = low
  · rcases List.append_of_mem (hs.top_mem_stack hframes) with ⟨pre, post, hstack⟩
    rcases exists_close hs hstack rest with ⟨s', hclose, h⟩
    refine ⟨s', bind_eq_ok.2 ⟨_, hmark, ?_⟩, .closes hnone ?_ pre post h⟩
    · show (if index = low then _ else _) = _
      rw [if_pos hroot]
      exact hclose
    · rw [hindex, hlow, hroot]
  · refine ⟨s.withFrames rest, bind_eq_ok.2 ⟨_, hmark, ?_⟩, .leaves hnone ?_ rfl⟩
    · show (if index = low then _ else _) = _
      rw [if_neg hroot]
      rfl
    · rw [hindex, hlow]
      intro heq
      exact hroot (UInt32.toNat_inj.1 heq).symm

/-- A step does not fail. -/
theorem exists_step {g : Graph} {s : Search} (hg : g.WellFormed) (hs : s.Shape g) {top : Frame}
    {rest : List Frame} (hframes : s.frames = top :: rest) :
    ∃ s', s.step g top rest = .ok s' ∧ StepCase g s top rest s' := by
  have hlt := hs.stack_lt (hs.top_mem_stack hframes)
  rcases hg.successorAt_ok hlt top.place with ⟨w?, hsucc⟩
  cases w? with
  | none =>
      rcases exists_leave hs hframes hsucc with ⟨s', hleave, h⟩
      exact ⟨s', bind_eq_ok.2 ⟨_, hsucc, hleave⟩, h⟩
  | some w =>
      have hw : w.toNat < s.marks.size := by
        rw [hs.size_eq]
        exact hg.target_lt top.vertex w (hs.edge_top hg hframes hsucc)
      have hmark := mark_eq hw
      -- the mark of the target says what the step does
      cases hmarkOf : s.markOf w with
      | unseen =>
          rw [hmarkOf] at hmark
          rcases exists_enter hw hmarkOf with ⟨s', henter, h⟩
          exact ⟨s', bind_eq_ok.2 ⟨_, hsucc, bind_eq_ok.2 ⟨_, hmark, henter⟩⟩, .enters w hsucc h⟩
      | active index low =>
          rw [hmarkOf] at hmark
          rcases exists_lower hs hframes hmarkOf with ⟨s', hlower, h⟩
          have hseen : s.markOf w ≠ .unseen := by rw [hmarkOf]; simp
          exact ⟨s', bind_eq_ok.2 ⟨_, hsucc, bind_eq_ok.2 ⟨_, hmark, hlower⟩⟩,
            .passes w hsucc hseen h⟩
      | settled =>
          rw [hmarkOf] at hmark
          have h := passes_of_settled hs hframes hmarkOf
          have hseen : s.markOf w ≠ .unseen := by rw [hmarkOf]; simp
          exact ⟨_, bind_eq_ok.2 ⟨_, hsucc, bind_eq_ok.2 ⟨_, hmark, rfl⟩⟩, .passes w hsucc hseen h⟩

end Search
end TwoCnf
