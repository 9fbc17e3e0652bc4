import TwoCnf.Component.Partition
import TwoCnf.Component.Recorded
import TwoCnf.Implication.Graph

/-!
# Search — strongly connected components by one depth-first search

The search walks the graph with an explicit list of frames, one for each vertex whose row is being
read. Each vertex is `unseen`, `active` while it is on the stack, or `settled` once its component is
closed. An active vertex knows its discovery index and the least index it has been seen to reach.

* `Search.enter` discovers a vertex;
* `Search.step` does one unit of work on the top frame: discover the next successor, or pass it, or
  leave the vertex and close its component if it is the root of one;
* `Search.run` repeats the step until no frame is left. Each step lowers `Search.work`, which counts
  the work that the frames and the unseen vertices can still cause;
* `Graph.search` searches from each vertex in turn and leaves a record, and `Graph.partition` is what it
  finds.

An edge to an unseen vertex is looked at twice: once to discover the vertex, and once more after that
vertex has been left, to learn what it reaches.
-/

namespace TwoCnf

/-! ## The state of a search -/

/-- What is known of a vertex. -/
inductive Mark where
  | unseen
  | active (index low : UInt32)
  | settled
  deriving DecidableEq, Repr, Inhabited

/-- A vertex whose row is being read, and the place in the row. -/
structure Frame where
  vertex : UInt32
  place : Nat
  deriving DecidableEq, Repr

/-- The frame at the next place of its row. -/
def Frame.advance (f : Frame) : Frame :=
  { f with place := f.place + 1 }

/-- The most steps that a frame can cause by itself: one for each entry left and one for leaving. -/
def Frame.work (g : Graph) (f : Frame) : Nat :=
  g.degree f.vertex - f.place + 1

/-- A search in progress. `stack` and `frames` have their newest entry in front, and `next` is the next
discovery index. -/
structure Search where
  marks : Array Mark
  stack : List UInt32
  frames : List Frame
  next : UInt32
  found : Partition

namespace Search

/-- No vertex of the graph has been seen. -/
def start (g : Graph) : Search :=
  ⟨Array.replicate g.numVertices .unseen, [], [], 0, .empty⟩

/-- The mark of a vertex. -/
def mark (s : Search) (v : UInt32) : Except Fault Mark :=
  entry s.marks v.toNat

/-- Changes the mark of a vertex. -/
def setMark (s : Search) (v : UInt32) (m : Mark) : Except Fault Search :=
  if v.toNat < s.marks.size then .ok { s with marks := s.marks.setIfInBounds v.toNat m }
  else .error .outOfRange

/-- Discovers a vertex: it gets the next index, goes on the stack and opens a frame. -/
def enter (s : Search) (v : UInt32) : Except Fault Search :=
  { s with
    stack := v :: s.stack
    frames := ⟨v, 0⟩ :: s.frames
    next := s.next + 1 }.setMark v (.active s.next s.next)

/-- Notes that an active vertex reaches the index `low`. -/
def lower (s : Search) (v : UInt32) (low : UInt32) : Except Fault Search := do
  match ← s.mark v with
  | .active index own => s.setMark v (.active index (min own low))
  | _ => return s

/-- Settles vertices from left to right. -/
def settle (s : Search) (vs : List UInt32) : Except Fault Search :=
  vs.foldlM (fun s v => s.setMark v .settled) s

/-- The vertices on the stack down to the root. -/
def above (root : UInt32) (stack : List UInt32) : List UInt32 :=
  stack.takeWhile (· != root) ++ (stack.dropWhile (· != root)).take 1

/-- The vertices on the stack below the root. -/
def below (root : UInt32) (stack : List UInt32) : List UInt32 :=
  (stack.dropWhile (· != root)).drop 1

/-- Closes the component of a root: the stack down to the root, in the order of popping. -/
def close (g : Graph) (s : Search) (root : UInt32) : Except Fault Search := do
  let members := above root s.stack
  let lits ← members.mapM g.lit
  settle { s with stack := below root s.stack, found := s.found.push lits } members

/-- Leaves a vertex whose row is read. It is the root of a component if it reaches no index below its
own. -/
def leave (g : Graph) (s : Search) (v : UInt32) : Except Fault Search := do
  match ← s.mark v with
  | .active index low => if index = low then s.close g v else return s
  | _ => return s

/-- Replaces the frames. -/
def withFrames (s : Search) (frames : List Frame) : Search :=
  { s with frames := frames }

/-- One unit of work on the frame `top` over the frames `rest`. -/
def step (g : Graph) (s : Search) (top : Frame) (rest : List Frame) : Except Fault Search := do
  match ← g.successorAt top.vertex top.place with
  | none => (s.withFrames rest).leave g top.vertex
  | some w =>
      match ← s.mark w with
      | .unseen => s.enter w
      | .active _ low => (s.withFrames (top.advance :: rest)).lower top.vertex low
      | .settled => return s.withFrames (top.advance :: rest)

/-! ## The work that is left -/

/-- An unseen vertex causes one step to enter it and then the steps of its row. -/
def unseenWork (g : Graph) (marks : Array Mark) (v : Nat) : Nat :=
  if marks[v]? = some .unseen then g.degree (UInt32.ofNat v) + 2 else 0

/-- The values of `f` below `n`, added up. -/
def sumBelow (f : Nat → Nat) : Nat → Nat
  | 0 => 0
  | n + 1 => sumBelow f n + f n

/-- The steps that frames can cause by themselves. -/
def framesWork (g : Graph) : List Frame → Nat
  | [] => 0
  | f :: fs => f.work g + framesWork g fs

/-- A bound on the steps that are left. -/
def work (g : Graph) (s : Search) : Nat :=
  sumBelow (unseenWork g s.marks) s.marks.size + framesWork g s.frames

/-- `s'` has seen all that `s` has seen. -/
def Sees (s s' : Search) : Prop :=
  s'.marks.size = s.marks.size ∧
    ∀ v : Nat, s'.marks[v]? = some Mark.unseen → s.marks[v]? = some Mark.unseen

theorem Sees.refl (s : Search) : Sees s s :=
  ⟨rfl, fun _ h => h⟩

theorem Sees.trans {s t u : Search} (hst : Sees s t) (htu : Sees t u) : Sees s u :=
  ⟨htu.1.trans hst.1, fun v h => hst.2 v (htu.2 v h)⟩

theorem setMark_eq_ok {s s' : Search} {v : UInt32} {m : Mark} :
    s.setMark v m = .ok s' ↔
      v.toNat < s.marks.size ∧ { s with marks := s.marks.setIfInBounds v.toNat m } = s' := by
  unfold setMark
  split
  · rename_i hv
    simp [hv]
  · rename_i hv
    simp [hv]

theorem sees_of_setMark {s s' : Search} {v : UInt32} {m : Mark} (hm : m ≠ .unseen)
    (h : s.setMark v m = .ok s') : Sees s s' ∧ s'.frames = s.frames := by
  obtain ⟨_, rfl⟩ := setMark_eq_ok.1 h
  refine ⟨⟨by simp, fun w hw => ?_⟩, rfl⟩
  simp only [Array.getElem?_setIfInBounds] at hw
  split at hw
  · exact absurd (Option.some.inj hw) hm
  · exact hw

theorem sees_of_settle {vs : List UInt32} {s s' : Search} (h : s.settle vs = .ok s') :
    Sees s s' ∧ s'.frames = s.frames := by
  induction vs generalizing s with
  | nil =>
    obtain rfl : s = s' := by simpa [settle, pure, Except.pure] using h
    exact ⟨.refl s, rfl⟩
  | cons v vs ih =>
    obtain ⟨t, ht, hs⟩ := bind_eq_ok.1 (by simpa only [settle, List.foldlM_cons] using h)
    have h₁ := sees_of_setMark (by simp) ht
    have h₂ := ih hs
    exact ⟨h₁.1.trans h₂.1, h₂.2.trans h₁.2⟩

theorem sees_of_lower {s s' : Search} {v low : UInt32} (h : s.lower v low = .ok s') :
    Sees s s' ∧ s'.frames = s.frames := by
  obtain ⟨m, _, hs⟩ := bind_eq_ok.1 h
  cases m with
  | active index own => exact sees_of_setMark (by simp) hs
  | unseen =>
    obtain rfl : s = s' := by simpa [pure, Except.pure] using hs
    exact ⟨.refl s, rfl⟩
  | settled =>
    obtain rfl : s = s' := by simpa [pure, Except.pure] using hs
    exact ⟨.refl s, rfl⟩

theorem sees_of_leave {g : Graph} {s s' : Search} {v : UInt32} (h : s.leave g v = .ok s') :
    Sees s s' ∧ s'.frames = s.frames := by
  have same : s = s' → Sees s s' ∧ s'.frames = s.frames := by
    rintro rfl
    exact ⟨.refl s, rfl⟩
  obtain ⟨m, _, hs⟩ := bind_eq_ok.1 h
  cases m with
  | unseen => exact same (by simpa [pure, Except.pure] using hs)
  | settled => exact same (by simpa [pure, Except.pure] using hs)
  | active index low =>
    simp only at hs
    split at hs
    · obtain ⟨lits, _, hc⟩ := bind_eq_ok.1 hs
      obtain ⟨hc, hf⟩ := sees_of_settle hc
      exact ⟨hc, hf⟩
    · exact same (by simpa [pure, Except.pure] using hs)

theorem sumBelow_le {f f' : Nat → Nat} (hle : ∀ j, f' j ≤ f j) (n : Nat) :
    sumBelow f' n ≤ sumBelow f n := by
  induction n with
  | zero => exact Nat.le_refl 0
  | succ n ih => exact Nat.add_le_add ih (hle n)

theorem sumBelow_add_le {f f' : Nat → Nat} {n i c : Nat} (hle : ∀ j, f' j ≤ f j) (hi : i < n)
    (hc : f' i + c ≤ f i) : sumBelow f' n + c ≤ sumBelow f n := by
  induction n with
  | zero => omega
  | succ n ih =>
    simp only [sumBelow]
    by_cases hn : i < n
    · have := ih hn
      have := hle n
      omega
    · obtain rfl : i = n := by omega
      have := sumBelow_le hle i
      omega

theorem unseenWork_le {g : Graph} {s s' : Search} (h : Sees s s') (v : Nat) :
    unseenWork g s'.marks v ≤ unseenWork g s.marks v := by
  unfold unseenWork
  split
  · rename_i hv
    simp [h.2 v hv]
  · exact Nat.zero_le _

theorem sumBelow_unseenWork_le {g : Graph} {s s' : Search} (h : Sees s s') :
    sumBelow (unseenWork g s'.marks) s'.marks.size ≤
      sumBelow (unseenWork g s.marks) s.marks.size := by
  rw [h.1]
  exact sumBelow_le (unseenWork_le h) _

theorem enter_eq_ok {s s' : Search} {v : UInt32} :
    s.enter v = .ok s' ↔ v.toNat < s.marks.size ∧
      Search.mk (s.marks.setIfInBounds v.toNat (.active s.next s.next)) (v :: s.stack)
        (⟨v, 0⟩ :: s.frames) (s.next + 1) s.found = s' :=
  setMark_eq_ok

theorem work_enter_lt {g : Graph} {s s' : Search} {v : UInt32} (hv : s.mark v = .ok .unseen)
    (h : s.enter v = .ok s') : s'.work g < s.work g := by
  have hv' : s.marks[v.toNat]? = some .unseen := entry_eq_ok.1 hv
  have hs := (sees_of_setMark (by simp) h).1
  obtain ⟨hlt, rfl⟩ := enter_eq_ok.1 h
  have hsum := sumBelow_add_le (f := unseenWork g s.marks) (n := s.marks.size)
    (c := g.degree v + 2) (unseenWork_le (g := g) hs) hlt (by
      simp [unseenWork, hv', Array.getElem?_setIfInBounds_self])
  simp only [work, Array.size_setIfInBounds, framesWork, Frame.work] at hsum ⊢
  omega

/-- Each step lowers the work that is left. -/
theorem work_step_lt {g : Graph} {s s' : Search} {top : Frame} {rest : List Frame}
    (hf : s.frames = top :: rest) (h : s.step g top rest = .ok s') : s'.work g < s.work g := by
  obtain ⟨w?, hw, h⟩ := bind_eq_ok.1 h
  cases w? with
  | none =>
    have hs := sees_of_leave h
    have := sumBelow_unseenWork_le (g := g) hs.1
    simp only [work, hs.2, hf, withFrames, framesWork, Frame.work] at this ⊢
    omega
  | some w =>
    have hp := Graph.lt_degree_of_successorAt hw
    have passes : ∀ {t : Search}, Sees (s.withFrames (top.advance :: rest)) t ∧
        t.frames = (s.withFrames (top.advance :: rest)).frames → t.work g < s.work g := by
      intro t ht
      have := sumBelow_unseenWork_le (g := g) ht.1
      simp only [work, ht.2, hf, withFrames, framesWork, Frame.work, Frame.advance] at this ⊢
      omega
    obtain ⟨m, hm, h⟩ := bind_eq_ok.1 h
    cases m with
    | unseen => exact work_enter_lt hm h
    | active index low => exact passes (sees_of_lower h)
    | settled =>
      have h : s.withFrames (top.advance :: rest) = s' := by simpa [pure, Except.pure] using h
      exact passes (h ▸ ⟨.refl _, rfl⟩)

/-! ## The whole search -/

/-- Works until no frame is left. -/
def run (g : Graph) (s : Search) : Except Fault Search :=
  match hf : s.frames with
  | [] => .ok s
  | top :: rest =>
      match hs : s.step g top rest with
      | .error fault => .error fault
      | .ok s' =>
          have : s'.work g < s.work g := work_step_lt hf hs
          run g s'
termination_by s.work g

/-- Searches from a vertex, unless it has been seen. -/
def visit (g : Graph) (s : Search) (v : UInt32) : Except Fault Search := do
  match ← s.mark v with
  | .unseen => (← s.enter v).run g
  | _ => return s

end Search

/-- Searches from each vertex of a graph in turn. A search that comes to its end leaves a record. -/
def Graph.search (g : Graph) : Recorded Partition := do
  let last ← (g.vertices.foldlM (Search.visit g) (.start g) : Except Fault Search)
  Recorded.record ⟨g.numVertices, g.numEdges, last.found.size⟩
  return last.found

/-- The strongly connected components of a graph in closing order. -/
def Graph.partition (g : Graph) : Except Fault Partition :=
  g.search.result

theorem Graph.partition_eq_ok {g : Graph} {p : Partition} :
    g.partition = .ok p ↔
      ∃ last, g.vertices.foldlM (Search.visit g) (.start g) = .ok last ∧ last.found = p := by
  unfold partition search
  rw [Recorded.result_bind]
  constructor
  · intro h
    rcases bind_eq_ok.1 h with ⟨last, hlast, hfound⟩
    exact ⟨last, hlast, Except.ok.inj hfound⟩
  · rintro ⟨last, hlast, rfl⟩
    exact bind_eq_ok.2 ⟨last, hlast, rfl⟩

/-- A search that comes to its end leaves one record, of the graph and of what was found. -/
theorem Graph.searches_search {g : Graph} {p : Partition} (h : g.partition = .ok p) :
    g.search.searches = [⟨g.numVertices, g.numEdges, p.size⟩] := by
  rcases partition_eq_ok.1 h with ⟨last, hlast, rfl⟩
  unfold search
  rw [hlast]
  rfl

end TwoCnf
