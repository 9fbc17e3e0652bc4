import TwoCnf.Proofs.Component.StronglyConnected

/-!
# Course — the states that a whole search passes through

A search of a graph goes from vertex to vertex, and from each unseen one it works until no frame is left.
`Search.Course` follows it state by state, so that what is claimed of every moment of a search can be said.

* `Search.Course.run_eq` — what is left to do from any state of the course gives the result of the whole;
* `Search.Course.of_run`, `Search.Course.of_visits` — the course goes on to the end of each run, and from
  one vertex that is searched from to the next;
* `Search.Course.invariant` — the invariant of a search holds in every state of the course;
* `Search.exists_ends` — a search that finds components ends in a state of the course, and every state of
  the course leads there.
-/

namespace TwoCnf
namespace Search

/-- `Course g later s`: the search of `g` comes through the state `s`, with the vertices of `later` still
to be searched from. Between two such vertices there is no frame. -/
inductive Course (g : Graph) : List UInt32 → Search → Prop where
  | start : Course g g.vertices (start g)
  | skip {v : UInt32} {later : List UInt32} {s : Search} {m : Mark} :
      Course g (v :: later) s → s.frames = [] → s.mark v = .ok m → m ≠ .unseen → Course g later s
  | enter {v : UInt32} {later : List UInt32} {s t : Search} :
      Course g (v :: later) s → s.frames = [] → s.mark v = .ok .unseen → s.enter v = .ok t →
        Course g later t
  | step {later : List UInt32} {s t : Search} {top : Frame} {rest : List Frame} :
      Course g later s → s.frames = top :: rest → s.step g top rest = .ok t → Course g later t

variable {g : Graph}

theorem visit_of_seen {s : Search} {v : UInt32} {m : Mark} (hmark : s.mark v = .ok m)
    (hm : m ≠ .unseen) : s.visit g v = .ok s := by
  refine bind_eq_ok.2 ⟨m, hmark, ?_⟩
  cases m with
  | unseen =>
      exact absurd rfl hm
  | active index low =>
      rfl
  | settled =>
      rfl

theorem visit_of_unseen {s t : Search} {v : UInt32} (hmark : s.mark v = .ok .unseen)
    (henter : s.enter v = .ok t) : s.visit g v = t.run g := by
  unfold visit
  rw [hmark]
  show (s.enter v >>= run g) = t.run g
  rw [henter]
  rfl

namespace Course

variable {later : List UInt32} {s t : Search}

/-- The work that is left in any state of the course leads where the whole search leads. -/
theorem run_eq (h : Course g later s) :
    (s.run g >>= later.foldlM (visit g)) = g.vertices.foldlM (visit g) (Search.start g) := by
  induction h with
  | start =>
      rw [run_of_nil rfl]
      rfl
  | skip _ hframes hmark hm ih =>
      rw [run_of_nil hframes] at ih ⊢
      rw [← ih]
      -- the vertex that is passed over leaves the state as it is
      show _ = List.foldlM (visit g) _ _
      rw [List.foldlM_cons, visit_of_seen hmark hm]
  | enter _ hframes hmark henter ih =>
      rw [run_of_nil hframes] at ih
      rw [← ih, ← visit_of_unseen hmark henter]
      exact List.foldlM_cons.symm
  | step _ hframes hstep ih =>
      rw [← run_of_cons hframes hstep]
      exact ih

/-- The course goes on to the end of a run. -/
theorem of_run (h : Course g later s) (hrun : s.run g = .ok t) :
    Course g later t ∧ t.frames = [] := by
  -- the cases are those of the recursion of `run`
  induction s using Search.run.induct g with
  | case1 s hframes =>
      rw [run_of_nil hframes] at hrun
      cases hrun
      exact ⟨h, hframes⟩
  | case2 s top rest hframes fault herror =>
      rw [run_of_error hframes herror] at hrun
      cases hrun
  | case3 s top rest hframes s' hok _ ih =>
      rw [run_of_cons hframes hok] at hrun
      exact ih (h.step hframes hok) hrun

/-- The course goes on from a state without frames through the next vertices to be searched from. -/
theorem of_visits {vs : List UInt32} (h : Course g (vs ++ later) s) (hframes : s.frames = [])
    (hvisits : vs.foldlM (visit g) s = .ok t) : Course g later t ∧ t.frames = [] := by
  induction vs generalizing s with
  | nil =>
      cases hvisits
      exact ⟨h, hframes⟩
  | cons v vs ih =>
      rw [List.foldlM_cons] at hvisits
      rcases bind_eq_ok.1 hvisits with ⟨u, hvisit, hrest⟩
      rcases bind_eq_ok.1 hvisit with ⟨m, hmark, hsearch⟩
      by_cases hm : m = .unseen
      · -- an unseen vertex is entered, and the course follows its run
        subst hm
        rcases bind_eq_ok.1 hsearch with ⟨s', henter, hrun⟩
        rcases (h.enter hframes hmark henter).of_run hrun with ⟨hu, hframesu⟩
        exact ih hu hframesu hrest
      · rw [visit_of_seen hmark hm] at hvisit
        cases hvisit
        exact ih (h.skip hframes hmark hm) hframes hrest

/-- The course comes to the state after any first vertices have been searched from. -/
theorem of_front {vs : List UInt32} (hvertices : g.vertices = vs ++ later)
    (hvisits : vs.foldlM (visit g) (Search.start g) = .ok t) : Course g later t ∧ t.frames = [] := by
  refine of_visits ?_ rfl hvisits
  rw [← hvertices]
  exact .start

/-- The invariant holds in every state of the course. -/
theorem invariant (hg : g.WellFormed) (h : Course g later s) : s.Invariant g := by
  induction h with
  | start =>
      exact ⟨shape_start g, lowlinks_start g, records_start g⟩
  | skip _ _ _ _ ih =>
      exact ih
  | @enter v _ s t _ hframes hmark henter ih =>
      have hlt : v.toNat < s.marks.size := (enter_eq_ok.1 henter).1
      have hunseen : s.markOf v = .unseen := Except.ok.inj ((mark_eq hlt).symm.trans hmark)
      rcases exists_enter hlt hunseen with ⟨t', henter', henters⟩
      cases henter.symm.trans henter'
      -- a vertex that is searched from is entered without a frame that awaits it
      refine ih.enter hg henters ?_
      intro top rest hcons
      rw [hframes] at hcons
      cases hcons
  | step _ hframes hstep ih =>
      rcases ih.step hg hframes with ⟨t', hstep', _, hinvariant⟩
      cases hstep.symm.trans hstep'
      exact hinvariant

end Course

/-- `last` is the state in which the search of `g` ends: nothing is left to do in it, and what is left to do
in any state of the course leads to it. -/
structure Ends (g : Graph) (last : Search) : Prop where
  course : Course g [] last
  frames : last.frames = []
  run_eq : ∀ later s, Course g later s → (s.run g >>= later.foldlM (visit g)) = .ok last

/-- The components that are found are those of the last state. -/
theorem exists_ends {p : Partition} (hp : g.partition = .ok p) : ∃ last, Ends g last ∧ last.found = p := by
  rcases Graph.partition_eq_ok.1 hp with ⟨last, hvisits, hfound⟩
  rcases Course.of_front (List.append_nil _).symm hvisits with ⟨hcourse, hframes⟩
  refine ⟨last, ⟨hcourse, hframes, ?_⟩, hfound⟩
  intro later s hs
  rw [hs.run_eq, hvisits]

end Search
end TwoCnf
