import Mathlib.Order.Interval.Finset.Nat
import TwoCnf.Proofs.Listing.Encoding
import TwoCnf.Proofs.Listing.RoundTrip
import TwoCnf.Proofs.Random.Drawing
import TwoCnf.Proofs.Solver.Session

/-!
# Pipeline — from a recipe through a file to a verdict

* `Listing.numVars_of_le` — a declared count that no half exceeds is the count that is written;
* `Recipe.Followed` is carried through: `counted_eq` to the text and back, `ne_zero` and `size_lt` to the
  solver, `satisfiable` to the verdict;
* `generated_solved` — every instance that is generated is read back as it was, loaded without loss and, if
  it was planted, solved.
-/

namespace TwoCnf

/-! ## Counting a listing -/

theorem max_le_of_le {x y bound : UInt32} (hx : x ≤ bound) (hy : y ≤ bound) : max x y ≤ bound := by
  have hmax : max x y = if x ≤ y then y else x := rfl
  rw [hmax]
  split
  · exact hy
  · exact hx

theorem Listing.numVars_of_le {l : Listing} {declared : UInt32} (hl : l.declaredVars = some declared)
    (hle : ∀ halves ∈ l.clauses, magnitude halves.1 ≤ declared ∧ magnitude halves.2 ≤ declared) :
    l.numVars = declared := by
  have hfold : ∀ (clauses : List (Int32 × Int32)) (top : UInt32), top ≤ declared →
      (∀ halves ∈ clauses, magnitude halves.1 ≤ declared ∧ magnitude halves.2 ≤ declared) →
      clauses.foldl (fun top halves => max top (max (magnitude halves.1) (magnitude halves.2))) top ≤
        declared := by
    intro clauses
    induction clauses with
    | nil =>
        intro top htop _
        exact htop
    | cons halves clauses ih =>
        intro top htop hclauses
        rcases List.forall_mem_cons.1 hclauses with ⟨hfirst, hrest⟩
        exact ih _ (max_le_of_le htop (max_le_of_le hfirst.1 hfirst.2)) hrest
  have hmaxVar : l.maxVar ≤ declared := hfold l.clauses 0 UInt32.zero_le hle
  unfold numVars
  rw [hl]
  have hmax : max declared l.maxVar = if declared ≤ l.maxVar then l.maxVar else declared := rfl
  show max declared l.maxVar = declared
  rw [hmax]
  split
  · rename_i hge
    exact UInt32.le_antisymm hmaxVar hge
  · rfl

/-! ## What a followed recipe brings along -/

namespace Recipe.Followed

variable {r : Recipe} {i : Instance}

/-- The counts that are written are those that were asked for. -/
theorem counted_eq (h : r.Followed i) : i.listing.counted = i.listing := by
  have hvars : i.listing.numVars = r.vars :=
    Listing.numVars_of_le h.declaredVars fun halves hmem =>
      ⟨(h.sound halves hmem).left.le, (h.sound halves hmem).right.le⟩
  unfold Listing.counted
  rw [hvars, h.length, UInt64.ofNat_toNat, ← h.declaredVars, ← h.declaredClauses]

theorem ne_zero (h : r.Followed i) : ∀ halves ∈ i.listing.clauses, halves.1 ≠ 0 ∧ halves.2 ≠ 0 :=
  fun halves hmem => ⟨(h.sound halves hmem).left.ne_zero, (h.sound halves hmem).right.ne_zero⟩

theorem solver_eq (h : r.Followed i) :
    (Loading.ofListing i.listing).solver = Solver.ofHalves i.listing.clauses := by
  rw [Loading.solver_ofListing, admissible_eq_self h.ne_zero]

theorem skipped_eq (h : r.Followed i) : (Loading.ofListing i.listing).skipped = #[] := by
  apply Array.toList_inj.1
  have hnone : i.listing.clauses.filter (fun halves => halves.1 = 0 ∨ halves.2 = 0) = [] := by
    rw [List.filter_eq_nil_iff]
    intro halves hmem
    simpa using h.ne_zero halves hmem
  rw [Loading.skipped_ofListing, hnone]
  rfl

/-- Variables end at `2147483647`, so all literals can be numbered. -/
theorem size_lt (h : r.Followed i) (hvars : r.vars.toNat < 2147483648) :
    (Solver.ofHalves i.listing.clauses).formula.numbering.size < UInt32.size := by
  apply Solver.size_ofHalves_lt h.ne_zero
  have hmem : ∀ x ∈ (varsOf i.listing.clauses).toFinset, x.toNat ∈ Finset.Icc 1 r.vars.toNat := by
    intro x hx
    rcases mem_varsOf.1 (List.mem_toFinset.1 hx) with ⟨halves, hhalves, rfl | rfl⟩
    · exact Finset.mem_Icc.2 (h.sound halves hhalves).left.toNat_bounds
    · exact Finset.mem_Icc.2 (h.sound halves hhalves).right.toNat_bounds
  calc
    (varsOf i.listing.clauses).toFinset.card
        ≤ (Finset.Icc 1 r.vars.toNat).card :=
          Finset.card_le_card_of_injOn UInt32.toNat hmem fun _ _ _ _ => UInt32.toNat_inj.1
    _ = r.vars.toNat := by simp
    _ < 2147483648 := hvars

/-- The hidden table makes every clause true. -/
theorem satisfiable (h : r.Followed i) (hplanted : r.planted = true) :
    Satisfiable (Solver.ofHalves i.listing.clauses).formula.clauses.toList := by
  have hsome := h.hides.isSome.trans hplanted
  rcases Option.isSome_iff_exists.1 hsome with ⟨table, htable⟩
  rw [Solver.satisfiable_ofHalves]
  exact ⟨Valuation.ofTable table, fun halves hmem => (h.sound halves hmem).isTrue table htable⟩

end Recipe.Followed

/-- A formula that has a model gets a verdict with one. -/
theorem Solver.exists_verdict {clauses : List (Int32 × Int32)}
    (hz : ∀ halves ∈ clauses, halves.1 ≠ 0 ∧ halves.2 ≠ 0)
    (hsize : (ofHalves clauses).formula.numbering.size < UInt32.size)
    (hsat : Satisfiable (ofHalves clauses).formula.clauses.toList) :
    ∃ model s, (verdict (ofHalves clauses)).result = .ok (.satisfiable model, s) ∧
      (ofHalves clauses).formula.check model = true := by
  have hbuilt := built_ofHalves hz
  have hcoherent := hbuilt.coherent hsize
  rcases hbuilt.exists_analyse hsize with ⟨a, ha, hrep⟩
  have hsnapshot : (ofHalves clauses).snapshot = .ok a := (snapshot_ofHalves clauses).trans ha
  have hnone := (Formula.conflict?_eq_none_iff hbuilt hcoherent hrep).2 hsat
  have hfree := hrep.tidy.conflict?_eq_none_iff.1 hnone
  refine ⟨a.partition.resolve (ofHalves clauses).formula.maxVar,
    { ofHalves clauses with analysis := some a }, ?_,
    Formula.check_resolve hbuilt hcoherent hrep hfree⟩
  rw [verdict_eq, reading_of_ok hsnapshot, Analysis.verdict, hnone]

/-- An instance that is generated, from whatever words, is read back from its text and from the bytes of its
text as it was. Loading it skips nothing and gives as many clauses as were asked for. If it was planted, the
verdict has a model, and the model checks. -/
theorem generated_solved {σ : Type} {next : σ → UInt32 × σ} {source : σ} {r : Recipe} {i : Instance}
    (h : r.generateFrom next source = .ok i) :
    Listing.parse i.listing.render = .ok i.listing ∧
      Listing.parseBytes i.listing.render.toUTF8 = .ok i.listing ∧
      i.listing.declaredVars = some r.vars ∧ i.listing.declaredClauses = some r.clauses ∧
      (Loading.ofListing i.listing).skipped = #[] ∧
      (Loading.ofListing i.listing).solver.formula.counts.clauses = r.clauses.toNat ∧
      (r.planted = true → ∃ model s,
        (Solver.verdict (Loading.ofListing i.listing).solver).result = .ok (.satisfiable model, s) ∧
          (Loading.ofListing i.listing).solver.formula.check model = true) := by
  rcases Recipe.followed_of_generateFrom h with ⟨hcomplaint, hfollowed⟩
  have hvars := (Recipe.complaint?_eq_none_iff.1 hcomplaint).2.1
  have hparse : Listing.parse i.listing.render = .ok i.listing := by
    have hlen : i.listing.clauses.length < UInt64.size := by
      rw [hfollowed.length]
      exact r.clauses.toNat_lt
    rw [i.listing.parse_render hlen, hfollowed.counted_eq]
  refine ⟨hparse, (Listing.parseBytes_toUTF8 _).trans hparse, hfollowed.declaredVars,
    hfollowed.declaredClauses, hfollowed.skipped_eq, ?_, ?_⟩
  · rw [hfollowed.solver_eq]
    show (Solver.ofHalves i.listing.clauses).formula.clauses.size = _
    rw [← Array.length_toList, Solver.clauses_ofHalves, List.length_map, hfollowed.length]
  · intro hplanted
    rw [hfollowed.solver_eq]
    exact Solver.exists_verdict hfollowed.ne_zero (hfollowed.size_lt hvars)
      (hfollowed.satisfiable hplanted)

/-- Four clauses over three variables. The table that they are planted around is not the model that is
found. -/
def fourClauses : Listing :=
  ⟨some 3, some 4, [(1, -1), (3, 1), (-1, -3), (2, -3)]⟩

theorem generated_solved_fourClauses :
    Recipe.generate ⟨3, 4, 3, true⟩ = .ok ⟨fourClauses, some #[false, false, true, true]⟩ ∧
      Listing.parseBytes fourClauses.render.toUTF8 = .ok fourClauses ∧
      (Loading.ofListing fourClauses).skipped = #[] ∧
      ∃ model s,
        (Solver.verdict (Loading.ofListing fourClauses).solver).result = .ok (.satisfiable model, s) ∧
        (Loading.ofListing fourClauses).solver.formula.check model = true := by
  have hgenerate : Recipe.generate ⟨3, 4, 3, true⟩ =
      .ok ⟨fourClauses, some #[false, false, true, true]⟩ := by
    decide +kernel
  rcases generated_solved hgenerate with ⟨_, hparse, _, _, hskipped, _, hsolved⟩
  exact ⟨hgenerate, hparse, hskipped, hsolved rfl⟩

end TwoCnf
