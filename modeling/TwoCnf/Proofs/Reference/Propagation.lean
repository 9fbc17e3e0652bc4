import TwoCnf.Proofs.Reference.Engine
import TwoCnf.Proofs.Solver.Resolution
import TwoCnf.Reference.Propagation

/-!
# Propagation — following forced literals decides clauses

* `Spread.Tracks` — what holds while forced literals are followed, and `Spread.Tracks.follow`,
  `Spread.Tracks.run` — one literal, and all of them;
* `mem_of_suppose?`, `exists_of_suppose?_eq_none` — a supposition gives all that it entails, unless that
  holds two opposite literals;
* `Closed` — values under which nothing is forced that does not hold. Each variable that is settled
  keeps that (`Closed.hold`), or else the clauses contradict themselves;
* `right_engine` — so the engine that decides in this way is right.
-/

namespace TwoCnf
namespace Propagation

variable {cs : List Clause}

/-! ## What is forced -/

theorem mem_getD_force {f : Forcing} {k m l n : Lit} :
    n ∈ (force f k m).getD l [] ↔ (l = k ∧ n = m) ∨ n ∈ f.getD l [] := by
  unfold force
  rw [Std.TreeMap.getD_insert]
  by_cases hkl : k = l
  · subst hkl
    simp
  · have hne : compare k l ≠ .eq := fun hc => hkl (Std.LawfulEqOrd.eq_of_compare hc)
    rw [if_neg hne]
    simp [Ne.symm hkl]

theorem exists_mem_snoc {P : Clause → Prop} {c : Clause} :
    (∃ d ∈ cs ++ [c], P d) ↔ (∃ d ∈ cs, P d) ∨ P c := by
  simp [or_and_right, exists_or]

theorem mem_getD_forcing {l m : Lit} : m ∈ (forcing cs).getD l [] ↔ Forces cs l m := by
  unfold forcing Forces
  induction cs using List.reverseRecOn with
  | nil =>
      simp
  | append_singleton cs c ih =>
      rw [List.foldl_append, List.foldl_cons, List.foldl_nil, mem_getD_force, mem_getD_force,
        exists_mem_snoc, ← ih, Clause.Implies]
      tauto

/-! ## What the clauses are about -/

theorem mem_litsOf {l : Lit} : l ∈ litsOf cs ↔ ∃ c ∈ cs, c.Mentions l.var := by
  unfold litsOf
  induction cs using List.reverseRecOn with
  | nil =>
      simp
  | append_singleton cs c ih =>
      have hvar : ∀ k : Lit, l.var = k.var ↔ k = l ∨ k.neg = l := by
        intro k
        constructor
        · intro h
          rcases Lit.eq_or_eq_neg h with rfl | rfl
          · exact Or.inl rfl
          · exact Or.inr rfl
        · rintro (rfl | rfl) <;> rfl
      rw [List.foldl_append, List.foldl_cons, List.foldl_nil, exists_mem_snoc, ← ih,
        Clause.Mentions, hvar, hvar]
      simp only [Std.TreeSet.mem_insert, Std.LawfulEqCmp.compare_eq_iff_eq]
      tauto

theorem mem_varsOf_iff {x : UInt32} : x ∈ varsOf cs ↔ ∃ c ∈ cs, c.Mentions x := by
  unfold varsOf
  rw [Std.TreeSet.mem_toList]
  induction cs using List.reverseRecOn with
  | nil =>
      simp
  | append_singleton cs c ih =>
      rw [List.foldl_append, List.foldl_cons, List.foldl_nil, exists_mem_snoc, ← ih, Clause.Mentions]
      simp only [Std.TreeSet.mem_insert, Std.LawfulEqCmp.compare_eq_iff_eq, eq_comm (a := x)]
      tauto

theorem neg_mem_litsOf {l : Lit} (h : l ∈ litsOf cs) : l.neg ∈ litsOf cs := by
  rw [mem_litsOf] at h ⊢
  exact h

theorem mem_litsOf_of_forces {l m : Lit} (h : Forces cs l m) : m ∈ litsOf cs := by
  rcases h with ⟨c, hc, himplies⟩
  exact mem_litsOf.2 ⟨c, hc, himplies.mentions.2⟩

theorem mem_litsOf_of_entails {l m : Lit} (h : Entails cs l m) (hl : l ∈ litsOf cs) :
    m ∈ litsOf cs := by
  cases h with
  | refl =>
      exact hl
  | tail _ hforces =>
      exact mem_litsOf_of_forces hforces

/-! ## Following forced literals -/

namespace Spread

/-- The literal has come up. -/
def Reached (s : Spread) (l : Lit) : Prop :=
  l ∈ s.todo ∨ l ∈ s.forced

theorem enlist_of_mem {s : Spread} {l : Lit} (h : l ∈ s.loose) :
    s.enlist l = ⟨s.loose.erase l, l :: s.todo, s.forced⟩ :=
  if_pos h

theorem enlist_of_not_mem {s : Spread} {l : Lit} (h : l ∉ s.loose) : s.enlist l = s :=
  if_neg h

theorem mem_loose_enlist {s : Spread} {l m : Lit} :
    m ∈ (s.enlist l).loose ↔ m ∈ s.loose ∧ m ≠ l := by
  by_cases h : l ∈ s.loose
  · rw [enlist_of_mem h, Std.TreeSet.mem_erase, Ne, Std.LawfulEqCmp.compare_eq_iff_eq]
    tauto
  · rw [enlist_of_not_mem h]
    constructor
    · intro hm
      refine ⟨hm, ?_⟩
      rintro rfl
      exact h hm
    · exact And.left

theorem reached_enlist {s : Spread} {l m : Lit} :
    (s.enlist l).Reached m ↔ s.Reached m ∨ (m = l ∧ l ∈ s.loose) := by
  by_cases h : l ∈ s.loose
  · rw [enlist_of_mem h, Reached, Reached, List.mem_cons]
    tauto
  · rw [enlist_of_not_mem h]
    simp [h]

theorem forced_foldl_enlist (ls : List Lit) (s : Spread) :
    (ls.foldl enlist s).forced = s.forced := by
  induction ls generalizing s with
  | nil =>
      rfl
  | cons l ls ih =>
      rw [List.foldl_cons, ih, enlist]
      split <;> rfl

theorem mem_loose_foldl_enlist {ls : List Lit} {s : Spread} {m : Lit} :
    m ∈ (ls.foldl enlist s).loose ↔ m ∈ s.loose ∧ m ∉ ls := by
  induction ls generalizing s with
  | nil =>
      simp
  | cons l ls ih =>
      rw [List.foldl_cons, ih, mem_loose_enlist, List.mem_cons]
      tauto

theorem reached_foldl_enlist {ls : List Lit} {s : Spread} {m : Lit} :
    (ls.foldl enlist s).Reached m ↔ s.Reached m ∨ (m ∈ ls ∧ m ∈ s.loose) := by
  induction ls generalizing s with
  | nil =>
      simp
  | cons l ls ih =>
      rw [List.foldl_cons, ih, reached_enlist, mem_loose_enlist, List.mem_cons]
      by_cases hml : m = l
      -- a literal that occurs again is loose no longer, but has come up
      · subst hml
        tauto
      · tauto

/-- What holds while the literals that `l` forces are followed: those that have come up are entailed by
`l`, the others are loose, and what a followed literal forces has come up. -/
structure Tracks (cs : List Clause) (l : Lit) (s : Spread) : Prop where
  loose_iff : ∀ m ∈ litsOf cs, m ∈ s.loose ↔ ¬ s.Reached m
  entails : ∀ m, s.Reached m → Entails cs l m
  followed : ∀ m ∈ s.forced, ∀ k, Forces cs m k → s.Reached k
  start : s.Reached l

namespace Tracks

variable {l : Lit} {s : Spread}

theorem initial (hl : l ∈ litsOf cs) : Tracks cs l (enlist ⟨litsOf cs, [], []⟩ l) where
  loose_iff m hm := by
    rw [mem_loose_enlist, reached_enlist]
    simp [Reached, hl, hm]
  entails m hm := by
    rw [reached_enlist] at hm
    rcases hm with hm | ⟨rfl, _⟩
    · simp [Reached] at hm
    · exact .refl
  followed m hm := by
    rw [enlist_of_mem hl] at hm
    cases hm
  start := reached_enlist.2 (Or.inr ⟨rfl, hl⟩)

/-- Following one literal. -/
theorem follow (h : Tracks cs l s) {k : Lit} {rest : List Lit} (htodo : s.todo = k :: rest) :
    Tracks cs l (((forcing cs).getD k []).foldl enlist ⟨s.loose, rest, k :: s.forced⟩) := by
  -- taking the literal from one list to the other changes nothing about what has come up
  have hmoved : ∀ m, (Spread.mk s.loose rest (k :: s.forced)).Reached m ↔ s.Reached m := by
    intro m
    rw [Reached, Reached, htodo, List.mem_cons, List.mem_cons]
    tauto
  have hreached : ∀ m, (((forcing cs).getD k []).foldl enlist ⟨s.loose, rest, k :: s.forced⟩).Reached m ↔
      s.Reached m ∨ (Forces cs k m ∧ m ∈ s.loose) := by
    intro m
    rw [reached_foldl_enlist, hmoved, mem_getD_forcing]
  have hk : s.Reached k := by
    rw [Reached, htodo]
    exact Or.inl List.mem_cons_self
  constructor
  · intro m hm
    rw [hreached, mem_loose_foldl_enlist, mem_getD_forcing]
    have hloose := h.loose_iff m hm
    tauto
  · intro m hm
    rcases (hreached m).1 hm with hold | ⟨hforces, _⟩
    · exact h.entails m hold
    · exact (h.entails k hk).tail hforces
  · intro m hm j hforces
    rw [forced_foldl_enlist] at hm
    rw [hreached]
    rcases List.mem_cons.1 hm with rfl | hold
    · have hloose := h.loose_iff j (mem_litsOf_of_forces hforces)
      tauto
    · exact Or.inl (h.followed m hold j hforces)
  · exact (hreached l).2 (Or.inl h.start)

/-- Following all literals. -/
theorem run (h : Tracks cs l s) :
    Tracks cs l (s.run (forcing cs)) ∧ (s.run (forcing cs)).todo = [] := by
  fun_induction Spread.run (forcing cs) s with
  | case1 s htodo =>
      exact ⟨h, htodo⟩
  | case2 s k rest htodo next _ ih =>
      exact ih (h.follow htodo)

/-- In the end all that is entailed has been followed. -/
theorem mem_forced_iff (h : Tracks cs l s) (htodo : s.todo = []) (m : Lit) :
    m ∈ s.forced ↔ Entails cs l m := by
  have hreached : ∀ k, s.Reached k ↔ k ∈ s.forced := by
    intro k
    simp [Reached, htodo]
  constructor
  · intro hm
    exact h.entails m ((hreached m).2 hm)
  · intro hentails
    induction hentails with
    | refl =>
        exact (hreached l).1 h.start
    | tail _ hforces ih =>
        exact (hreached _).1 (h.followed _ ih _ hforces)

end Tracks
end Spread

/-! ## Suppositions -/

theorem isConsistent_iff {l : Lit} {s : Spread} (hl : l ∈ litsOf cs) (h : s.Tracks cs l)
    (htodo : s.todo = []) : s.isConsistent = true ↔ ∀ m ∈ s.forced, m.neg ∉ s.forced := by
  unfold Spread.isConsistent
  rw [List.all_eq_true]
  refine forall₂_congr fun m hm => ?_
  have hmem : m ∈ litsOf cs := mem_litsOf_of_entails ((h.mem_forced_iff htodo m).1 hm) hl
  rw [Std.TreeSet.contains_iff_mem, h.loose_iff m.neg (neg_mem_litsOf hmem)]
  simp [Spread.Reached, htodo]

/-- A supposition that is kept gives all that it entails. -/
theorem mem_of_suppose? {l : Lit} {forced : List Lit} (hl : l ∈ litsOf cs)
    (h : suppose? (forcing cs) (litsOf cs) l = some forced) :
    (∀ m, m ∈ forced ↔ Entails cs l m) ∧ ∀ m ∈ forced, m.neg ∉ forced := by
  rcases (Spread.Tracks.initial hl).run with ⟨htracks, htodo⟩
  rcases Option.ite_none_right_eq_some.1 h with ⟨hconsistent, hforced⟩
  rw [← Option.some.inj hforced]
  exact ⟨htracks.mem_forced_iff htodo, (isConsistent_iff hl htracks htodo).1 hconsistent⟩

/-- A supposition that is given up entails two opposite literals. -/
theorem exists_of_suppose?_eq_none {l : Lit} (hl : l ∈ litsOf cs)
    (h : suppose? (forcing cs) (litsOf cs) l = none) : ∃ m, Entails cs l m ∧ Entails cs l m.neg := by
  rcases (Spread.Tracks.initial hl).run with ⟨htracks, htodo⟩
  have hnot : ¬ ((Spread.enlist ⟨litsOf cs, [], []⟩ l).run (forcing cs)).isConsistent = true := by
    intro hconsistent
    rw [suppose?, if_pos hconsistent] at h
    cases h
  rw [isConsistent_iff hl htracks htodo] at hnot
  push Not at hnot
  rcases hnot with ⟨m, hm, hneg⟩
  exact ⟨m, (htracks.mem_forced_iff htodo m).1 hm, (htracks.mem_forced_iff htodo m.neg).1 hneg⟩

/-- What is supposed in vain is false wherever the clauses are true. -/
theorem isTrueIn_of_suppose?_eq_none {l : Lit} (hl : l ∈ litsOf cs)
    (h : suppose? (forcing cs) (litsOf cs) l = none) {v : Valuation}
    (hv : ∀ c ∈ cs, c.isTrueIn v = true) : l.isTrueIn v = false := by
  rcases exists_of_suppose?_eq_none hl h with ⟨m, hm, hneg⟩
  rw [← Bool.not_eq_true]
  intro htrue
  have hfalse := hneg.isTrueIn hv htrue
  rw [Lit.isTrueIn_neg, hm.isTrueIn hv htrue] at hfalse
  cases hfalse

/-! ## Settling variables -/

/-- The values make the literal true. -/
def Holds (values : Values) (l : Lit) : Prop :=
  values[l.var]? = some l.sign

/-- What a true literal forces is true, and only variables of the clauses have values. -/
structure Closed (cs : List Clause) (values : Values) : Prop where
  forced : ∀ l m, Holds values l → Forces cs l m → Holds values m
  within : ∀ l, Holds values l → l ∈ litsOf cs

theorem contains_iff_holds {values : Values} (l : Lit) :
    values.contains l.var = true ↔ Holds values l ∨ Holds values l.neg :=
  Partition.contains_iff_of_var l

theorem holds_hold {values : Values} {forced : List Lit} (hfree : ∀ m ∈ forced, m.neg ∉ forced)
    (m : Lit) :
    Holds (values.hold forced) m ↔ m ∈ forced ∨ (m.neg ∉ forced ∧ Holds values m) :=
  Partition.getElem?_foldl_sign forced values hfree m

/-- Making true all that a literal entails keeps values closed, and no variable loses its value. -/
theorem Closed.hold {values : Values} {l : Lit} {forced : List Lit} (h : Closed cs values)
    (hl : l ∈ litsOf cs) (hforced : ∀ m, m ∈ forced ↔ Entails cs l m) (hfree : ∀ m ∈ forced, m.neg ∉ forced) :
    Closed cs (values.hold forced) ∧ (values.hold forced).contains l.var = true ∧
      ∀ x, values.contains x = true → (values.hold forced).contains x = true := by
  refine ⟨⟨?_, ?_⟩, ?_, ?_⟩
  · intro a b ha hforces
    rw [holds_hold hfree] at ha ⊢
    rcases ha with ha | ⟨hneg, ha⟩
    · exact Or.inl ((hforced b).2 (((hforced a).1 ha).tail hforces))
    · refine Or.inr ⟨?_, h.forced a b ha hforces⟩
      -- the opposite of what is forced forces the opposite
      intro hb
      exact hneg ((hforced a.neg).2 (((hforced b.neg).1 hb).tail hforces.contrapositive))
  · intro m hm
    rcases (holds_hold hfree m).1 hm with hmem | ⟨_, hold⟩
    · exact mem_litsOf_of_entails ((hforced m).1 hmem) hl
    · exact h.within m hold
  · rw [contains_iff_holds]
    exact Or.inl ((holds_hold hfree l).2 (Or.inl ((hforced l).2 .refl)))
  · intro x hx
    have hlit : ∀ m : Lit, Holds values m → (values.hold forced).contains m.var = true := by
      intro m hm
      rw [contains_iff_holds m, holds_hold hfree, holds_hold hfree]
      by_cases hneg : m.neg ∈ forced
      · exact Or.inr (Or.inl hneg)
      · exact Or.inl (Or.inr ⟨hneg, hm⟩)
    rcases (contains_iff_holds ⟨x, true⟩).1 hx with hm | hm
    · exact hlit _ hm
    · exact hlit _ hm

/-- Settling a variable gives it a value, or else the clauses are unsatisfiable. -/
theorem Closed.settle? {values : Values} {x : UInt32} (h : Closed cs values) (hx : x ∈ varsOf cs) :
    match settle? (forcing cs) (litsOf cs) values x with
    | some after => Closed cs after ∧ after.contains x = true ∧
        ∀ y, values.contains y = true → after.contains y = true
    | none => ¬ Satisfiable cs := by
  have hmem : ∀ b, (⟨x, b⟩ : Lit) ∈ litsOf cs := fun b => mem_litsOf.2 (mem_varsOf_iff.1 hx)
  unfold Propagation.settle?
  by_cases hcontains : values.contains x = true
  · rw [if_pos hcontains]
    exact ⟨h, hcontains, fun _ hy => hy⟩
  rw [if_neg hcontains]
  cases htrue : suppose? (forcing cs) (litsOf cs) ⟨x, true⟩ with
  | some forced =>
      rcases mem_of_suppose? (hmem true) htrue with ⟨hforced, hfree⟩
      exact h.hold (hmem true) hforced hfree
  | none =>
      cases hfalse : suppose? (forcing cs) (litsOf cs) ⟨x, false⟩ with
      | some forced =>
          rcases mem_of_suppose? (hmem false) hfalse with ⟨hforced, hfree⟩
          exact h.hold (hmem false) hforced hfree
      | none =>
          -- a valuation would have to make one of the two literals true
          rintro ⟨v, hv⟩
          have hpositive := isTrueIn_of_suppose?_eq_none (hmem true) htrue hv
          have hnegative := isTrueIn_of_suppose?_eq_none (hmem false) hfalse hv
          simp_all [Lit.isTrueIn]

/-- Settling variables one by one. -/
theorem Closed.foldlM_settle? {vars : List UInt32} {values : Values} (h : Closed cs values)
    (hvars : ∀ x ∈ vars, x ∈ varsOf cs) :
    match vars.foldlM (Propagation.settle? (forcing cs) (litsOf cs)) values with
    | some after => Closed cs after ∧
        ∀ y, values.contains y = true ∨ y ∈ vars → after.contains y = true
    | none => ¬ Satisfiable cs := by
  induction vars generalizing values with
  | nil =>
      exact ⟨h, fun y hy => hy.resolve_right (by simp)⟩
  | cons x vars ih =>
      rcases List.forall_mem_cons.1 hvars with ⟨hx, hrest⟩
      have hsettled := h.settle? hx
      rw [List.foldlM_cons]
      cases hfirst : Propagation.settle? (forcing cs) (litsOf cs) values x with
      | none =>
          rw [hfirst] at hsettled
          exact hsettled
      | some next =>
          rw [hfirst] at hsettled
          rcases hsettled with ⟨hclosed, hown, hkept⟩
          have hlater := ih hclosed hrest
          rw [Option.bind_eq_bind, Option.bind_some]
          cases hall : vars.foldlM (Propagation.settle? (forcing cs) (litsOf cs)) next with
          | none =>
              rw [hall] at hlater
              exact hlater
          | some after =>
              rw [hall] at hlater
              refine ⟨hlater.1, ?_⟩
              intro y hy
              apply hlater.2
              rcases hy with hy | hy
              · exact Or.inl (hkept y hy)
              · rcases List.mem_cons.1 hy with rfl | hy
                · exact Or.inl hown
                · exact Or.inr hy

/-- The valuation of values, false where there is none. -/
def Values.valuation (values : Values) : Valuation :=
  fun x => values[x]?.getD false

theorem Holds.isTrueIn {values : Values} {l : Lit} (h : Holds values l) :
    l.isTrueIn values.valuation = true := by
  rw [Lit.isTrueIn, Values.valuation, h]
  cases l.sign <;> rfl

/-- Closed values for all variables make all clauses true. -/
theorem Closed.isTrueIn {values : Values} (h : Closed cs values)
    (hall : ∀ x ∈ varsOf cs, values.contains x = true) :
    ∀ c ∈ cs, c.isTrueIn values.valuation = true := by
  intro c hc
  rw [Clause.isTrueIn, Bool.or_eq_true]
  have hleft := hall c.left.var (mem_varsOf_iff.2 ⟨c, hc, Or.inl rfl⟩)
  rcases (contains_iff_holds c.left).1 hleft with hholds | hneg
  -- a false left literal forces the right one
  · exact Or.inl hholds.isTrueIn
  · exact Or.inr (h.forced _ _ hneg ⟨c, hc, Or.inl ⟨rfl, rfl⟩⟩).isTrueIn

/-- The values that are found are closed and leave no variable out, and if none are found, nothing makes
all clauses true. -/
theorem model?_spec (cs : List Clause) :
    match model? cs with
    | some values => Closed cs values ∧ ∀ x ∈ varsOf cs, values.contains x = true
    | none => ¬ Satisfiable cs := by
  have hempty : Closed cs ∅ := by
    constructor
    · intro l m hl
      simp [Holds] at hl
    · intro l hl
      simp [Holds] at hl
  have h := hempty.foldlM_settle? (fun _ hx => hx : ∀ x ∈ varsOf cs, x ∈ varsOf cs)
  unfold model?
  cases hmodel : (varsOf cs).foldlM (Propagation.settle? (forcing cs) (litsOf cs)) ∅ with
  | none =>
      rw [hmodel] at h
      exact h
  | some values =>
      rw [hmodel] at h
      exact ⟨h.1, fun x hx => h.2 x (Or.inr hx)⟩

theorem isSome_model?_iff (cs : List Clause) : (model? cs).isSome = true ↔ Satisfiable cs := by
  have h := model?_spec cs
  cases hmodel : model? cs with
  | none =>
      rw [hmodel] at h
      simpa using h
  | some values =>
      rw [hmodel] at h
      simpa using ⟨values.valuation, h.1.isTrueIn h.2⟩

/-! ## The engine -/

/-- The clause that two signed integers stand for. -/
def clauseOfInts (pair : Int × Int) : Clause :=
  ⟨litOfInt pair.1, litOfInt pair.2⟩

/-- The numbers that a variable can have. -/
def IsVar (n : Nat) : Prop :=
  n ≠ 0 ∧ n < UInt32.size

/-- A valuation of variables, taken as one of numbers. -/
def onNat (w : Valuation) : Nat → Bool :=
  fun n => w (UInt32.ofNat n)

theorem isTrueIn_clauseOfInts (w : Valuation) (pair : Int × Int) :
    (clauseOfInts pair).isTrueIn w = true ↔ PairTrueIn (onNat w) pair := by
  rw [Clause.isTrueIn, Bool.or_eq_true, Lit.isTrueIn_iff, Lit.isTrueIn_iff]
  rfl

/-- On the numbers that a variable can have, every valuation is one of variables. -/
theorem onNat_toNat (v : Nat → Bool) {n : Nat} (hn : IsVar n) : onNat (fun x => v x.toNat) n = v n := by
  show v (UInt32.ofNat n).toNat = v n
  rw [UInt32.toNat_ofNat_of_lt' hn.2]

/-- The clauses at hand are those that were given. -/
theorem clauses_of_reached {s : engine.State} {given : List (Int × Int)}
    (h : engine.Reached IsVar s given) : (Progress.clauses s).toList = given.map clauseOfInts ∧
      ∀ pair ∈ given, IsVar pair.1.natAbs ∧ IsVar pair.2.natAbs := by
  induction h with
  | start =>
      exact ⟨rfl, by simp⟩
  | @add s given a b _ ha hb ih =>
      constructor
      · show ((Progress.clauses s).push _).toList = _
        rw [Array.toList_push, ih.1, List.map_append]
        rfl
      · rw [List.forall_mem_append]
        refine ⟨ih.2, ?_⟩
        simpa using ⟨ha, hb⟩
  | solve _ ih =>
      exact ih

theorem satisfiable_clauseOfInts {given : List (Int × Int)}
    (hgiven : ∀ pair ∈ given, IsVar pair.1.natAbs ∧ IsVar pair.2.natAbs) :
    Satisfiable (given.map clauseOfInts) ↔ ∃ v, ∀ pair ∈ given, PairTrueIn v pair := by
  unfold Satisfiable
  simp only [List.forall_mem_map, isTrueIn_clauseOfInts]
  constructor
  · rintro ⟨w, hw⟩
    exact ⟨onNat w, hw⟩
  · rintro ⟨v, hv⟩
    refine ⟨fun x => v x.toNat, ?_⟩
    intro pair hpair
    unfold PairTrueIn IntTrueIn
    rw [onNat_toNat v (hgiven pair hpair).1, onNat_toNat v (hgiven pair hpair).2]
    exact hv pair hpair

theorem mem_toInts {values : Values} {x : Int} :
    x ∈ values.toInts ↔ ∃ l : Lit, Holds values l ∧ l.toInt = x := by
  unfold Values.toInts
  rw [List.mem_map]
  constructor
  · rintro ⟨⟨var, value⟩, hmem, rfl⟩
    exact ⟨⟨var, value⟩, Std.TreeMap.mem_toList_iff_getElem?_eq_some.1 hmem, rfl⟩
  · rintro ⟨l, hl, rfl⟩
    exact ⟨(l.var, l.sign), Std.TreeMap.mem_toList_iff_getElem?_eq_some.2 hl, rfl⟩

/-- A variable with a value is named. -/
theorem exists_mem_toInts {values : Values} {n : Nat} (hn : IsVar n)
    (h : values.contains (UInt32.ofNat n) = true) : ∃ x ∈ values.toInts, x.natAbs = n := by
  have hnamed : ∀ l : Lit, l.var = UInt32.ofNat n → Holds values l →
      ∃ x ∈ values.toInts, x.natAbs = n := by
    intro l hvar hl
    refine ⟨l.toInt, mem_toInts.2 ⟨l, hl, rfl⟩, ?_⟩
    rw [Lit.natAbs_toInt, hvar, UInt32.toNat_ofNat_of_lt' hn.2]
  rcases (contains_iff_holds ⟨UInt32.ofNat n, true⟩).1 h with hl | hl
  · exact hnamed _ rfl hl
  · exact hnamed _ rfl hl

/-- Zero is no variable of the clauses. -/
theorem ne_zero_of_mem_litsOf {given : List (Int × Int)}
    (hgiven : ∀ pair ∈ given, IsVar pair.1.natAbs ∧ IsVar pair.2.natAbs) {l : Lit}
    (hl : l ∈ litsOf (given.map clauseOfInts)) : l.var ≠ 0 := by
  have hvar : ∀ n, IsVar n → UInt32.ofNat n ≠ 0 := by
    intro n hn hzero
    have hnat := UInt32.toNat_ofNat_of_lt' hn.2
    rw [hzero] at hnat
    exact hn.1 hnat.symm
  rcases mem_litsOf.1 hl with ⟨c, hc, hmentions⟩
  rcases List.mem_map.1 hc with ⟨pair, hpair, rfl⟩
  rcases hmentions with hleft | hright
  · rw [hleft]
    exact hvar _ (hgiven pair hpair).1
  · rw [hright]
    exact hvar _ (hgiven pair hpair).2

/-- A literal that holds is true as a signed integer. -/
theorem Holds.intTrueIn {values : Values} {l : Lit} (h : Holds values l) (hne : l.var ≠ 0) :
    IntTrueIn (onNat values.valuation) l.toInt := by
  rw [Lit.intTrueIn_toInt hne]
  unfold onNat
  simp only [UInt32.ofNat_toNat]
  exact h.isTrueIn

/-- The engine decides clauses, and its model is made of the values that it found. -/
theorem right_engine : engine.Right IsVar where
  ne_zero := fun _ h => h.1
  decides := by
    intro s given hreached
    rcases clauses_of_reached hreached with ⟨hclauses, hgiven⟩
    refine ⟨_, rfl, ?_⟩
    rw [isSome_model?_iff, hclauses, satisfiable_clauseOfInts hgiven]
  model := by
    intro s given hreached hsat
    rcases clauses_of_reached hreached with ⟨hclauses, hgiven⟩
    have hspec := model?_spec (Progress.clauses s).toList
    cases hmodel : model? (Progress.clauses s).toList with
    | none =>
        have hnone : (model? (Progress.clauses s).toList).isSome = true := Except.ok.inj hsat
        rw [hmodel] at hnone
        cases hnone
    | some values =>
        rw [hmodel] at hspec
        rcases hspec with ⟨hclosed, hall⟩
        -- one valuation makes the clauses true and agrees with all literals that are named
        have htrue := hclosed.isTrueIn hall
        rw [hclauses] at htrue hclosed hall
        refine ⟨values.toInts, ?_, ⟨onNat values.valuation, ?_, ?_⟩, ?_⟩
        · show (model? (Progress.clauses s).toList).map Values.toInts = _
          rw [hmodel]
          rfl
        · intro pair hpair
          rw [← isTrueIn_clauseOfInts]
          exact htrue _ (List.mem_map_of_mem hpair)
        · intro x hx
          rcases mem_toInts.1 hx with ⟨l, hl, rfl⟩
          exact hl.intTrueIn (ne_zero_of_mem_litsOf hgiven (hclosed.within l hl))
        · intro pair hpair
          have hmem : clauseOfInts pair ∈ given.map clauseOfInts := List.mem_map_of_mem hpair
          exact
            ⟨exists_mem_toInts (hgiven pair hpair).1
              (hall _ (mem_varsOf_iff.2 ⟨_, hmem, Or.inl rfl⟩)),
            exists_mem_toInts (hgiven pair hpair).2
              (hall _ (mem_varsOf_iff.2 ⟨_, hmem, Or.inr rfl⟩))⟩

end Propagation
end TwoCnf
