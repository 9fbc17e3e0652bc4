import TwoCnf.Proofs.Solver.Session
import TwoCnf.Proofs.Solver.Table
import TwoCnf.Proofs.Text.Words

/-!
# Density — a model and the table of its values

A model stores some of its values, and the values that are not stored are false. The table of its values
leaves nothing out, and no reading of the model can tell it from the model of that table.

* `Model.dense` — the values of the covered variables, listed as a table;
* `Model.Agrees` — two models have the same values, and so the same checks and the same tokens
  (`Model.Agrees.check_eq`, `Model.Agrees.line_eq`);
* `Model.agrees_dense` — a model agrees with that of its table;
* `Model.words_line` — the tokens of a model, variable by variable;
* `Model.beq_dense_iff` — the two store the same exactly if the model stores nothing false;
* `dense_table_agrees` — all this for any model, and a solver's model that stores something false.
-/

namespace TwoCnf
namespace Model

/-- The values of the covered variables as they are listed, behind a false one for place `0`. -/
def dense (m : Model) : Array Bool :=
  (false :: m.entries.map Prod.snd).toArray

theorem size_dense (m : Model) : m.dense.size = m.numVars.toNat + 1 := by
  simp [dense, entries, varsUpTo]

theorem size_dense_le (m : Model) : m.dense.size ≤ UInt32.size := by
  rw [size_dense]
  exact m.numVars.toNat_lt

/-! ## The values of a table -/

theorem toNat_sub_add_one {x : UInt32} (hx : x ≠ 0) : x.toNat - 1 + 1 = x.toNat :=
  Nat.sub_add_cancel (Nat.pos_of_ne_zero fun hzero => hx (UInt32.toNat_inj.1 hzero))

/-- The variables up to a bound are listed in order from `1`. -/
theorem getElem?_varsUpTo {x upto : UInt32} (hx : x ≠ 0) (hle : x ≤ upto) :
    (varsUpTo upto)[x.toNat - 1]? = some x := by
  have hplace := toNat_sub_add_one hx
  have hlt : x.toNat - 1 < upto.toNat := by
    rw [UInt32.le_iff_toNat_le] at hle
    omega
  unfold varsUpTo
  rw [List.getElem?_map, List.getElem?_range hlt, Option.map_some, hplace, UInt32.ofNat_toNat]

/-- Each covered variable has its value at its place. -/
theorem getElem?_dense {m : Model} {x : UInt32} (hx : x ≠ 0) (hle : x ≤ m.numVars) :
    m.dense[x.toNat]? = some (m.read x) := by
  unfold dense entries
  rw [List.getElem?_toArray, ← toNat_sub_add_one hx, List.getElem?_cons_succ, List.getElem?_map,
    List.getElem?_map, getElem?_varsUpTo hx hle]
  rfl

theorem value?_eq_none_iff {m : Model} {x : UInt32} :
    m.value? x = none ↔ x = 0 ∨ m.numVars < x := by
  unfold value?
  split
  · rename_i hout
    exact iff_of_true rfl hout
  · rename_i hin
    exact iff_of_false (Option.some_ne_none _) hin

/-! ## Models that agree -/

/-- Two models cover the same variables and have the same values for them. -/
structure Agrees (m n : Model) : Prop where
  numVars : m.numVars = n.numVars
  value? : ∀ x, m.value? x = n.value? x

namespace Agrees

variable {m n : Model}

/-- Clauses see no more of a model than its values. -/
theorem holds_eq (h : m.Agrees n) (c : Clause) : c.holds m = c.holds n := by
  unfold Clause.holds Lit.eval?
  rw [h.value?, h.value?]

theorem check_eq (h : m.Agrees n) (f : Formula) : f.check m = f.check n := by
  unfold Formula.check
  congr 1
  funext c
  exact h.holds_eq c

theorem line_eq (h : m.Agrees n) (upto : UInt32) : m.line upto = n.line upto := by
  unfold line
  simp only [h.value?]

end Agrees

/-- A model agrees with the model of its table. -/
theorem agrees_dense (m : Model) : (ofBits m.dense).Agrees m := by
  have hnumVars : (ofBits m.dense).numVars = m.numVars := by
    apply UInt32.toNat_inj.1
    rw [numVars_ofBits m.size_dense_le, size_dense, Nat.add_sub_cancel]
  refine ⟨hnumVars, ?_⟩
  intro x
  by_cases hout : x = 0 ∨ m.numVars < x
  · -- out of range, neither has a value
    have hout' : x = 0 ∨ (ofBits m.dense).numVars < x := by
      rw [hnumVars]
      exact hout
    rw [value?_eq_none_iff.2 hout, value?_eq_none_iff.2 hout']
  · rcases not_or.1 hout with ⟨hx, hnot⟩
    have hle : x ≤ m.numVars := UInt32.not_lt.1 hnot
    have hread : (ofBits m.dense).read x = m.read x := by
      rw [read_ofBits m.size_dense_le hx, Valuation.ofTable, Array.getD_eq_getD_getElem?,
        getElem?_dense hx hle]
      rfl
    rw [value?_eq_read hx hle, value?_eq_read hx (hnumVars ▸ hle), hread]

/-! ## Tokens -/

/-- The token of a variable: `1` for a true one, `0` for one that is false or out of range. -/
def token (m : Model) (x : UInt32) : List Char :=
  if m.value? x = some true then ['1'] else ['0']

theorem solid_token (m : Model) (x : UInt32) : Text.Solid (m.token x) := by
  unfold token
  split
  · simp [Text.Solid, Text.isBlank, Text.blankRanges]
  · simp [Text.Solid, Text.isBlank, Text.blankRanges]

/-- The words of the line are the tokens of the variables in order. -/
theorem words_line (m : Model) (upto : UInt32) :
    Text.words (m.line upto).toList = (varsUpTo upto).map m.token := by
  have htoken : ∀ x, (if (m.value? x).getD false then "1" else "0").toList = m.token x := by
    intro x
    unfold token
    rcases m.value? x with _ | _ | _ <;> rfl
  have hline : (m.line upto).toList = [' '].intercalate ((varsUpTo upto).map m.token) := by
    unfold line
    rw [String.toList_intercalate, List.map_map]
    congr 1
    exact List.map_congr_left fun x _ => htoken x
  rw [hline]
  apply Text.words_intercalate_solid (by decide)
  intro word hword
  rcases List.mem_map.1 hword with ⟨x, _, rfl⟩
  exact m.solid_token x

/-! ## Stored entries -/

/-- The model of a table stores true values only. -/
theorem getElem?_foldl_true_ne (pairs : List (Bool × Nat)) (stored : Std.TreeMap UInt32 Bool)
    (x : UInt32) (h : stored[x]? ≠ some false) :
    (pairs.foldl (fun stored (bit, var) => if bit then stored.insert (UInt32.ofNat var) true else stored)
      stored)[x]? ≠ some false := by
  induction pairs generalizing stored with
  | nil =>
      exact h
  | cons pair pairs ih =>
      rcases pair with ⟨bit, n⟩
      apply ih
      cases bit with
      | false =>
          exact h
      | true =>
          simp only [if_true, getElem?_insert_eq]
          split
          · simp
          · exact h

/-- What the model of a table stores: the variables whose bits are true. -/
theorem getElem?_stored_ofBits {bits : Array Bool} (hsize : bits.size ≤ UInt32.size) (x : UInt32)
    (value : Bool) : (ofBits bits).stored[x]? = some value ↔
      value = true ∧ x ≠ 0 ∧ bits[x.toNat]? = some true := by
  have hne : (ofBits bits).stored[x]? ≠ some false := getElem?_foldl_true_ne _ _ x (by simp)
  by_cases hx : x = 0
  · -- place `0` is passed over, and no other place has that number
    have hzero : (ofBits bits).stored[x]? ≠ some true := by
      intro hstored
      unfold ofBits at hstored
      rcases (getElem?_foldl_true _ _ x).1 hstored with ⟨n, hn, hnx⟩ | hempty
      · rcases mem_drop_zipIdx.1 hn with ⟨hn0, hbit⟩
        rw [Array.getElem?_toList] at hbit
        have hlt : n < UInt32.size :=
          Nat.lt_of_lt_of_le (Array.getElem?_eq_some_iff.1 hbit).1 hsize
        apply hn0
        rw [← UInt32.toNat_ofNat_of_lt' hlt, hnx, hx]
        rfl
      · simp at hempty
    cases value <;> simp [hx ▸ hne, hx ▸ hzero, hx]
  · cases value with
    | false =>
        simp [hne]
    | true =>
        simp [stored_ofBits hsize hx, hx]

theorem beq_iff {m n : Model} :
    (m == n) = true ↔ m.numVars = n.numVars ∧ ∀ x : UInt32, m.stored[x]? = n.stored[x]? := by
  show (m.numVars == n.numVars && m.stored == n.stored) = true ↔ _
  rw [Bool.and_eq_true, beq_iff_eq, Std.TreeMap.beq_iff_equiv]
  constructor
  · rintro ⟨hnumVars, hequiv⟩
    exact ⟨hnumVars, fun x => hequiv.getElem?_eq⟩
  · rintro ⟨hnumVars, hstored⟩
    exact ⟨hnumVars, Std.TreeMap.Equiv.of_forall_constGet?_eq hstored⟩

/-- A model stores what the model of its table stores exactly if it stores nothing but that covered
variables are true. -/
theorem beq_dense_iff (m : Model) : (m == ofBits m.dense) = true ↔
    ∀ x value, m.stored[x]? = some value → value = true ∧ x ≠ 0 ∧ x ≤ m.numVars := by
  have hdense := getElem?_stored_ofBits m.size_dense_le
  rw [beq_iff]
  constructor
  · rintro ⟨_, hstored⟩ x value hvalue
    rw [hstored] at hvalue
    rcases (hdense x value).1 hvalue with ⟨htrue, hx, hbit⟩
    have hlt : x.toNat < m.dense.size := (Array.getElem?_eq_some_iff.1 hbit).1
    rw [size_dense] at hlt
    exact ⟨htrue, hx, UInt32.le_iff_toNat_le.2 (Nat.le_of_lt_succ hlt)⟩
  · intro hall
    refine ⟨m.agrees_dense.numVars.symm, ?_⟩
    intro x
    apply Option.ext
    intro value
    rw [hdense]
    constructor
    · intro hvalue
      rcases hall x value hvalue with ⟨rfl, hx, hle⟩
      refine ⟨rfl, hx, ?_⟩
      rw [getElem?_dense hx hle, read, Std.TreeMap.get?_eq_getElem?, hvalue]
      rfl
    · rintro ⟨rfl, hx, hbit⟩
      have hlt : x.toNat < m.dense.size := (Array.getElem?_eq_some_iff.1 hbit).1
      rw [size_dense] at hlt
      -- a variable reads true only if it is stored so
      rw [getElem?_dense hx (UInt32.le_iff_toNat_le.2 (Nat.le_of_lt_succ hlt)), read,
        Std.TreeMap.get?_eq_getElem?] at hbit
      rcases hstored : m.stored[x]? with _ | _ | _
      · simp [hstored] at hbit
      · simp [hstored] at hbit
      · rfl

end Model

/-- Any model, and the table of the values that it lists. The model of the table covers the same variables
and has the same values; variables out of range, and no others, have none. The words of the model's line up
to any variable are the tokens of the variables from `1` on, `0` for those past the end, and the model of
the table has the same line. Every formula checks both alike. Yet they store the same only if the model
stores nothing but that covered variables are true, and a model that a solver gives may store more. -/
theorem dense_table_agrees (m : Model) :
    (Model.ofBits m.dense).numVars = m.numVars ∧
      (∀ x, (Model.ofBits m.dense).value? x = m.value? x) ∧
      (∀ x, m.value? x = none ↔ x = 0 ∨ m.numVars < x) ∧
      (∀ upto, ∃ tokens, Text.words (m.line upto).toList = tokens ∧ tokens.length = upto.toNat ∧
        (∀ x, x ≠ 0 → x ≤ upto →
          tokens[x.toNat - 1]? = some (if m.value? x = some true then ['1'] else ['0'])) ∧
        (Model.ofBits m.dense).line upto = m.line upto) ∧
      (∀ f : Formula, f.check m = f.check (.ofBits m.dense)) ∧
      ((m == .ofBits m.dense) = true ↔
        ∀ x value, m.stored[x]? = some value → value = true ∧ x ≠ 0 ∧ x ≤ m.numVars) ∧
      ∃ s n, Solver.ofClauses [(-1, -1)] = .ok s ∧ (s.perform .model).1 = .model (some n) ∧
        (n == .ofBits n.dense) = false := by
  have hagrees := m.agrees_dense
  refine ⟨hagrees.numVars, hagrees.value?, fun _ => Model.value?_eq_none_iff, ?_,
    fun f => (hagrees.check_eq f).symm, m.beq_dense_iff, ?_⟩
  · intro upto
    refine ⟨_, m.words_line upto, by simp [Model.varsUpTo], ?_, hagrees.line_eq upto⟩
    intro x hx hle
    rw [List.getElem?_map, Model.getElem?_varsUpTo hx hle]
    rfl
  · have hne : ∀ halves ∈ [((-1 : Int32), (-1 : Int32))], halves.1 ≠ 0 ∧ halves.2 ≠ 0 := by
      intro halves hmem
      rw [List.mem_singleton.1 hmem]
      decide
    have hdiffers : (match ((Solver.ofHalves [(-1, -1)]).perform .model).1 with
        | .model found => found.elim true fun n => n == .ofBits n.dense
        | _ => true) = false := by
      decide +kernel
    split at hdiffers
    · rename_i found hanswer
      cases found with
      | none =>
          cases hdiffers
      | some n =>
          exact ⟨_, n, Solver.ofClauses_eq_ok.2 ⟨hne, rfl⟩, hanswer, hdiffers⟩
    · cases hdiffers

end TwoCnf
