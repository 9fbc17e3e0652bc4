import Std.Data.TreeSet
import TwoCnf.Reference.Engine
import TwoCnf.Valuation

/-!
# Propagation — satisfiability by following forced literals

In a clause `a ∨ b` the literal `b` is forced once `¬a` holds. A variable is settled by supposing one of
its literals and following what is forced from there: if no two opposite literals come up, all that came
up can be kept, whatever else is to be decided; if they do, the other literal has to hold. Clauses are
unsatisfiable only if both suppositions fail for some variable. This takes no notice of components.

* `forcing` gathers what each literal forces;
* `Spread.run` follows forced literals, each once;
* `suppose?` keeps the literals that a supposition forces, unless two of them are opposite;
* `model?` settles the variables of clauses one by one;
* `engine` is an engine that decides in this way.
-/

namespace TwoCnf
namespace Propagation

/-! ## What is forced -/

/-- The literals that each literal forces. -/
abbrev Forcing :=
  Std.TreeMap Lit (List Lit)

/-- Notes that `l` forces `m`. -/
def force (f : Forcing) (l m : Lit) : Forcing :=
  f.insert l (m :: f.getD l [])

/-- What each literal forces by way of clauses. -/
def forcing (cs : List Clause) : Forcing :=
  cs.foldl (fun f c => force (force f c.left.neg c.right) c.right.neg c.left) ∅

/-! ## Following forced literals -/

/-- The literals that are not forced so far, those that are forced and still have to be followed, and
those that have been followed. -/
structure Spread where
  loose : Std.TreeSet Lit
  todo : List Lit
  forced : List Lit

namespace Spread

/-- Puts a loose literal among those to follow. -/
def enlist (s : Spread) (l : Lit) : Spread :=
  if s.loose.contains l then { s with loose := s.loose.erase l, todo := l :: s.todo } else s

/-- How many literals may still be followed. -/
def size (s : Spread) : Nat :=
  s.loose.size + s.todo.length

theorem size_pos_of_contains {t : Std.TreeSet Lit} {l : Lit} (h : t.contains l = true) :
    0 < t.size := by
  have hne := Std.TreeSet.isEmpty_eq_false_iff_exists_contains_eq_true.2 ⟨l, h⟩
  rw [Std.TreeSet.isEmpty_eq_size_eq_zero] at hne
  exact Nat.pos_of_ne_zero (by simpa using hne)

theorem size_enlist (s : Spread) (l : Lit) : (s.enlist l).size = s.size := by
  unfold enlist
  split
  · rename_i h
    have := size_pos_of_contains h
    simp only [size, Std.TreeSet.size_erase, if_pos h, List.length_cons]
    omega
  · rfl

theorem size_foldl_enlist (ls : List Lit) (s : Spread) : (ls.foldl enlist s).size = s.size := by
  induction ls generalizing s with
  | nil => rfl
  | cons l ls ih => rw [List.foldl_cons, ih, size_enlist]

/-- Follows literals and all that they force. -/
def run (f : Forcing) (s : Spread) : Spread :=
  match h : s.todo with
  | [] => s
  | l :: rest =>
      let next := (f.getD l []).foldl enlist { s with todo := rest, forced := l :: s.forced }
      have : next.size < s.size := by
        rw [size_foldl_enlist]
        simp [size, h]
      run f next
termination_by s.size

end Spread

/-- Whether no forced literal is opposite to another. -/
def Spread.isConsistent (s : Spread) : Bool :=
  s.forced.all fun l => s.loose.contains l.neg

/-- The literals that hold once `l` does, unless two of them are opposite. -/
def suppose? (f : Forcing) (all : Std.TreeSet Lit) (l : Lit) : Option (List Lit) :=
  let s := (Spread.enlist ⟨all, [], []⟩ l).run f
  if s.isConsistent then some s.forced else none

/-! ## Settling variables -/

/-- The literals of the variables of clauses. -/
def litsOf (cs : List Clause) : Std.TreeSet Lit :=
  cs.foldl
    (fun all c => (((all.insert c.left).insert c.left.neg).insert c.right).insert c.right.neg) ∅

/-- The variables of clauses, ascending. -/
def varsOf (cs : List Clause) : List UInt32 :=
  (cs.foldl (fun all c => (all.insert c.left.var).insert c.right.var)
    (∅ : Std.TreeSet UInt32)).toList

/-- Values of variables. -/
abbrev Values :=
  Std.TreeMap UInt32 Bool

/-- Makes literals true. -/
def Values.hold (values : Values) (ls : List Lit) : Values :=
  ls.foldl (fun values l => values.insert l.var l.sign) values

/-- Gives a variable a value, and all variables that are forced along with it. -/
def settle? (f : Forcing) (all : Std.TreeSet Lit) (values : Values) (v : UInt32) : Option Values :=
  if values.contains v then some values
  else
    match suppose? f all ⟨v, true⟩ with
    | some forced => some (values.hold forced)
    | none => (suppose? f all ⟨v, false⟩).map values.hold

/-- Values for the variables of clauses under which all clauses hold, if there are any. -/
def model? (cs : List Clause) : Option Values :=
  (varsOf cs).foldlM (settle? (forcing cs) (litsOf cs)) ∅

/-! ## The engine -/

/-- The clauses so far, and the values found for them by the last decision. -/
structure Progress where
  clauses : Array Clause
  found : Option Values

/-- The literal that a signed integer stands for. -/
def litOfInt (x : Int) : Lit :=
  ⟨UInt32.ofNat x.natAbs, decide (0 < x)⟩

/-- The values as literals. -/
def Values.toInts (values : Values) : List Int :=
  values.toList.map fun (var, value) => (Lit.mk var value).toInt

/-- Decides all clauses anew each time. It does not fail. -/
def engine : Engine where
  State := Progress
  start := ⟨#[], none⟩
  add s a b := ⟨s.clauses.push ⟨litOfInt a, litOfInt b⟩, none⟩
  solve s :=
    let found := model? s.clauses.toList
    (.ok found.isSome, { s with found := found })
  model? s := s.found.map Values.toInts

end Propagation
end TwoCnf
