import TwoCnf.Fault

/-!
# Recorded — computations that leave a record of their searches

A search of a graph is costly, so each one leaves a `SearchRecord`. A `Recorded` computation comes to a
result or a fault, and has the records of all searches that were finished on the way. Parts one after
the other have their records one after the other; a fault ends the computation and takes no record back.
-/

namespace TwoCnf

/-- The sizes of a search: what it had before it, and how many components it closed. -/
structure SearchRecord where
  vertices : Nat
  edges : Nat
  components : Nat
  deriving DecidableEq, Repr

/-- What a computation comes to, and the records of its searches in order. -/
@[ext] structure Recorded (α : Type) where
  result : Except Fault α
  searches : List SearchRecord

namespace Recorded

variable {α β : Type}

/-- A result without any search. -/
def ofResult (result : Except Fault α) : Recorded α :=
  ⟨result, []⟩

/-- Goes on from the result of a computation. -/
def andThen (first : Recorded α) (next : α → Recorded β) : Recorded β :=
  match first.result with
  | .error fault => ⟨.error fault, first.searches⟩
  | .ok a =>
      let second := next a
      ⟨second.result, first.searches ++ second.searches⟩

instance instMonad : Monad Recorded where
  pure a := ofResult (.ok a)
  bind := andThen

instance instMonadLift : MonadLift (Except Fault) Recorded where
  monadLift := ofResult

/-- Leaves a record. -/
def record (search : SearchRecord) : Recorded Unit :=
  ⟨.ok (), [search]⟩

/-! ## Parts of a computation -/

theorem result_bind (first : Recorded α) (next : α → Recorded β) :
    (first >>= next).result = first.result >>= fun a => (next a).result := by
  show (andThen first next).result = _
  unfold andThen
  cases first.result <;> rfl

theorem searches_bind_of_ok {first : Recorded α} {a : α} (h : first.result = .ok a)
    (next : α → Recorded β) :
    (first >>= next).searches = first.searches ++ (next a).searches := by
  show (andThen first next).searches = _
  unfold andThen
  rw [h]

theorem searches_bind_of_error {first : Recorded α} {fault : Fault} (h : first.result = .error fault)
    (next : α → Recorded β) : (first >>= next).searches = first.searches := by
  show (andThen first next).searches = _
  unfold andThen
  rw [h]

/-- To change the value takes no further search. -/
theorem bind_pure_eq (first : Recorded α) (change : α → β) :
    (first >>= fun a => pure (change a)) = ⟨first.result.map change, first.searches⟩ := by
  cases h : first.result with
  | error fault =>
      apply Recorded.ext
      · rw [result_bind, h]
        rfl
      · exact searches_bind_of_error h _
  | ok a =>
      apply Recorded.ext
      · rw [result_bind, h]
        rfl
      · rw [searches_bind_of_ok h]
        exact List.append_nil _

end Recorded
end TwoCnf
