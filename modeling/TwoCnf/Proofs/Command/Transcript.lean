import TwoCnf.Command.Run
import TwoCnf.Proofs.Solver.Query

/-!
# Transcript — what the parts of a command print and log

* `Action.Leaves` — an action succeeds, and adds some lines and events to the transcript. Actions one
  after the other add up (`Action.Leaves.bind`);
* `Action.leaves_ask` — a question to a solver logs the searches that it takes;
* `Action.run_readListing` — what comes of reading a listing.
-/

namespace TwoCnf

/-- The transcript with more lines and events. -/
def Transcript.extend (t : Transcript) (lines : List String) (events : List Event) : Transcript :=
  ⟨t.output ++ lines.toArray, t.events ++ events.toArray⟩

theorem Transcript.extend_nil (t : Transcript) : t.extend [] [] = t := by
  simp [extend]

theorem Transcript.extend_extend (t : Transcript) (ls ls' : List String) (es es' : List Event) :
    (t.extend ls es).extend ls' es' = t.extend (ls ++ ls') (es ++ es') := by
  simp [extend]

namespace Action

variable {m : Type → Type} [Monad m] {α β : Type}

/-- The action succeeds with a value, and meanwhile prints the lines and logs the events. -/
def Leaves (x : Action m α) (a : α) (lines : List String) (events : List Event) : Prop :=
  ∀ t : Transcript, x.run.run t = pure (.ok a, t.extend lines events)

theorem Leaves.congr {x : Action m α} {a : α} {ls ls' : List String} {es es' : List Event}
    (h : Leaves x a ls es) (hls : ls = ls') (hes : es = es') : Leaves x a ls' es' := by
  rw [← hls, ← hes]
  exact h

/-! ## Actions one after the other -/

theorem run_bind (x : Action m α) (f : α → Action m β) (t : Transcript) :
    (x >>= f).run.run t = x.run.run t >>= fun r =>
      match r.1 with
      | .ok a => (f a).run.run r.2
      | .error e => pure (.error e, r.2) := by
  show (x.run.run t >>= fun r => (ExceptT.bindCont f r.1).run r.2) = _
  congr 1
  funext r
  cases r.1 <;> rfl

theorem leaves_pure (a : α) : Leaves (pure a : Action m α) a [] [] := by
  intro t
  rw [t.extend_nil]
  rfl

theorem leaves_obtain {result : Except Fault α} {a : α} (h : result = .ok a) :
    Leaves (obtain result : Action m α) a [] [] := by
  rw [h]
  exact leaves_pure a

variable [LawfulMonad m]

theorem Leaves.bind {x : Action m α} {f : α → Action m β} {a : α} {b : β} {ls ls' : List String}
    {es es' : List Event} (hx : Leaves x a ls es) (hf : Leaves (f a) b ls' es') :
    Leaves (x >>= f) b (ls ++ ls') (es ++ es') := by
  intro t
  rw [run_bind, hx t, pure_bind, ← t.extend_extend]
  exact hf (t.extend ls es)

theorem run_modify (change : Transcript → Transcript) (t : Transcript) :
    (modify change : Action m Unit).run.run t = pure (.ok (), change t) := by
  show (pure ((), change t) >>= fun r => pure (Except.ok r.1, r.2) : m _) = _
  rw [pure_bind]

theorem leaves_say (line : String) : Leaves (say line : Action m Unit) () [line] [] := by
  intro t
  rw [say, run_modify]
  simp [Transcript.extend]

theorem leaves_log (event : Event) : Leaves (log event : Action m Unit) () [] [event] := by
  intro t
  rw [log, run_modify]
  simp [Transcript.extend]

theorem leaves_forM_say (line : α → String) (xs : List α) :
    Leaves (xs.forM fun x => (say (line x) : Action m Unit)) () (xs.map line) [] := by
  induction xs with
  | nil =>
      exact leaves_pure ()
  | cons x xs ih =>
      exact (leaves_say (line x)).bind ih

theorem leaves_forM_log (event : α → Event) (xs : List α) :
    Leaves (xs.forM fun x => (log (event x) : Action m Unit)) () [] (xs.map event) := by
  induction xs with
  | nil =>
      exact leaves_pure ()
  | cons x xs ih =>
      exact (leaves_log (event x)).bind ih

/-! ## Questions and files -/

/-- What a question logs: the searches that it takes to have an analysis at hand. -/
def asked (s : Solver) : List Event :=
  s.searches.map .searched

theorem leaves_ask {q : Query α} {read : Analysis → α} {s : Solver} {a : Analysis}
    (hq : q s = s.reading read) (hs : s.snapshot = .ok a) :
    Leaves (ask q s : Action m _) (read a, { s with analysis := some a }) [] (asked s) := by
  have hrun : q.run s = s.reading read := hq
  unfold ask
  rw [hrun]
  refine Leaves.congr ((leaves_forM_log Event.searched s.searches).bind
    (leaves_obtain (Solver.reading_of_ok hs read))) rfl ?_
  exact List.append_nil _

theorem run_lift (x : m α) (t : Transcript) :
    (liftM x : Action m α).run.run t = x >>= fun a => pure (.ok a, t) := by
  show (x >>= fun a => pure (a, t)) >>= (fun r => pure (Except.ok r.1, r.2)) = _
  simp

/-- The listing in the contents of a file, or why there is none. -/
def listingOf (path : String) : Except AccessError ByteArray → Except Failure Listing
  | .error (.opening e) => .error (.opening path e)
  | .error (.reading e) => .error (.reading path e)
  | .ok bytes =>
      match Listing.parseBytes bytes with
      | .ok listing => .ok listing
      | .error e => .error (.parsing path e)

/-- Reading a listing prints and logs nothing. -/
theorem run_readListing (files : Files m) (path : String) (t : Transcript) :
    (readListing files path).run.run t = files.read path >>= fun contents =>
      pure (listingOf path contents, t) := by
  rw [readListing, run_bind, run_lift, bind_assoc]
  congr 1
  funext contents
  rw [pure_bind]
  cases contents with
  | error e =>
      cases e <;> rfl
  | ok bytes =>
      simp only [listingOf]
      cases Listing.parseBytes bytes <;> rfl

end Action
end TwoCnf
