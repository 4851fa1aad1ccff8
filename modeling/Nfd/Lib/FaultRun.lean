import Mathlib.Logic.Basic

/-!
# Runs of a step that can fail

A machine whose step on an input either moves it to a new state or stops with a fault (an
exception thrown out of a handler).  `run` applies inputs in turn and stops at the first
fault.  An invariant that every successful step keeps holds after every run that does not
fail (`run_invariant`), and a fault of a run is the fault of one step taken from a state the
run reaches, where the invariant still holds (`run_error`).
-/

set_option autoImplicit false

namespace FaultRun

variable {F : Type}

theorem bind_eq_ok {α β : Type} {x : Except F α} {f : α → Except F β} {b : β} :
    x >>= f = .ok b ↔ ∃ a, x = .ok a ∧ f a = .ok b := by
  cases x with
  | error e => simp [bind, Except.bind]
  | ok a => simp [bind, Except.bind]

theorem bind_eq_error {α β : Type} {x : Except F α} {f : α → Except F β} {e : F} :
    x >>= f = .error e ↔ x = .error e ∨ ∃ a, x = .ok a ∧ f a = .error e := by
  cases x with
  | error e' => simp [bind, Except.bind]
  | ok a => simp [bind, Except.bind]

variable {S E : Type} (step : S → E → Except F S)

/-- Apply the inputs in turn, stopping at the first fault. -/
def run : S → List E → Except F S
  | s, [] => .ok s
  | s, e :: rest =>
      match step s e with
      | .ok s' => run s' rest
      | .error f => .error f

@[simp] theorem run_nil (s : S) : run step s [] = .ok s := rfl

theorem run_cons_ok {s s' : S} {e : E} (moved : step s e = .ok s') (rest : List E) :
    run step s (e :: rest) = run step s' rest := by
  simp only [run, moved]

theorem run_cons_error {s : S} {e : E} {f : F} (failed : step s e = .error f) (rest : List E) :
    run step s (e :: rest) = .error f := by
  simp only [run, failed]

variable {step}

/-- An invariant that every successful step keeps holds after every successful run. -/
theorem run_invariant (Inv : S → Prop) (preserves : ∀ s e s', Inv s → step s e = .ok s' → Inv s') :
    ∀ (inputs : List E) (s s' : S), Inv s → run step s inputs = .ok s' → Inv s'
  | [], s, s', holds, finished => by
      cases finished
      exact holds
  | e :: rest, s, s', holds, finished => by
      cases moved : step s e with
      | error f =>
          rw [run_cons_error step moved] at finished
          cases finished
      | ok next =>
          rw [run_cons_ok step moved] at finished
          exact run_invariant Inv preserves rest next s' (preserves s e next holds moved) finished

/-- A run that fails reaches, by a successful run over the inputs before the failing one, a
state where the invariant holds and the next input fails with the same fault. -/
theorem run_error (Inv : S → Prop) (preserves : ∀ s e s', Inv s → step s e = .ok s' → Inv s') :
    ∀ (inputs : List E) (s : S) (f : F), Inv s → run step s inputs = .error f →
      ∃ before e after s', inputs = before ++ e :: after ∧ run step s before = .ok s' ∧ Inv s' ∧
        step s' e = .error f
  | [], _, _, _, failed => by cases failed
  | e :: rest, s, f, holds, failed => by
      cases moved : step s e with
      | error f' =>
          rw [run_cons_error step moved] at failed
          cases failed
          exact ⟨[], e, rest, s, rfl, rfl, holds, moved⟩
      | ok next =>
          rw [run_cons_ok step moved] at failed
          obtain ⟨before, e', after, s', split, reached, holds', fails⟩ :=
            run_error Inv preserves rest next f (preserves s e next holds moved) failed
          refine ⟨e :: before, e', after, s', by rw [split, List.cons_append], ?_, holds', fails⟩
          rw [run_cons_ok step moved]
          exact reached

end FaultRun
