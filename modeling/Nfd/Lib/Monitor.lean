import Mathlib.Data.List.Basic

/-!
# Runs that emit events, checked by a monitor

A component whose operations emit events (calls to hooks, signals) is checked against an
abstract state machine, the monitor: each event moves the monitor (`observe`), and each
event must be allowed in the monitor state the events before it lead to (`ok`).
`Accepts` says a whole sequence of events is allowed.

`run` applies operations one after another and collects what they emit.  If a relation
between component states and monitor states holds initially, and each operation, from
related states, emits events the monitor accepts and leads to related states again, then
every run is accepted and ends related (`run_simulation`).
-/

set_option autoImplicit false

namespace Monitor

variable {M E : Type} (observe : M → E → M) (ok : M → E → Prop)

/-- Every event is allowed in the monitor state that the events before it lead to. -/
def Accepts : M → List E → Prop
  | _, [] => True
  | m, e :: rest => ok m e ∧ Accepts (observe m e) rest

@[simp] theorem accepts_nil (m : M) : Accepts observe ok m [] := trivial

@[simp] theorem accepts_cons (m : M) (e : E) (rest : List E) :
    Accepts observe ok m (e :: rest) ↔ ok m e ∧ Accepts observe ok (observe m e) rest :=
  Iff.rfl

theorem accepts_append (m : M) (first second : List E) :
    Accepts observe ok m (first ++ second) ↔
      Accepts observe ok m first ∧ Accepts observe ok (first.foldl observe m) second := by
  induction first generalizing m with
  | nil => simp
  | cons e rest inductionHypothesis =>
      simp only [List.cons_append, accepts_cons, List.foldl_cons, inductionHypothesis, and_assoc]

section Run

variable {S O : Type} (step : S → O → S × List E)

/-- Apply the operations in turn, collecting the events they emit in order. -/
def run : S → List O → S × List E
  | s, [] => (s, [])
  | s, o :: rest =>
      let current := step s o
      let later := run current.1 rest
      (later.1, current.2 ++ later.2)

@[simp] theorem run_nil (s : S) : run step s [] = (s, []) := rfl

theorem run_cons (s : S) (o : O) (rest : List O) :
    run step s (o :: rest) =
      ((run step (step s o).1 rest).1, (step s o).2 ++ (run step (step s o).1 rest).2) := rfl

theorem run_append (s : S) (ops more : List O) :
    run step s (ops ++ more) =
      ((run step (run step s ops).1 more).1, (run step s ops).2 ++ (run step (run step s ops).1 more).2) := by
  induction ops generalizing s with
  | nil => simp
  | cons o rest ih => simp [run_cons, ih, List.append_assoc]

variable {observe ok}

/-- A relation that each operation keeps, emitting only accepted events, is kept by every
run, and the run emits only accepted events. -/
theorem run_simulation (R : S → M → Prop)
    (preserves : ∀ s m o, R s m →
      Accepts observe ok m (step s o).2 ∧ R (step s o).1 ((step s o).2.foldl observe m)) :
    ∀ (ops : List O) (s : S) (m : M), R s m →
      Accepts observe ok m (run step s ops).2 ∧
        R (run step s ops).1 ((run step s ops).2.foldl observe m)
  | [], _, _, related => ⟨trivial, related⟩
  | o :: rest, s, m, related => by
      obtain ⟨accepted, related'⟩ := preserves s m o related
      obtain ⟨acceptedRest, relatedRest⟩ := run_simulation R preserves rest _ _ related'
      rw [run_cons, accepts_append, List.foldl_append]
      exact ⟨⟨accepted, acceptedRest⟩, relatedRest⟩

end Run

end Monitor
