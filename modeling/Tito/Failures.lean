import Tito.Refinement

namespace Tito

open Lib Lib.Mealy

variable {I M : Type} [DecidableEq I] [DecidableEq M]

/-- The calls of a run that return. -/
def returning : World I M → List (Op I M) → List (Op I M)
  | _, [] => []
  | w, op :: ops =>
    if (step w op).1.isOk then op :: returning (step w op).2 ops
    else returning (step w op).2 ops

theorem returning_run {w : World I M} (hw : Consistent w) (ops : List (Op I M)) :
    answers step w (returning w ops) = (answers step w ops).filter Except.isOk ∧
      final step w (returning w ops) = final step w ops := by
  induction ops generalizing w with
  | nil => exact ⟨rfl, rfl⟩
  | cons op ops ih =>
    obtain ⟨ha, hf⟩ := ih (step_consistent hw op)
    cases hr : (step w op).1 with
    | ok a =>
      have hk : returning w (op :: ops) = op :: returning (step w op).2 ops := by
        rw [returning, hr]
        rfl
      rw [hk, answers, answers, ha, hr, final_cons, final_cons, hf]
      exact ⟨rfl, rfl⟩
    | error e =>
      have hs := (step_simulated hw op).refused e hr
      have hk : returning w (op :: ops) = returning w ops := by
        rw [returning, hr, hs]
        rfl
      rw [hs] at ha hf
      rw [hk, answers, ha, hr, final_cons, hs, hf]
      exact ⟨rfl, rfl⟩

/-- A call that raises leaves the queue and every group as they were, so a run loses nothing
with its raising calls: the other answers and the final state are the same without them. -/
theorem failures_leave_no_trace (strictOrder : Bool) (ops : List (Op I M)) :
    (∀ op e, (step (final step (World.init strictOrder) ops) op).1 = .error e →
      (step (final step (World.init strictOrder) ops) op).2 =
        final step (World.init strictOrder) ops) ∧
    answers step (World.init strictOrder) (returning (World.init strictOrder) ops) =
      (answers step (World.init strictOrder) ops).filter Except.isOk ∧
    final step (World.init strictOrder) (returning (World.init strictOrder) ops) =
      final step (World.init strictOrder) ops := by
  have hw : Consistent (final step (World.init strictOrder) ops) :=
    consistent_of_reachable ⟨ops, rfl⟩
  refine ⟨fun op e he => (step_simulated hw op).refused e he, ?_⟩
  exact returning_run (init_consistent strictOrder) ops

/-- An admission that overlaps a waiting group in one member of two raises and changes nothing. -/
theorem failures_leave_no_trace_overlap :
    (step (final step (World.init false)
      [.admitGroup (.hashable 7) (.iterable [.hashable 1, .hashable 2])])
      (.admitGroup (.hashable 8) (.iterable [.hashable 2, .hashable 3]) : Op Nat Nat)).2 =
    final step (World.init false)
      [.admitGroup (.hashable 7) (.iterable [.hashable 1, .hashable 2])] :=
  (failures_leave_no_trace false [.admitGroup (.hashable 7) (.iterable [.hashable 1, .hashable 2])]).1
    (.admitGroup (.hashable 8) (.iterable [.hashable 2, .hashable 3]))
    (.tito (.membersInQueue [2] [(2, 7)])) (by decide)

end Tito
