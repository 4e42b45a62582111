import Tito.Lib.Mealy

namespace Tito.Lib.Mealy

variable {σ ι ο : Type}

def states (step : Machine σ ι ο) (s : σ) (xs : Nat → ι) : Nat → σ
  | 0 => s
  | n + 1 => (step (states step s xs n) (xs n)).2

section

variable {step : Machine σ ι ο} {s : σ} {xs : Nat → ι}

theorem states_eq_final (n : Nat) : states step s xs n = final step s ((List.range n).map xs) := by
  induction n with
  | zero => rfl
  | succ n ih =>
    rw [states, ih, List.range_succ, List.map_append, final_append]
    rfl

theorem states_keep {P : σ → Prop} (hP : ∀ s x, P s → P (step s x).2) {n m : Nat} (hnm : n ≤ m)
    (h : P (states step s xs n)) : P (states step s xs m) := by
  induction hnm with
  | refl => exact h
  | step _ ih => exact hP _ _ ih

end

/-- A goal that the inputs of one kind bring nearer. Until it is reached `safe` lasts and the
distance does not grow; once reached it stays reached. -/
structure Approaches (step : Machine σ ι ο) (helps : ι → Bool) (distance : σ → Nat)
    (safe goal : σ → Prop) : Prop where
  lasts : ∀ s x, safe s → (safe (step s x).2 ∧ distance (step s x).2 ≤ distance s) ∨ goal (step s x).2
  nearer : ∀ s x, safe s → helps x = true → goal (step s x).2 ∨ distance (step s x).2 < distance s
  stays : ∀ s x, goal s → goal (step s x).2

namespace Approaches

variable {step : Machine σ ι ο} {helps : ι → Bool} {distance : σ → Nat} {safe goal : σ → Prop}

/-- More helpful inputs than the distance reach the goal, wherever in the run they come. -/
theorem within (h : Approaches step helps distance safe goal) {s : σ}
    (hs : safe s) {xs : List ι} (hxs : distance s < xs.countP helps) : goal (final step s xs) := by
  induction xs generalizing s with
  | nil => exact absurd hxs (Nat.not_lt_zero _)
  | cons x xs ih =>
    rw [final_cons]
    have reached : goal (step s x).2 → goal (final step (step s x).2 xs) := fun hg =>
      invariant h.stays hg xs
    rcases h.lasts s x hs with ⟨hsafe, hle⟩ | hg
    · by_cases hx : helps x = true
      · rcases h.nearer s x hs hx with hg | hlt
        · exact reached hg
        · rw [List.countP_cons_of_pos hx] at hxs
          exact ih hsafe (by omega)
      · rw [List.countP_cons_of_neg hx] at hxs
        exact ih hsafe (by omega)
    · exact reached hg

/-- Helpful inputs that keep coming reach the goal. -/
theorem eventually (h : Approaches step helps distance safe goal) {s : σ} {xs : Nat → ι}
    (hxs : ∀ n, ∃ m, n ≤ m ∧ helps (xs m) = true) {n : Nat} (hn : safe (states step s xs n)) :
    ∃ m, n ≤ m ∧ goal (states step s xs m) := by
  induction hd : distance (states step s xs n) using Nat.strongRecOn generalizing n with
  | _ d ih =>
    obtain ⟨m, hm, hhelps⟩ := hxs n
    have hkeep : ∀ k, n ≤ k →
        (safe (states step s xs k) ∧ distance (states step s xs k) ≤ d) ∨
          goal (states step s xs k) := by
      intro k hk
      induction hk with
      | refl => exact Or.inl ⟨hn, Nat.le_of_eq hd⟩
      | @step k _ ihk =>
        rcases ihk with ⟨hsafe, hle⟩ | hg
        · rcases h.lasts _ (xs k) hsafe with ⟨hsafe', hle'⟩ | hg
          · exact Or.inl ⟨hsafe', Nat.le_trans hle' hle⟩
          · exact Or.inr hg
        · exact Or.inr (h.stays _ _ hg)
    rcases hkeep m hm with ⟨hsafe, hle⟩ | hg
    · rcases hkeep (m + 1) (Nat.le_succ_of_le hm) with ⟨hsafe', -⟩ | hg
      · rcases h.nearer _ (xs m) hsafe hhelps with hg | hlt
        · exact ⟨m + 1, Nat.le_succ_of_le hm, hg⟩
        · obtain ⟨k, hk, hg⟩ := ih _ (Nat.lt_of_lt_of_le hlt hle) hsafe' rfl
          exact ⟨k, Nat.le_trans (Nat.le_succ_of_le hm) hk, hg⟩
      · exact ⟨m + 1, Nat.le_succ_of_le hm, hg⟩
    · exact ⟨m, hm, hg⟩

end Approaches

end Tito.Lib.Mealy
