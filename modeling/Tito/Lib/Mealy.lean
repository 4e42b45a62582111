import Mathlib.Data.List.Forall2

namespace Tito.Lib.Mealy

variable {σ τ ι κ ο π : Type}

/-- A deterministic machine: a state and an input give an answer and the next state. -/
abbrev Machine (σ ι ο : Type) := σ → ι → ο × σ

def final (step : Machine σ ι ο) (s : σ) (xs : List ι) : σ := xs.foldl (fun s x => (step s x).2) s

def answers (step : Machine σ ι ο) : σ → List ι → List ο
  | _, [] => []
  | s, x :: xs => (step s x).1 :: answers step (step s x).2 xs

def Reachable (step : Machine σ ι ο) (s t : σ) : Prop := ∃ xs, final step s xs = t

/-- No sequence of inputs tells the two states apart. -/
def Indistinguishable (step : Machine σ ι ο) (s t : σ) : Prop :=
  ∀ xs, answers step s xs = answers step t xs

/-- Every step of the run from `s` takes place in a state where `P` allows its input. -/
def Along (step : Machine σ ι ο) (P : σ → ι → Prop) : σ → List ι → Prop
  | _, [] => True
  | s, x :: xs => P s x ∧ Along step P (step s x).2 xs

instance Along.decidable (step : Machine σ ι ο) (P : σ → ι → Prop) [∀ s x, Decidable (P s x)] :
    (s : σ) → (xs : List ι) → Decidable (Along step P s xs)
  | _, [] => isTrue trivial
  | s, x :: xs =>
    haveI := Along.decidable step P (step s x).2 xs
    inferInstanceAs (Decidable (P s x ∧ Along step P (step s x).2 xs))

section

variable {step : Machine σ ι ο}

@[simp] theorem final_nil (s : σ) : final step s [] = s := rfl

@[simp] theorem final_cons (s : σ) (x : ι) (xs : List ι) :
    final step s (x :: xs) = final step (step s x).2 xs := rfl

theorem final_append (s : σ) (xs ys : List ι) :
    final step s (xs ++ ys) = final step (final step s xs) ys := List.foldl_append

theorem answers_append (s : σ) (xs ys : List ι) :
    answers step s (xs ++ ys) = answers step s xs ++ answers step (final step s xs) ys := by
  induction xs generalizing s with
  | nil => rfl
  | cons x xs ih => rw [List.cons_append, answers, answers, ih, final_cons, List.cons_append]

theorem length_answers (s : σ) (xs : List ι) : (answers step s xs).length = xs.length := by
  induction xs generalizing s with
  | nil => rfl
  | cons x xs ih => rw [answers, List.length_cons, List.length_cons, ih]

theorem Along.append {P : σ → ι → Prop} {s : σ} {xs ys : List ι} :
    Along step P s (xs ++ ys) ↔ Along step P s xs ∧ Along step P (final step s xs) ys := by
  induction xs generalizing s with
  | nil => simp [Along]
  | cons x xs ih => simp only [List.cons_append, Along, ih, final_cons, and_assoc]

theorem Along.of_forall {P : σ → ι → Prop} (h : ∀ s x, P s x) (s : σ) (xs : List ι) :
    Along step P s xs := by
  induction xs generalizing s with
  | nil => trivial
  | cons x xs ih => exact ⟨h s x, ih _⟩

theorem invariant {P : σ → Prop} (hP : ∀ s x, P s → P (step s x).2) {s : σ} (hs : P s)
    (xs : List ι) : P (final step s xs) := by
  induction xs generalizing s with
  | nil => exact hs
  | cons x xs ih => exact ih (hP s x hs)

end

def collected (step : Machine σ ι ο) (f : ι → ο → List κ) : σ → List ι → List κ
  | _, [] => []
  | s, x :: xs => f x (step s x).1 ++ collected step f (step s x).2 xs

theorem collected_invariant {step : Machine σ ι ο} {f : ι → ο → List κ} {P : List κ → σ → Prop}
    (hP : ∀ l s x, P l s → P (l ++ f x (step s x).1) (step s x).2) {l : List κ} {s : σ}
    (hs : P l s) (xs : List ι) : P (l ++ collected step f s xs) (final step s xs) := by
  induction xs generalizing l s with
  | nil => rwa [collected, List.append_nil]
  | cons x xs ih =>
    rw [collected, ← List.append_assoc]
    exact ih (hP l s x hs)

/-- Two machines with the same inputs whose answers agree in related states. -/
structure Simulation (step : Machine σ ι ο) (step' : Machine τ ι ο) (R : σ → τ → Prop) : Prop where
  answer : ∀ {s t}, R s t → ∀ x, (step s x).1 = (step' t x).1
  next : ∀ {s t}, R s t → ∀ x, R (step s x).2 (step' t x).2

namespace Simulation

variable {step : Machine σ ι ο} {step' : Machine τ ι ο} {R : σ → τ → Prop}

theorem final (h : Simulation step step' R) {s : σ} {t : τ} (hs : R s t) (xs : List ι) :
    R (final step s xs) (Mealy.final step' t xs) := by
  induction xs generalizing s t with
  | nil => exact hs
  | cons x xs ih => exact ih (h.next hs x)

theorem answers (h : Simulation step step' R) {s : σ} {t : τ} (hs : R s t) (xs : List ι) :
    answers step s xs = Mealy.answers step' t xs := by
  induction xs generalizing s t with
  | nil => rfl
  | cons x xs ih => rw [Mealy.answers, Mealy.answers, h.answer hs, ih (h.next hs x)]

/-- States that are related to one state cannot be told apart. -/
theorem indistinguishable (h : Simulation step step' R) {s s' : σ} {t : τ} (hs : R s t)
    (hs' : R s' t) : Indistinguishable step s s' :=
  fun xs => (h.answers hs xs).trans (h.answers hs' xs).symm

end Simulation

theorem lockstep {step : Machine σ ι ο} {step' : Machine τ ι π} {P : σ → ι → Prop}
    {R : σ → τ → Prop} (hR : ∀ s t x, R s t → P s x → R (step s x).2 (step' t x).2) {s : σ} {t : τ}
    (hs : R s t) {xs : List ι} (hxs : Along step P s xs) :
    R (final step s xs) (final step' t xs) := by
  induction xs generalizing s t with
  | nil => exact hs
  | cons x xs ih => exact ih (hR s t x hs hxs.1) hxs.2

/-- A machine that answers as another does, in other words, as long as `P` allows the inputs in
the states of the other. -/
theorem answers_of_along {step : Machine σ ι ο} {step' : Machine τ ι π} {P : τ → ι → Prop}
    {R : σ → τ → Prop} (view : π → ο)
    (hR : ∀ s t x, R s t → P t x →
      (step s x).1 = view (step' t x).1 ∧ R (step s x).2 (step' t x).2)
    {s : σ} {t : τ} (hs : R s t) {xs : List ι} (hxs : Along step' P t xs) :
    answers step s xs = (answers step' t xs).map view := by
  induction xs generalizing s t with
  | nil => rfl
  | cons x xs ih =>
    obtain ⟨ha, hn⟩ := hR s t x hs hxs.1
    rw [answers, answers, List.map_cons, ha, ih hn hxs.2]

def translated (step : Machine σ ι ο) (f : σ → ι → Option κ) : σ → List ι → List κ
  | _, [] => []
  | s, x :: xs =>
    match f s x with
    | none => translated step f (step s x).2 xs
    | some y => y :: translated step f (step s x).2 xs

def observed (step : Machine σ ι ο) (f : σ → ι → Option κ) (view : σ → ι → ο → π) :
    σ → List ι → List π
  | _, [] => []
  | s, x :: xs =>
    match f s x with
    | none => observed step f view (step s x).2 xs
    | some _ => view s x (step s x).1 :: observed step f view (step s x).2 xs

theorem translated_const (step : Machine σ ι ο) (f : ι → Option κ) (s : σ) (xs : List ι) :
    translated step (fun _ => f) s xs = xs.filterMap f := by
  induction xs generalizing s with
  | nil => rfl
  | cons x xs ih =>
    rw [translated]
    cases hf : f x with
    | none => rw [List.filterMap_cons_none hf, ih]
    | some y => rw [List.filterMap_cons_some hf, ih]

theorem observed_of_kept (step : Machine σ ι ο) {f : ι → Option κ} (view : ο → π) (s : σ)
    {xs : List ι} (h : ∀ x ∈ xs, f x ≠ none) :
    observed step (fun _ => f) (fun _ _ => view) s xs = (answers step s xs).map view := by
  induction xs generalizing s with
  | nil => rfl
  | cons x xs ih =>
    rw [observed, answers, List.map_cons, ← ih _ fun y hy => h y (List.mem_cons_of_mem x hy)]
    split
    · rename_i hf
      exact absurd hf (h x List.mem_cons_self)
    · rfl

/-- A machine that answers the kept inputs of another as if the dropped ones never came. -/
structure Erasure (step : Machine σ ι ο) (step' : Machine τ κ π) (f : σ → ι → Option κ)
    (view : σ → ι → ο → π) (P : σ → ι → Prop) (R : σ → τ → Prop) : Prop where
  dropped : ∀ {s t x}, R s t → P s x → f s x = none → R (step s x).2 t
  answer : ∀ {s t x y}, R s t → P s x → f s x = some y → (step' t y).1 = view s x (step s x).1
  next : ∀ {s t x y}, R s t → P s x → f s x = some y → R (step s x).2 (step' t y).2

namespace Erasure

variable {step : Machine σ ι ο} {step' : Machine τ κ π} {f : σ → ι → Option κ}
  {view : σ → ι → ο → π} {P : σ → ι → Prop} {R : σ → τ → Prop}

theorem run (h : Erasure step step' f view P R) {s : σ} {t : τ} (hs : R s t) {xs : List ι}
    (hxs : Along step P s xs) :
    answers step' t (translated step f s xs) = observed step f view s xs ∧
      R (final step s xs) (final step' t (translated step f s xs)) := by
  induction xs generalizing s t with
  | nil => exact ⟨rfl, hs⟩
  | cons x xs ih =>
    rw [translated, observed, final_cons]
    cases hf : f s x with
    | none => exact ih (h.dropped hs hxs.1 hf) hxs.2
    | some y =>
      obtain ⟨ha, hn⟩ := ih (h.next hs hxs.1 hf) hxs.2
      exact ⟨by rw [answers, h.answer hs hxs.1 hf, ha], hn⟩

end Erasure

/-- A machine that answers as another does whose inputs and answers are written differently, as
long as `P` allows the inputs. -/
structure Translation (step : Machine σ ι ο) (step' : Machine τ κ π) (f : ι → κ) (V : ο → π → Prop)
    (P : ι → Prop) (R : σ → τ → Prop) : Prop where
  answer : ∀ {s t x}, R s t → P x → V (step s x).1 (step' t (f x)).1
  next : ∀ {s t x}, R s t → P x → R (step s x).2 (step' t (f x)).2

theorem Translation.answers {step : Machine σ ι ο} {step' : Machine τ κ π} {f : ι → κ}
    {V : ο → π → Prop} {P : ι → Prop} {R : σ → τ → Prop} (h : Translation step step' f V P R)
    {s : σ} {t : τ} (hs : R s t) {xs : List ι} (hxs : ∀ x ∈ xs, P x) :
    List.Forall₂ V (answers step s xs) (Mealy.answers step' t (xs.map f)) := by
  induction xs generalizing s t with
  | nil => exact .nil
  | cons x xs ih =>
    have hx := hxs x List.mem_cons_self
    exact .cons (h.answer hs hx) (ih (h.next hs hx) fun y hy => hxs y (List.mem_cons_of_mem x hy))

end Tito.Lib.Mealy
