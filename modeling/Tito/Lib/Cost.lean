import Tito.Lib.Effects
import Tito.Lib.Mealy
import Mathlib.Order.Lattice

namespace Tito.Lib.Cost

open Effects Mealy

variable {ε σ ι ο α β γ : Type}

/-- A call that counts its steps. -/
def Metered (ε σ α : Type) := σ → Nat × EStateM.Result ε σ α

/-- What is left of it when nobody counts. -/
def unmetered (x : Metered ε σ α) : EStateM ε σ α := fun s => (x s).2

def steps (x : Metered ε σ α) (s : σ) : Nat := (x s).1

instance : Monad (Metered ε σ) where
  pure a := fun s => (0, .ok a s)
  bind x f := fun s =>
    match (x s).2 with
    | .ok a t => ((x s).1 + (f a t).1, (f a t).2)
    | .error e t => ((x s).1, .error e t)

theorem Metered.bind_assoc (x : Metered ε σ α) (f : α → Metered ε σ β) (g : β → Metered ε σ γ) :
    x >>= f >>= g = x >>= fun a => f a >>= g := by
  funext s
  simp only [bind]
  cases (x s).2 with
  | ok a t =>
    dsimp only
    cases (f a t).2 with
    | ok b u => simp only [Nat.add_assoc]
    | error e u => rfl
  | error e t => rfl

def charge (n : σ → Nat) (x : EStateM ε σ α) : Metered ε σ α := fun s => (n s, x.run s)

def once (x : EStateM ε σ α) : Metered ε σ α := charge (fun _ => 1) x

/-- `x`, which is no step of its own. -/
def free (x : EStateM ε σ α) : Metered ε σ α := charge (fun _ => 0) x

def tick (n : Nat) : Metered ε σ Unit := charge (fun _ => n) (pure ())

def raise (e : ε) : Metered ε σ α := once (throw e)

@[simp] theorem unmetered_pure (a : α) : unmetered (pure a : Metered ε σ α) = pure a := rfl

@[simp] theorem unmetered_charge (n : σ → Nat) (x : EStateM ε σ α) :
    unmetered (charge n x) = x := rfl

@[simp] theorem unmetered_once (x : EStateM ε σ α) : unmetered (once x) = x := rfl

@[simp] theorem unmetered_free (x : EStateM ε σ α) : unmetered (free x) = x := rfl

@[simp] theorem unmetered_tick (n : Nat) : unmetered (tick n : Metered ε σ Unit) = pure () := rfl

@[simp] theorem unmetered_bind (x : Metered ε σ α) (f : α → Metered ε σ β) :
    unmetered (x >>= f) = unmetered x >>= fun a => unmetered (f a) := by
  funext s
  simp only [unmetered, bind, EStateM.bind]
  cases (x s).2 with
  | ok a t => rfl
  | error e t => rfl

theorem unmetered_tick_bind (n : Nat) (f : Unit → Metered ε σ β) :
    unmetered (tick n >>= f) = unmetered (f ()) := by
  rw [unmetered_bind, unmetered_tick, pure_bind]

@[simp] theorem unmetered_ite (c : Prop) [Decidable c] (x y : Metered ε σ α) :
    unmetered (if c then x else y) = if c then unmetered x else unmetered y := by
  split
  · rfl
  · rfl

@[simp] theorem unmetered_forM (f : α → Metered ε σ PUnit) (l : List α) :
    unmetered (forM l f) = forM l fun a => unmetered (f a) := by
  induction l with
  | nil => rfl
  | cons a l ih => rw [List.forM_cons, List.forM_cons, unmetered_bind, ih]

theorem steps_bind (x : Metered ε σ α) (f : α → Metered ε σ β) (s : σ) :
    steps (x >>= f) s = match (x s).2 with
      | .ok a t => (x s).1 + (f a t).1
      | .error _ _ => (x s).1 := by
  simp only [steps, bind]
  cases (x s).2 with
  | ok a t => rfl
  | error e t => rfl

theorem steps_bind_of_ok {x : Metered ε σ α} {f : α → Metered ε σ β} {s t : σ} {a : α}
    (h : (unmetered x).run s = .ok a t) : steps (x >>= f) s = steps x s + steps (f a) t := by
  rw [steps_bind, show (x s).2 = .ok a t from h]
  rfl

theorem le_steps_bind (x : Metered ε σ α) (f : α → Metered ε σ β) (s : σ) :
    steps x s ≤ steps (x >>= f) s := by
  rw [steps_bind]
  cases (x s).2 with
  | ok a t => exact Nat.le_add_right _ _
  | error e t => exact Nat.le_refl _

/-- From `s` the call takes at most `n` steps, besides those that it leaves paid for. -/
def Within (paid : σ → Nat) (n : Nat) (x : Metered ε σ α) (s : σ) : Prop :=
  steps x s + paid s ≤ n + paid (after (unmetered x) s)

namespace Within

variable {paid : σ → Nat} {n m : Nat} {s : σ}

theorem mono {x : Metered ε σ α} (h : Within paid n x s) (hn : n ≤ m) : Within paid m x s := by
  unfold Within at h ⊢
  omega

theorem pure (a : α) : Within paid 0 (Pure.pure a : Metered ε σ α) s := Nat.le_refl _

theorem raise (e : ε) : Within paid 1 (Cost.raise e : Metered ε σ α) s := Nat.le_refl _

theorem charge {n : σ → Nat} {x : EStateM ε σ α} (h : n s + paid s ≤ m + paid (after x s)) :
    Within paid m (Cost.charge n x) s := h

theorem once {x : EStateM ε σ α} (h : paid s ≤ paid (after x s)) :
    Within paid 1 (Cost.once x) s := Nat.add_le_add_left h 1

theorem bind {x : Metered ε σ α} {f : α → Metered ε σ β} (hx : Within paid n x s)
    (hf : ∀ a t, (unmetered x).run s = .ok a t → Within paid m (f a) t) :
    Within paid (n + m) (x >>= f) s := by
  unfold Within at hx ⊢
  have hrun : (unmetered x).run s = (x s).2 := rfl
  rw [steps_bind, unmetered_bind]
  unfold after at hx ⊢
  rw [EStateM.run_bind]
  rw [hrun] at hx ⊢
  cases hr : (x s).2 with
  | ok a t =>
    have hrest := hf a t (hrun.trans hr)
    unfold Within after at hrest
    rw [hr] at hx
    simp only [steps] at hx hrest ⊢
    omega
  | error e t =>
    rw [hr] at hx
    simp only [steps] at hx ⊢
    omega

theorem bind_of_ok {x : Metered ε σ α} {f : α → Metered ε σ β} {a : α} {t : σ}
    (hx : Within paid n x s) (hrun : (unmetered x).run s = .ok a t)
    (hf : Within paid m (f a) t) : Within paid (n + m) (x >>= f) s := by
  apply bind hx
  intro b u hu
  cases hrun.symm.trans hu
  exact hf

theorem free {x : EStateM ε σ α} (h : paid s ≤ paid (after x s)) : Within paid 0 (Cost.free x) s :=
  Nat.add_le_add_left h 0

theorem tick (n : Nat) : Within paid n (Cost.tick n : Metered ε σ Unit) s := Nat.le_refl _

theorem tick_bind {f : Unit → Metered ε σ β} (hf : Within paid m (f ()) s) :
    Within paid (n + m) (Cost.tick n >>= f) s := bind_of_ok (tick n) rfl hf

theorem forM {P : σ → Prop} {f : α → Metered ε σ PUnit} {l : List α}
    (hf : ∀ a ∈ l, ∀ s, P s → Within paid n (f a) s)
    (hP : ∀ a ∈ l, ∀ s t, P s → (unmetered (f a)).run s = .ok ⟨⟩ t → P t) (hs : P s) :
    Within paid (n * l.length) (l.forM f) s := by
  induction l generalizing s with
  | nil => exact pure PUnit.unit
  | cons a l ih =>
    have hlen : n * (a :: l).length = n + n * l.length := by
      rw [List.length_cons, Nat.mul_succ, Nat.add_comm]
    rw [hlen]
    refine bind (hf a List.mem_cons_self s hs) fun _ t ht => ih ?_ ?_ ?_
    · exact fun b hb => hf b (List.mem_cons_of_mem a hb)
    · exact fun b hb => hP b (List.mem_cons_of_mem a hb)
    · exact hP a List.mem_cons_self s t hs ht

theorem forM_of_forall {f : α → Metered ε σ PUnit} {l : List α}
    (hf : ∀ a ∈ l, ∀ s, Within paid n (f a) s) : Within paid (n * l.length) (l.forM f) s := by
  apply forM (P := fun _ => True)
  · exact fun a ha s _ => hf a ha s
  · exact fun _ _ _ _ _ _ => trivial
  · exact trivial

end Within

def summed (step : Machine σ ι ο) (f : σ → ι → Nat) : σ → List ι → Nat
  | _, [] => 0
  | s, x :: xs => f s x + summed step f (step s x).2 xs

def peak (step : Machine σ ι ο) (f : σ → Nat) : σ → List ι → Nat
  | s, [] => f s
  | s, x :: xs => max (f s) (peak step f (step s x).2 xs)

theorem along_peak (step : Machine σ ι ο) (f : σ → Nat) (s : σ) (xs : List ι) :
    Along step (fun t _ => f t ≤ peak step f s xs) s xs := by
  suffices h : ∀ n, peak step f s xs ≤ n → Along step (fun t _ => f t ≤ n) s xs from h _ le_rfl
  induction xs generalizing s with
  | nil => exact fun _ _ => trivial
  | cons x xs ih =>
    intro n hn
    exact ⟨(le_max_left _ _).trans hn, ih _ n ((le_max_right _ _).trans hn)⟩

/-- If every step of a run stays within its budget besides what it leaves paid for, so does the
run. -/
theorem summed_le {step : Machine σ ι ο} {cost budget : σ → ι → Nat} {paid : σ → Nat}
    {P : σ → ι → Prop} {R : σ → Prop} (hR : ∀ s x, R s → R (step s x).2)
    (h : ∀ s x, R s → P s x → cost s x + paid s ≤ budget s x + paid (step s x).2) {s : σ}
    (hs : R s) {xs : List ι} (hxs : Along step P s xs) :
    summed step cost s xs + paid s ≤ summed step budget s xs + paid (final step s xs) := by
  induction xs generalizing s with
  | nil => exact le_rfl
  | cons x xs ih =>
    have hstep := h s x hs hxs.1
    have hrest := ih (hR s x hs) hxs.2
    rw [summed, summed, final_cons]
    omega

end Tito.Lib.Cost
