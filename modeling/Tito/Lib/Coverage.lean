import Tito.Lib.Cost
import Tito.Lib.Monitor

namespace Tito.Lib.Monitor

open Effects Cost

variable {σ ε ρ ρ' α α' β β' : Type}

/-- How often the code looks at the state, writes to it, or takes the lock, from `s` on. -/
def Code.moves : Code σ ρ → σ → Nat
  | done _, _ => 0
  | access write next, s => (next s).moves (write s) + 1
  | acquire next, s => next.moves s + 1
  | release next, s => next.moves s

theorem Code.moves_andThen (c : Code σ ρ) (k : ρ → Code σ ρ') (s : σ) :
    (c.andThen k).moves s = c.moves s + (k (c.exec s).1).moves (c.exec s).2 := by
  induction c generalizing s with
  | done r => exact (Nat.zero_add _).symm
  | access write next ih =>
    rw [andThen, moves, moves, ih s (write s), exec]
    omega
  | acquire next ih =>
    rw [andThen, moves, moves, ih s, exec]
    omega
  | release next ih => exact ih s

namespace Prog

def moves (p : Prog ε σ α) (s : σ) : Nat := Code.moves p s

theorem moves_access (x : EStateM ε σ α) (s : σ) : moves (access x) s = 1 := by
  rw [moves, access, Code.moves]
  split
  · rfl
  · rfl

theorem moves_locked (p : Prog ε σ α) (s : σ) : moves (locked p) s = moves p s + 1 :=
  congrArg (· + 1) (Code.moves_andThen p _ s)

theorem moves_bind (p : Prog ε σ α) (f : α → Prog ε σ β) (s : σ) :
    moves (p >>= f) s = moves p s +
      match (serial p).run s with
      | .ok a t => moves (f a) t
      | .error _ _ => 0 := by
  have hb : moves (p >>= f) s = _ := Code.moves_andThen p _ s
  rw [hb, exec_eq]
  cases (serial p).run s with
  | ok a t => rfl
  | error e t => rfl

theorem moves_access_bind {x : EStateM ε σ α} (f : α → Prog ε σ β) {a : α} {s t : σ}
    (hx : x.run s = .ok a t) : moves (access x >>= f) s = moves (f a) t + 1 := by
  rw [moves_bind, moves_access, serial_access, hx, Nat.add_comm]

end Prog

/-- The steps that are counted from `s` make up for the moves of the code, and for `d` more. -/
def Covered (d : Nat) (p : Prog ε σ α) (x : Metered ε σ β) (s : σ) : Prop :=
  p.moves s + d ≤ steps x s

namespace Covered

variable {d k n : Nat} {p : Prog ε σ α} {x : Metered ε σ β} {s : σ}

theorem pure (a : α) (x : Metered ε σ β) : Covered 0 (Pure.pure a) x s := Nat.zero_le _

theorem raise (e : ε) (x : Metered ε σ β) : Covered 0 (Prog.raise e : Prog ε σ α) x s :=
  Nat.zero_le _

theorem charge (x : EStateM ε σ α) {n : σ → Nat} {y : EStateM ε σ β} (h : 1 ≤ n s) :
    Covered 0 (Prog.access x) (Cost.charge n y) s := by
  rw [Covered, Prog.moves_access]
  exact h

theorem tick {x : Unit → Metered ε σ β} (hk : k ≤ n) (h : Covered 0 p (x ()) s) :
    Covered k p (Cost.tick n >>= x) s := by
  have hsteps : steps (Cost.tick n >>= x) s = n + steps (x ()) s := steps_bind_of_ok rfl
  rw [Covered, hsteps]
  unfold Covered at h
  omega

theorem skip {y : EStateM ε σ β} {n : σ → Nat} {g : β → Metered ε σ β'} {b : β}
    (hy : y.run s = .ok b s) (h : Covered d p (g b) s) : Covered d p (Cost.charge n y >>= g) s := by
  have hsteps : steps (Cost.charge n y >>= g) s = n s + steps (g b) s := steps_bind_of_ok hy
  rw [Covered, hsteps]
  exact Nat.le_trans h (Nat.le_add_left _ _)

theorem spare {x : Unit → Metered ε σ β} (h : Covered d p (x ()) s) :
    Covered d p (Cost.tick n >>= x) s := skip rfl h

/-- To take the lock leaves one move to be made up for. -/
theorem locked (h : Covered (d + 1) p x s) : Covered d (Prog.locked p) x s := by
  rw [Covered, Prog.moves_locked]
  unfold Covered at h
  omega

/-- So does a look at the state that has no step of its own. -/
theorem look {f : α → Prog ε σ α'} {y : EStateM ε σ α} {a : α} (hy : y.run s = .ok a s)
    (h : Covered (d + 1) (f a) x s) : Covered d (Prog.access y >>= f) x s := by
  rw [Covered, Prog.moves_access_bind f hy]
  unfold Covered at h
  omega

theorem bind {f : α → Prog ε σ α'} {x : Metered ε σ α} {g : α → Metered ε σ β}
    (h : Covered d p x s) (hrun : p.serial.run s = (unmetered x).run s)
    (hf : ∀ a t, (unmetered x).run s = .ok a t → Covered 0 (f a) (g a) t) :
    Covered d (p >>= f) (x >>= g) s := by
  rw [Covered, Prog.moves_bind, hrun]
  have hsteps := le_steps_bind x g s
  unfold Covered at h hf
  cases hr : (unmetered x).run s with
  | ok a t =>
    have hrest := hf a t hr
    rw [steps_bind_of_ok hr]
    dsimp only
    omega
  | error e t =>
    dsimp only
    omega

theorem map (f : α → α') (h : Covered d p x s) :
    Covered d (p >>= fun a => Pure.pure (f a)) x s := by
  have hmoves : Prog.moves (p >>= fun a => Pure.pure (f a)) s = p.moves s := by
    rw [Prog.moves_bind]
    cases p.serial.run s with
    | ok a t => rfl
    | error e t => rfl
  rw [Covered, hmoves]
  exact h

theorem andThen (g : β → Metered ε σ β') (h : Covered d p x s) : Covered d p (x >>= g) s :=
  Nat.le_trans h (le_steps_bind x g s)

theorem paid_bind {y : EStateM ε σ α} {n : σ → Nat} {f : α → Prog ε σ α'} {g : α → Metered ε σ β}
    (hn : 1 ≤ n s) (hf : ∀ a t, y.run s = .ok a t → Covered 0 (f a) (g a) t) :
    Covered 0 (Prog.access y >>= f) (Cost.charge n y >>= g) s := by
  apply bind (charge y hn)
  · rw [Prog.serial_access, unmetered_charge]
  · exact hf

theorem access_bind {y : EStateM ε σ α} {f : α → Prog ε σ α'} {g : α → Metered ε σ β}
    (hf : ∀ a t, y.run s = .ok a t → Covered 0 (f a) (g a) t) :
    Covered 0 (Prog.access y >>= f) (once y >>= g) s := paid_bind (Nat.le_refl 1) hf

theorem charge_bind {y : EStateM ε σ α} {n : σ → Nat} {z : EStateM ε σ β} {f : α → Prog ε σ α'}
    {g : β → Metered ε σ β'} {a : α} {b : β} {t : σ} (hn : 1 ≤ n s) (hy : y.run s = .ok a t)
    (hz : z.run s = .ok b t) (h : Covered 0 (f a) (g b) t) :
    Covered 0 (Prog.access y >>= f) (Cost.charge n z >>= g) s := by
  have hsteps : steps (Cost.charge n z >>= g) s = n s + steps (g b) t := steps_bind_of_ok hz
  rw [Covered, Prog.moves_access_bind f hy, hsteps]
  unfold Covered at h
  omega

/-- A step that is counted ahead may make up for an access that has none. -/
theorem ahead_bind {f : α → Prog ε σ α'} {x : Metered ε σ α} {g : α → Metered ε σ β}
    (h : Covered d p (Cost.tick n >>= fun _ => x) s) (hrun : p.serial.run s = (unmetered x).run s)
    (hf : ∀ a t, (unmetered x).run s = .ok a t → Covered 0 (f a) (g a) t) :
    Covered d (p >>= f) (Cost.tick n >>= fun _ => x >>= g) s := by
  have hahead : unmetered (Cost.tick n >>= fun _ => x) = unmetered x := unmetered_tick_bind n _
  rw [← Metered.bind_assoc]
  apply bind h
  · rw [hahead]
    exact hrun
  · rw [hahead]
    exact hf

theorem free_bind {y : EStateM ε σ α} {f : α → Prog ε σ α'} {g : α → Metered ε σ β} (hn : 1 ≤ n)
    (hf : ∀ a t, y.run s = .ok a t → Covered 0 (f a) (g a) t) :
    Covered 0 (Prog.access y >>= f) (Cost.tick n >>= fun _ => free y >>= g) s := by
  apply ahead_bind
  · have hticks : n ≤ steps (Cost.tick n >>= fun _ => free y) s := le_steps_bind (Cost.tick n) _ s
    rw [Covered, Prog.moves_access]
    exact hn.trans hticks
  · rw [Prog.serial_access, unmetered_free]
  · exact hf

theorem forM {f : α → Prog ε σ PUnit} {g : α → Metered ε σ PUnit}
    (hf : ∀ a s, Covered 0 (f a) (g a) s) (hrun : ∀ a, (f a).serial = unmetered (g a))
    (l : List α) : Covered 0 (l.forM f) (l.forM g) s := by
  induction l generalizing s with
  | nil => exact pure PUnit.unit _
  | cons a l ih =>
    apply bind (hf a s) (congrFun (hrun a) s)
    intro _ t _
    exact ih

theorem forM_bind {f : α → Prog ε σ PUnit} {g : α → Metered ε σ PUnit}
    {p : PUnit → Prog ε σ α'} {x : PUnit → Metered ε σ β} {l : List α}
    (hf : ∀ a s, Covered 0 (f a) (g a) s) (hrun : ∀ a, (f a).serial = unmetered (g a))
    (hrest : ∀ s, Covered 0 (p ⟨⟩) (x ⟨⟩) s) :
    Covered 0 (l.forM f >>= p) (l.forM g >>= x) s := by
  apply bind (forM hf hrun l)
  · rw [List.forM_eq_forM, List.forM_eq_forM, Prog.serial_forM, unmetered_forM, funext hrun]
  · intro _ t _
    exact hrest t

theorem forM_access_bind {y : α → EStateM ε σ PUnit} {p : PUnit → Prog ε σ α'}
    {x : PUnit → Metered ε σ β} {l : List α} (hrest : ∀ s, Covered 0 (p ⟨⟩) (x ⟨⟩) s) :
    Covered 0 ((l.forM fun a => Prog.access (y a)) >>= p)
      ((l.forM fun a => Cost.tick n >>= fun _ => once (y a)) >>= x) s := by
  apply forM_bind
  · intro a t
    apply spare
    exact charge (y a) (Nat.le_refl 1)
  · intro a
    rw [Prog.serial_access, unmetered_tick_bind, unmetered_once]
  · exact hrest

end Covered

end Tito.Lib.Monitor
