import Tito.Lib.Effects
import Tito.Lib.Mealy
import Mathlib.Logic.Function.Basic

namespace Tito.Lib.Monitor

open Effects Mealy

variable {σ ε ρ ρ' α β : Type}

/-- What a thread has still to do. Each step is one access to the state that the threads share,
or it takes the lock or gives it back. -/
inductive Code (σ ρ : Type) where
  | done (result : ρ)
  | access (write : σ → σ) (next : σ → Code σ ρ)
  | acquire (next : Code σ ρ)
  | release (next : Code σ ρ)

namespace Code

def andThen : Code σ ρ → (ρ → Code σ ρ') → Code σ ρ'
  | done r, k => k r
  | access write next, k => access write fun s => (next s).andThen k
  | acquire next, k => acquire (next.andThen k)
  | release next, k => release (next.andThen k)

def exec : Code σ ρ → σ → ρ × σ
  | done r, s => (r, s)
  | access write next, s => (next s).exec (write s)
  | acquire next, s => next.exec s
  | release next, s => next.exec s

theorem exec_andThen (c : Code σ ρ) (k : ρ → Code σ ρ') (s : σ) :
    (c.andThen k).exec s = (k (c.exec s).1).exec (c.exec s).2 := by
  induction c generalizing s with
  | done r => rfl
  | access write next ih => exact ih s (write s)
  | acquire next ih => exact ih s
  | release next ih => exact ih s

theorem andThen_assoc {ρ'' : Type} (c : Code σ ρ) (k : ρ → Code σ ρ') (k' : ρ' → Code σ ρ'') :
    (c.andThen k).andThen k' = c.andThen fun r => (k r).andThen k' := by
  induction c with
  | done r => rfl
  | access write next ih => exact congrArg (access write) (funext ih)
  | acquire next ih => exact congrArg acquire ih
  | release next ih => exact congrArg release ih

/-- Code of the thread that holds the lock, `n` times over and above the first: it gives back
what it takes, and it is done with the state when it has given back the last. -/
def Holding : Code σ ρ → Nat → Prop
  | done _, _ => False
  | access _ next, n => ∀ s, (next s).Holding n
  | acquire next, n => next.Holding (n + 1)
  | release next, 0 => ∃ r, next = done r
  | release next, n + 1 => next.Holding n

/-- The code holds the lock from its first access to its last. -/
def Guarded : Code σ ρ → Prop
  | done _ => True
  | acquire next => next.Holding 0
  | _ => False

/-- The code only looks, and takes no lock. -/
def Looking : Code σ ρ → Prop
  | done _ => True
  | access write next => (∀ s, write s = s) ∧ ∀ s, (next s).Looking
  | _ => False

/-- The code is for the holder of the lock and leaves it as often held as before. -/
def Inner (c : Code σ ρ) : Prop :=
  ∀ (ρ' : Type) (k : ρ → Code σ ρ') (n : Nat), (∀ r, (k r).Holding n) → (c.andThen k).Holding n

theorem Holding.andThen {c : Code σ ρ} {k : ρ → Code σ ρ'} (hk : ∀ r, ∃ r', k r = done r') {n : Nat}
    (h : c.Holding n) : (c.andThen k).Holding n := by
  induction c generalizing n with
  | done r => exact h.elim
  | access write next ih => exact fun s => ih s (h s)
  | acquire next ih => exact ih h
  | release next ih =>
    cases n with
    | zero =>
      obtain ⟨r, rfl⟩ := h
      exact hk r
    | succ n => exact ih h

theorem Guarded.andThen {c : Code σ ρ} {k : ρ → Code σ ρ'} (h : c.Guarded)
    (hk : ∀ r, ∃ r', k r = done r') : (c.andThen k).Guarded := by
  cases c with
  | done r =>
    obtain ⟨r', hr⟩ := hk r
    rw [Code.andThen, hr]
    trivial
  | access write next => exact h.elim
  | acquire next => exact Holding.andThen hk h
  | release next => exact h.elim

theorem Looking.andThen {c : Code σ ρ} {k : ρ → Code σ ρ'} (h : c.Looking)
    (hk : ∀ r, (k r).Looking) : (c.andThen k).Looking := by
  induction c with
  | done r => exact hk r
  | access write next ih => exact ⟨h.1, fun s => ih s (h.2 s)⟩
  | acquire next => exact h.elim
  | release next => exact h.elim

theorem inner_done (r : ρ) : (done r : Code σ ρ).Inner := fun _ _ _ hk => hk r

theorem Inner.andThen {c : Code σ ρ} {k : ρ → Code σ ρ'} (hc : c.Inner) (hk : ∀ r, (k r).Inner) :
    (c.andThen k).Inner := by
  intro ρ'' k' n hk'
  rw [andThen_assoc]
  exact hc _ _ n fun r => hk r _ k' n hk'

end Code

def Prog (ε σ α : Type) := Code σ (Except ε α)

namespace Prog

instance : Monad (Prog ε σ) where
  pure a := Code.done (.ok a)
  bind p f := Code.andThen p fun
    | .ok a => f a
    | .error e => Code.done (.error e)

def raise (e : ε) : Prog ε σ α := Code.done (.error e)

def access (x : EStateM ε σ α) : Prog ε σ α :=
  Code.access (after x) fun s =>
    match x.run s with
    | .ok a _ => Code.done (.ok a)
    | .error e _ => Code.done (.error e)

/-- `with lock:` around `p`. The lock is given back when `p` raises, too. -/
def locked (p : Prog ε σ α) : Prog ε σ α :=
  Code.acquire (Code.andThen p fun r => Code.release (Code.done r))

/-- What the code computes with no other thread around. -/
def serial (p : Prog ε σ α) : EStateM ε σ α := fun s =>
  match Code.exec p s with
  | (.ok a, t) => .ok a t
  | (.error e, t) => .error e t

theorem exec_eq (p : Prog ε σ α) (s : σ) : Code.exec p s =
    match p.serial.run s with
    | .ok a t => (.ok a, t)
    | .error e t => (.error e, t) := by
  have hrun : p.serial.run s = match Code.exec p s with
    | (.ok a, t) => .ok a t
    | (.error e, t) => .error e t := rfl
  rw [hrun]
  rcases Code.exec p s with ⟨e | a, t⟩
  · rfl
  · rfl

@[simp] theorem serial_pure (a : α) : serial (pure a : Prog ε σ α) = pure a := rfl

@[simp] theorem serial_raise (e : ε) : serial (raise e : Prog ε σ α) = throw e := rfl

@[simp] theorem serial_access (x : EStateM ε σ α) : serial (access x) = x := by
  funext s
  cases h : x.run s with
  | ok a t =>
    have hx : x s = .ok a t := h
    simp [serial, access, Code.exec, after, h, hx]
  | error e t =>
    have hx : x s = .error e t := h
    simp [serial, access, Code.exec, after, h, hx]

@[simp] theorem serial_bind (p : Prog ε σ α) (f : α → Prog ε σ β) :
    serial (p >>= f) = serial p >>= fun a => serial (f a) := by
  funext s
  have hb : Code.exec (p >>= f : Prog ε σ β) s = Code.exec _ _ := Code.exec_andThen p _ s
  simp only [serial, hb]
  rcases h : Code.exec p s with ⟨e | a, t⟩
  · simp [bind, EStateM.bind, serial, h, Code.exec]
  · simp [bind, EStateM.bind, serial, h]

@[simp] theorem serial_locked (p : Prog ε σ α) : serial (locked p) = serial p := by
  funext s
  have hl : Code.exec (locked p) s = Code.exec _ _ := Code.exec_andThen p _ s
  simp only [serial, hl]
  rfl

@[simp] theorem serial_ite (c : Prop) [Decidable c] (p q : Prog ε σ α) :
    serial (if c then p else q) = if c then serial p else serial q := by
  split
  · rfl
  · rfl

@[simp] theorem serial_forM (f : α → Prog ε σ PUnit) (l : List α) :
    serial (forM l f) = forM l fun a => serial (f a) := by
  induction l with
  | nil => rfl
  | cons a l ih =>
    rw [List.forM_cons, List.forM_cons, serial_bind, ih]

theorem inner_pure (a : α) : Code.Inner (pure a : Prog ε σ α) := Code.inner_done _

theorem inner_raise (e : ε) : Code.Inner (raise e : Prog ε σ α) := Code.inner_done _

theorem inner_access (x : EStateM ε σ α) : Code.Inner (access x) := by
  intro ρ' k n hk s
  dsimp only
  split
  · exact hk _
  · exact hk _

theorem inner_bind {p : Prog ε σ α} {f : α → Prog ε σ β} (hp : Code.Inner p)
    (hf : ∀ a, Code.Inner (f a)) : Code.Inner (p >>= f : Prog ε σ β) := by
  refine Code.Inner.andThen hp fun r => ?_
  cases r with
  | ok a => exact hf a
  | error e => exact Code.inner_done _

theorem inner_forM {f : α → Prog ε σ PUnit} (hf : ∀ a, Code.Inner (f a)) (l : List α) :
    Code.Inner (forM l f : Prog ε σ PUnit) := by
  induction l with
  | nil => exact inner_pure _
  | cons a l ih => exact inner_bind (hf a) fun _ => ih

theorem inner_locked {p : Prog ε σ α} (hp : Code.Inner p) : Code.Inner (locked p) := by
  intro ρ' k n hk
  refine (congrArg (Code.Holding · (n + 1)) (Code.andThen_assoc p _ k)).mpr ?_
  exact hp _ _ (n + 1) fun r => hk r

/-- A method that is one `with lock:` from its first line to its last. -/
def Block (q : Prog ε σ α) : Prop := ∃ p : Prog ε σ α, Code.Inner p ∧ q = locked p

theorem block {p : Prog ε σ α} (hp : Code.Inner p) : Block (locked p) := ⟨p, hp, rfl⟩

theorem Block.inner {q : Prog ε σ α} (h : Block q) : Code.Inner q := by
  obtain ⟨p, hp, rfl⟩ := h
  exact inner_locked hp

theorem Block.guarded {q : Prog ε σ α} (h : Block q) : Code.Guarded q := by
  obtain ⟨p, hp, rfl⟩ := h
  exact hp _ _ 0 fun r => ⟨r, rfl⟩

theorem guarded_map {q : Prog ε σ α} (h : Code.Guarded q) (f : α → β) :
    Code.Guarded (q >>= fun a => pure (f a) : Prog ε σ β) := by
  have hg : ∀ r : Except ε α, ∃ r' : Except ε β, (match r with
      | .ok a => (pure (f a) : Prog ε σ β)
      | .error e => Code.done (.error e)) = Code.done r' := by
    rintro (e | a)
    · exact ⟨.error e, rfl⟩
    · exact ⟨.ok (f a), rfl⟩
  exact h.andThen hg

theorem looking_map {q : Prog ε σ α} (h : Code.Looking q) (f : α → β) :
    Code.Looking (q >>= fun a => pure (f a) : Prog ε σ β) := by
  refine h.andThen ?_
  rintro (e | a)
  · trivial
  · trivial

end Prog

end Tito.Lib.Monitor
