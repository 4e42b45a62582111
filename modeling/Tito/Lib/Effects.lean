namespace Tito.Lib.Effects

variable {ε σ α β γ : Type}

@[simp] theorem run_map (p : EStateM ε σ α) (f : α → β) (s : σ) :
    (f <$> p).run s = match p.run s with
      | .ok a t => .ok (f a) t
      | .error e t => .error e t := by
  rw [← bind_pure_comp, EStateM.run_bind]
  cases p.run s <;> rfl

@[simp] theorem run_throw (e : ε) (s : σ) : (throw e : EStateM ε σ α).run s = .error e s := rfl

theorem ext_run {p q : EStateM ε σ α} (h : ∀ s, p.run s = q.run s) : p = q := funext h

def after (p : EStateM ε σ α) (s : σ) : σ :=
  match p.run s with
  | .ok _ t => t
  | .error _ t => t

theorem after_modify (f : σ → σ) (s : σ) : after (modify f : EStateM ε σ PUnit) s = f s := rfl

/-- Every run of `p` moves the state along `R`. -/
def Keeps (R : σ → σ → Prop) (p : EStateM ε σ α) : Prop := ∀ s, R s (after p s)

structure Frame (R : σ → σ → Prop) : Prop where
  refl : ∀ s, R s s
  trans : ∀ {s t u}, R s t → R t u → R s u

theorem frame_eq (f : σ → γ) : Frame fun s t => f t = f s :=
  ⟨fun _ => rfl, fun h h' => h'.trans h⟩

theorem Keeps.ok {R : σ → σ → Prop} {p : EStateM ε σ α} (h : Keeps R p) {s t : σ} {a : α}
    (hp : p.run s = .ok a t) : R s t := by
  have hs := h s
  rwa [after, hp] at hs

theorem Keeps.error {R : σ → σ → Prop} {p : EStateM ε σ α} (h : Keeps R p) {s t : σ} {e : ε}
    (hp : p.run s = .error e t) : R s t := by
  have hs := h s
  rwa [after, hp] at hs

theorem bind_ok {p : EStateM ε σ α} {f : α → EStateM ε σ β} {s u : σ} {b : β}
    (h : (p >>= f).run s = .ok b u) : ∃ a t, p.run s = .ok a t ∧ (f a).run t = .ok b u := by
  rw [EStateM.run_bind] at h
  cases hp : p.run s with
  | ok a t =>
    rw [hp] at h
    exact ⟨a, t, rfl, h⟩
  | error e t =>
    rw [hp] at h
    cases h

section

variable {R : σ → σ → Prop} (hR : Frame R)

include hR

theorem Frame.pure (a : α) : Keeps R (pure a : EStateM ε σ α) := hR.refl

theorem Frame.throw (e : ε) : Keeps R (throw e : EStateM ε σ α) := hR.refl

theorem Frame.get : Keeps R (get : EStateM ε σ σ) := hR.refl

theorem Frame.bind {p : EStateM ε σ α} {f : α → EStateM ε σ β} (hp : Keeps R p)
    (hf : ∀ a, Keeps R (f a)) : Keeps R (p >>= f) := by
  intro s
  unfold after
  rw [EStateM.run_bind]
  cases h : p.run s with
  | ok a t =>
    dsimp only
    exact hR.trans (hp.ok h) (hf a t)
  | error e t => exact hp.error h

theorem Frame.forM {f : α → EStateM ε σ PUnit} (hf : ∀ a, Keeps R (f a)) (l : List α) :
    Keeps R (l.forM f) := by
  induction l with
  | nil => exact hR.pure PUnit.unit
  | cons a l ih => exact hR.bind (hf a) fun _ => ih

omit hR in
theorem Frame.modify {f : σ → σ} (h : ∀ s, R s (f s)) : Keeps R (modify f : EStateM ε σ PUnit) := h

omit hR in
theorem Frame.modifyGet {f : σ → α × σ} (h : ∀ s, R s (f s).2) :
    Keeps R (modifyGet f : EStateM ε σ α) := h

end

end Tito.Lib.Effects
