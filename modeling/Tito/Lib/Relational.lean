import Tito.Lib.Effects

namespace Tito.Lib.Relational

open Effects

variable {ε σ α β γ δ : Type}

/-- Two calls have ended alike: both returned or both raised, with related values and states. -/
def Meets (R : σ → σ → Prop) (E : ε → ε → Prop) (Q : α → β → Prop) :
    EStateM.Result ε σ α → EStateM.Result ε σ β → Prop
  | .ok a s, .ok b t => Q a b ∧ R s t
  | .error e s, .error f t => E e f ∧ R s t
  | _, _ => False

def Lockstep (R : σ → σ → Prop) (E : ε → ε → Prop) (Q : α → β → Prop) (p : EStateM ε σ α)
    (q : EStateM ε σ β) : Prop :=
  ∀ s t, R s t → Meets R E Q (p.run s) (q.run t)

def Done (_ _ : PUnit) : Prop := True

variable {R : σ → σ → Prop} {E : ε → ε → Prop} {Q : α → β → Prop} {Q' : γ → δ → Prop}

theorem Meets.ok {a : α} {s : σ} {r : EStateM.Result ε σ β} (h : Meets R E Q (.ok a s) r) :
    ∃ b t, r = .ok b t ∧ Q a b ∧ R s t := by
  cases r with
  | ok b t => exact ⟨b, t, rfl, h⟩
  | error f t => exact h.elim

theorem Meets.error {e : ε} {s : σ} {r : EStateM.Result ε σ β} (h : Meets R E Q (.error e s) r) :
    ∃ f t, r = .error f t ∧ E e f ∧ R s t := by
  cases r with
  | ok b t => exact h.elim
  | error f t => exact ⟨f, t, rfl, h⟩

/-- A bind goes on from the values and the states that its first part has left. -/
theorem Meets.bind {p : EStateM ε σ α} {q : EStateM ε σ β} {f : α → EStateM ε σ γ}
    {g : β → EStateM ε σ δ} {s t : σ} (h : Meets R E Q (p.run s) (q.run t))
    (hf : ∀ a b s' t', p.run s = .ok a s' → Q a b → R s' t' →
      Meets R E Q' ((f a).run s') ((g b).run t')) :
    Meets R E Q' ((p >>= f).run s) ((q >>= g).run t) := by
  rw [EStateM.run_bind, EStateM.run_bind]
  cases hp : p.run s with
  | ok a s' =>
    rw [hp] at h
    obtain ⟨b, t', hq, hab, hs'⟩ := h.ok
    rw [hq]
    exact hf a b s' t' hp hab hs'
  | error e s' =>
    rw [hp] at h
    obtain ⟨f, t', hq, hef, hs'⟩ := h.error
    rw [hq]
    exact ⟨hef, hs'⟩

namespace Lockstep

theorem pure {a : α} {b : β} (h : Q a b) : Lockstep R E Q (pure a) (pure b) :=
  fun _ _ hs => ⟨h, hs⟩

theorem throw {e f : ε} (h : E e f) : Lockstep R E Q (throw e) (throw f) :=
  fun _ _ hs => ⟨h, hs⟩

theorem bind {p : EStateM ε σ α} {q : EStateM ε σ β} {f : α → EStateM ε σ γ}
    {g : β → EStateM ε σ δ} (hp : Lockstep R E Q p q)
    (hf : ∀ a b, Q a b → Lockstep R E Q' (f a) (g b)) :
    Lockstep R E Q' (p >>= f) (q >>= g) :=
  fun s t hs => (hp s t hs).bind fun a b s' t' _ hab hs' => hf a b hab s' t' hs'

theorem get_bind {f : σ → EStateM ε σ α} {g : σ → EStateM ε σ β}
    (h : ∀ s t, R s t → Meets R E Q ((f s).run s) ((g t).run t)) :
    Lockstep R E Q (get >>= f) (get >>= g) :=
  fun s t hs => h s t hs

theorem get_ite {c : σ → Prop} [DecidablePred c] {p p' : EStateM ε σ α} {q q' : EStateM ε σ β}
    (hc : ∀ s t, R s t → (c s ↔ c t)) (hp : Lockstep R E Q p q) (hp' : Lockstep R E Q p' q') :
    Lockstep R E Q (get >>= fun s => if c s then p else p')
      (get >>= fun s => if c s then q else q') := by
  refine get_bind fun s t hs => ?_
  by_cases h : c s
  · rw [if_pos h, if_pos ((hc s t hs).mp h)]
    exact hp s t hs
  · rw [if_neg h, if_neg (mt (hc s t hs).mpr h)]
    exact hp' s t hs

theorem modify {f g : σ → σ} (h : ∀ s t, R s t → R (f s) (g t)) :
    Lockstep R E Done (modify f) (modify g) :=
  fun s t hs => ⟨trivial, h s t hs⟩

theorem forM {f g : α → EStateM ε σ PUnit} {l : List α}
    (h : ∀ a ∈ l, Lockstep R E Done (f a) (g a)) : Lockstep R E Done (l.forM f) (l.forM g) := by
  induction l with
  | nil => exact pure trivial
  | cons a l ih =>
    refine bind (h a List.mem_cons_self) fun _ _ _ => ?_
    exact ih fun b hb => h b (List.mem_cons_of_mem a hb)

end Lockstep

end Tito.Lib.Relational
