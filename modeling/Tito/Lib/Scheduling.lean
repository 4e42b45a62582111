import Tito.Lib.Threads
import Mathlib.Data.DFinsupp.WellFounded
import Mathlib.SetTheory.Ordinal.Family

namespace Tito.Lib.Threads

open Mealy Monitor

variable {T σ κ ρ : Type} [DecidableEq T]

section

variable {body : κ → Code σ ρ} {looks : κ → Bool}

def Config.canMove (c : Config T σ κ ρ) (t : T) : Bool :=
  match c.thread t with
  | none => false
  | some (_, .acquire _) => (Lock.acquire t c.lock).isSome
  | some (_, .release _) => (Lock.release t c.lock).isSome
  | some _ => true

/-- The holder of the lock can move, and anyone can while nobody holds it. -/
theorem Matches.someone_moves (hbody : Disciplined body looks) {c : Config T σ κ ρ}
    {a : Object T σ κ ρ} (h : Matches body looks c a) {t : T} (ht : c.thread t ≠ none) :
    ∃ u, c.canMove u = true := by
  cases hl : c.lock with
  | some l =>
    obtain ⟨u, n⟩ := l
    obtain ⟨k, code, hi⟩ := h.held u n hl
    have hholding := hi.holding
    refine ⟨u, ?_⟩
    cases code with
    | done r => exact hholding.elim
    | access write next => simp [Config.canMove, hi.thread]
    | acquire next => simp [Config.canMove, hi.thread, hl, Lock.acquire]
    | release next => cases n <;> simp [Config.canMove, hi.thread, hl, Lock.release]
  | none =>
    have hout := h.others t (by simp [hl])
    refine ⟨t, ?_⟩
    generalize hc : c.thread t = x, a.thread t = y at hout
    cases hout with
    | idle => exact absurd hc ht
    | @begun k hk =>
      have hguarded := hbody.guarded k hk
      generalize body k = code at hguarded hc
      cases code with
      | done r => simp [Config.canMove, hc]
      | acquire next => simp [Config.canMove, hc, hl, Lock.acquire]
      | access write next => exact hguarded.elim
      | release next => exact hguarded.elim
    | @looking k code hk hcode =>
      cases code with
      | done r => simp [Config.canMove, hc]
      | access write next => simp [Config.canMove, hc]
      | acquire next => exact hcode.elim
      | release next => exact hcode.elim
    | ended => simp [Config.canMove, hc]

end

/-- How long the code can go on, whatever the values it reads. -/
noncomputable def rank : Code σ ρ → Ordinal.{0}
  | .done _ => 0
  | .access _ next => ⨆ s, rank (next s) + 1
  | .acquire next => rank next + 1
  | .release next => rank next + 1

noncomputable def Config.rest (c : Config T σ κ ρ) (t : T) : Ordinal.{0} :=
  match c.thread t with
  | none => 0
  | some (_, code) => rank code + 1

theorem Config.rest_lt {c c' : Config T σ κ ρ} {t : T} {x : Option (κ × Code σ ρ)}
    (hc : c'.thread = Function.update c.thread t x)
    (hx : Config.rest { c with thread := fun _ => x } t < c.rest t) : c'.rest < c.rest := by
  refine Pi.lt_def.mpr ⟨fun u => ?_, t, ?_⟩
  · by_cases hu : u = t
    · subst hu
      refine le_of_lt (lt_of_eq_of_lt ?_ hx)
      simp only [Config.rest, hc, Function.update_self]
    · simp only [Config.rest, hc, Function.update_of_ne hu, le_refl]
  · refine lt_of_eq_of_lt ?_ hx
    simp only [Config.rest, hc, Function.update_self]

theorem Config.turn_rest {c : Config T σ κ ρ} {t : T} (h : c.canMove t = true) :
    (c.turn t).2.rest < c.rest := by
  cases hc : c.thread t with
  | none => simp [canMove, hc] at h
  | some l =>
    obtain ⟨k, code⟩ := l
    cases code with
    | done r =>
      refine rest_lt (t := t) (x := none) (by simp [turn, hc]) ?_
      simp [rest, hc]
    | access write next =>
      refine rest_lt (t := t) (x := some (k, next c.shared)) (by simp [turn, hc, goOn]) ?_
      have hlt := Ordinal.lt_iSup_add_one (fun s => rank (next s)) c.shared
      simpa [rest, hc, rank] using hlt
    | acquire next =>
      obtain ⟨l, hl⟩ := Option.isSome_iff_exists.mp (by simpa [canMove, hc] using h)
      refine rest_lt (t := t) (x := some (k, next)) (by simp [turn, hc, hl, goOn]) ?_
      simp [rest, hc, rank]
    | release next =>
      obtain ⟨l, hl⟩ := Option.isSome_iff_exists.mp (by simpa [canMove, hc] using h)
      refine rest_lt (t := t) (x := some (k, next)) (by simp [turn, hc, hl, goOn]) ?_
      simp [rest, hc, rank]

/-- A scheduler that picks a thread that can move, where there is one, sees every call return. -/
theorem Matches.finishes [Fintype T] {body : κ → Code σ ρ} {looks : κ → Bool}
    (hbody : Disciplined body looks) {pick : Config T σ κ ρ → T}
    (hpick : ∀ c : Config T σ κ ρ, (∃ t, c.canMove t = true) → c.canMove (pick c) = true)
    {c : Config T σ κ ρ}
    {a : Object T σ κ ρ} (h : Matches body looks c a) :
    ∃ n, ∀ t, ((fun c => (c.turn (pick c)).2)^[n] c).thread t = none := by
  have hwf : WellFounded (fun c c' : Config T σ κ ρ => c.rest < c'.rest) :=
    InvImage.wf Config.rest wellFounded_lt
  induction c using hwf.induction generalizing a with
  | _ c ih =>
    by_cases hidle : ∀ t, c.thread t = none
    · exact ⟨0, hidle⟩
    · obtain ⟨t, ht⟩ := not_forall.mp hidle
      have hmove := hpick c (h.someone_moves hbody ht)
      obtain ⟨ms, -, hnext⟩ := h.step hbody (.turn (pick c))
      obtain ⟨n, hn⟩ := ih _ (Config.turn_rest hmove) hnext
      exact ⟨n + 1, hn⟩

end Tito.Lib.Threads
