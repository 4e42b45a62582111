import Tito.Lib.Scheduling

namespace Tito.Lib.Threads

open Mealy Monitor

variable {T σ κ ρ μ : Type}

/-- What a thread that is in no call does next: something of its own, a call, or nothing yet. -/
inductive Doing (μ κ : Type) where
  | own (m : μ)
  | call (k : κ)
  | wait

/-- A program whose threads share an object. `μ` is all that the program keeps besides it. -/
structure Client (T μ κ ρ : Type) where
  next : T → μ → Doing μ κ
  got : T → κ → ρ → μ → μ

theorem Matches.returning [DecidableEq T] {body : κ → Code σ ρ} {looks : κ → Bool}
    {c : Config T σ κ ρ} {a : Object T σ κ ρ} (h : Matches body looks c a) {t : T}
    {e : Event T κ ρ} (he : (c.turn t).1 = some e) :
    ∃ k r o, e = .ret t k r ∧ a.thread t = some (k, o) := by
  have hdone : ∃ k r, c.thread t = some (k, .done r) ∧ e = .ret t k r := by
    rw [Config.turn] at he
    split at he
    · cases he
    · rename_i k r hc
      exact ⟨k, r, hc, (Option.some.inj he).symm⟩
    · cases he
    · split at he <;> cases he
    · split at he <;> cases he
  obtain ⟨k, r, hc, rfl⟩ := hdone
  have hfree : ∀ n, c.lock ≠ some (t, n) := by
    intro n hn
    obtain ⟨k', code, hi⟩ := h.held t n hn
    obtain ⟨rfl, rfl⟩ := Prod.mk.inj (Option.some.inj (hc.symm.trans hi.thread))
    exact hi.holding
  have hout := h.others t hfree
  generalize c.thread t = z, a.thread t = y at hc hout
  cases hout with
  | idle => cases hc
  | @begun k' hk =>
    have hk' : k' = k := congrArg Prod.fst (Option.some.inj hc)
    exact ⟨k, r, none, rfl, hk' ▸ rfl⟩
  | looking hk hcode =>
    cases hc
    exact ⟨k, r, none, rfl, rfl⟩
  | @ended k' r' =>
    cases hc
    exact ⟨k, r, some r, rfl, rfl⟩

namespace Client

variable (p : Client T μ κ ρ)

def hear : Option (Event T κ ρ) → μ → μ
  | some (.ret t k r), m => p.got t k r m
  | some (.call _ _), m => m
  | none, m => m

/-- The program with each call made of its accesses. The scheduler picks who goes on. -/
def step [DecidableEq T] (body : κ → Code σ ρ) : Machine (μ × Config T σ κ ρ) T Unit := fun x t =>
  match x.2.thread t with
  | some _ => ((), p.hear (x.2.turn t).1 x.1, (x.2.turn t).2)
  | none =>
    match p.next t x.1 with
    | .own m => ((), m, x.2)
    | .call k => ((), x.1, (Threads.step body x.2 (.call t k)).2)
    | .wait => ((), x)

/-- What the program keeps to, when each call takes effect at one moment. -/
structure Keeps [DecidableEq T] (spec : Machine σ κ ρ) (looks : κ → Bool)
    (P : μ → Object T σ κ ρ → Prop) : Prop where
  own : ∀ {m m' a t}, P m a → a.thread t = none → p.next t m = .own m' → P m' a
  call : ∀ {m a t k}, P m a → a.thread t = none → p.next t m = .call k →
    P m (a.set t (some (k, none)))
  commit : ∀ {m a t k}, P m a → a.thread t = some (k, none) →
    P m { a.set t (some (k, some (spec a.shared k).1)) with
      shared := (spec a.shared k).2
      log := a.log ++ [(t, k, (spec a.shared k).1)] }
  look : ∀ {m a t k} (r), P m a → a.thread t = some (k, none) → looks k = true →
    P m (a.set t (some (k, some r)))
  ret : ∀ {m a t k r}, P m a → a.thread t = some (k, some r) → P (p.got t k r m) (a.set t none)

variable {p} [DecidableEq T] {spec : Machine σ κ ρ} {looks : κ → Bool}
  {P : μ → Object T σ κ ρ → Prop}

theorem Keeps.move (h : p.Keeps spec looks P) {m : μ} {a : Object T σ κ ρ} (hm : P m a)
    (x : Move T κ ρ)
    (hx : ∀ t k, (Object.step spec looks a x).1 = some (.call t k) → p.next t m = .call k) :
    P (p.hear (Object.step spec looks a x).1 m) (Object.step spec looks a x).2 := by
  cases x with
  | call t k =>
    simp only [Object.step] at hx ⊢
    split at hx
    · rename_i ht
      exact h.call hm ht (hx t k rfl)
    · exact hm
  | commit t =>
    simp only [Object.step]
    split
    · rename_i k ht
      exact h.commit hm ht
    · exact hm
  | look t r =>
    simp only [Object.step]
    split
    · rename_i k ht
      split
      · rename_i hk
        exact h.look r hm ht hk
      · exact hm
    · exact hm
  | ret t =>
    simp only [Object.step]
    split
    · rename_i k r ht
      exact h.ret hm ht
    · exact hm

theorem Keeps.quiet (h : p.Keeps spec looks P) {m : μ} {a : Object T σ κ ρ} (hm : P m a)
    {xs : List (Move T κ ρ)} (hxs : history (Object.step spec looks) a xs = []) :
    P m (final (Object.step spec looks) a xs) := by
  induction xs generalizing a with
  | nil => exact hm
  | cons x xs ih =>
    rw [history_cons, List.append_eq_nil_iff, Option.toList_eq_nil_iff] at hxs
    have hnext := h.move hm x (by simp [hxs.1])
    rw [hxs.1] at hnext
    exact ih hnext hxs.2

theorem Keeps.moves (h : p.Keeps spec looks P) {m : μ} {a : Object T σ κ ρ} (hm : P m a)
    {e : Option (Event T κ ρ)} (he : ∀ t k, e = some (.call t k) → p.next t m = .call k)
    {xs : List (Move T κ ρ)} (hxs : history (Object.step spec looks) a xs = e.toList) :
    P (p.hear e m) (final (Object.step spec looks) a xs) := by
  induction xs generalizing a with
  | nil =>
    obtain rfl : e = none := Option.toList_eq_nil_iff.mp hxs.symm
    exact hm
  | cons x xs ih =>
    rw [history_cons] at hxs
    cases hx : (Object.step spec looks a x).1 with
    | none =>
      have hnext := h.move hm x (by simp [hx])
      rw [hx] at hnext hxs
      exact ih hnext hxs
    | some e' =>
      rw [hx] at hxs
      cases e with
      | none => simp at hxs
      | some e =>
        rw [Option.toList_some, Option.toList_some, List.singleton_append, List.cons.injEq] at hxs
        obtain ⟨rfl, hrest⟩ := hxs
        have hnext := h.move hm x (hx ▸ he)
        rw [hx] at hnext
        exact h.quiet hnext hrest

/-- The program finds an idle thread idle at the object, too. -/
def Stands (P : μ → Object T σ κ ρ → Prop) (body : κ → Code σ ρ) (looks : κ → Bool)
    (x : μ × Config T σ κ ρ) : Prop := ∃ a, P x.1 a ∧ Matches body looks x.2 a

theorem Keeps.step {body : κ → Code σ ρ} (hbody : Disciplined body looks)
    (h : p.Keeps (Threads.spec body) looks P) {x : μ × Config T σ κ ρ}
    (hx : Stands P body looks x) (t : T) : Stands P body looks (p.step body x t).2 := by
  obtain ⟨m, c⟩ := x
  obtain ⟨a, hm, hmatches⟩ := hx
  cases ht : c.thread t with
  | some l =>
    obtain ⟨ms, hms, hnext⟩ := hmatches.step hbody (.turn t)
    simp only [Client.step, ht]
    exact ⟨_, h.moves hm (fun u k hu => absurd hu (c.turn_ne_call t u k)) hms, hnext⟩
  | none =>
    have hidle : a.thread t = none := hmatches.idle ht
    simp only [Client.step, ht]
    cases hp : p.next t m with
    | own m' => exact ⟨a, h.own hm hidle hp, hmatches⟩
    | wait => exact ⟨a, hm, hmatches⟩
    | call k =>
      obtain ⟨ms, hms, hnext⟩ := hmatches.step hbody (.call t k)
      have he : (Threads.step body c (.call t k)).1 = some (.call t k) := by
        simp only [Threads.step, ht]
      rw [he] at hms
      refine ⟨_, h.moves (e := some (.call t k)) hm ?_ hms, hnext⟩
      rintro u k' ⟨⟩
      exact hp

/-- What a program keeps to with an atomic object, it keeps to with the threads' own accesses,
however they interleave. -/
theorem Keeps.run {body : κ → Code σ ρ} (hbody : Disciplined body looks)
    (h : p.Keeps (Threads.spec body) looks P) {x : μ × Config T σ κ ρ}
    (hx : Stands P body looks x) (schedule : List T) :
    Stands P body looks (final (p.step body) x schedule) := by
  have hstep : ∀ x t, Stands P body looks x → Stands P body looks (p.step body x t).2 :=
    fun _ t hx => h.step hbody hx t
  exact invariant hstep hx schedule

variable (p) in
def canMove (x : μ × Config T σ κ ρ) (t : T) : Bool :=
  match x.2.thread t with
  | some _ => x.2.canMove t
  | none =>
    match p.next t x.1 with
    | .wait => false
    | _ => true

theorem Stands.at_rest {body : κ → Code σ ρ} (hbody : Disciplined body looks)
    {x : μ × Config T σ κ ρ} (hx : Stands P body looks x) (hrest : ∀ t, p.canMove x t = false)
    (t : T) : x.2.thread t = none ∧ p.next t x.1 = .wait := by
  obtain ⟨a, -, hmatches⟩ := hx
  have hidle : x.2.thread t = none := by
    by_contra ht
    obtain ⟨u, hu⟩ := hmatches.someone_moves hbody ht
    have hstuck := hrest u
    cases hc : x.2.thread u with
    | none => simp [Config.canMove, hc] at hu
    | some l => simp [canMove, hc, hu] at hstuck
  have hwait := hrest t
  simp only [canMove, hidle] at hwait
  split at hwait
  · rename_i hnext
    exact ⟨hidle, hnext⟩
  · cases hwait

/-- Each thing of its own that the program does, and each return, leaves it less to do. -/
structure Dwindles (p : Client T μ κ ρ) (P : μ → Object T σ κ ρ → Prop) (size : μ → Nat) :
    Prop where
  own : ∀ {m m' a t}, P m a → p.next t m = .own m' → size m' < size m
  ret : ∀ {m a t k o} (r), P m a → a.thread t = some (k, o) → size (p.got t k r m) < size m

section

variable [Fintype T]

def idlers (c : Config T σ κ ρ) : Nat := (Finset.univ.filter fun t => (c.thread t).isNone).card

omit [DecidableEq T] in
theorem idlers_eq {c c' : Config T σ κ ρ} (h : ∀ t, (c'.thread t).isNone = (c.thread t).isNone) :
    idlers c' = idlers c := by
  simp only [idlers, h]

theorem idlers_goOn {c : Config T σ κ ρ} {t : T} (ht : c.thread t = none) (k : κ)
    (code : Code σ ρ) : idlers (c.goOn t k code) < idlers c := by
  apply Finset.card_lt_card
  refine Finset.ssubset_iff_of_subset ?_ |>.mpr ⟨t, ?_, ?_⟩
  · intro u hu
    by_cases hut : u = t
    · subst hut
      simp [ht]
    · simpa [Config.goOn, Function.update_of_ne hut] using hu
  · simp [ht]
  · simp [Config.goOn]

omit [Fintype T] in
theorem isNone_goOn {c : Config T σ κ ρ} {t : T} {l : κ × Code σ ρ} (ht : c.thread t = some l)
    (k : κ) (code : Code σ ρ) (u : T) :
    ((c.goOn t k code).thread u).isNone = (c.thread u).isNone := by
  by_cases hut : u = t
  · subst hut
    simp [Config.goOn, ht]
  · simp [Config.goOn, Function.update_of_ne hut]

omit [Fintype T] in
theorem isNone_turn {c : Config T σ κ ρ} {t : T} (h : (c.turn t).1 = none) (u : T) :
    ((c.turn t).2.thread u).isNone = (c.thread u).isNone := by
  cases hc : c.thread t with
  | none => simp only [Config.turn, hc]
  | some l =>
    obtain ⟨k, code⟩ := l
    cases code with
    | done r => simp [Config.turn, hc] at h
    | access write next =>
      simp only [Config.turn, hc]
      exact isNone_goOn hc k _ u
    | acquire next =>
      simp only [Config.turn, hc]
      cases Lock.acquire t c.lock with
      | none => rfl
      | some l => exact isNone_goOn hc k _ u
    | release next =>
      simp only [Config.turn, hc]
      cases Lock.release t c.lock with
      | none => rfl
      | some l => exact isNone_goOn hc k _ u

noncomputable def left (size : μ → Nat) (x : μ × Config T σ κ ρ) :
    Nat ×ₗ Nat ×ₗ (T → Ordinal.{0}) :=
  toLex (size x.1, toLex (idlers x.2, x.2.rest))

theorem Stands.left_lt {body : κ → Code σ ρ} {size : μ → Nat} (hsize : p.Dwindles P size)
    {x : μ × Config T σ κ ρ} (hx : Stands P body looks x) {t : T} (ht : p.canMove x t = true) :
    left size (p.step body x t).2 < left size x := by
  obtain ⟨m, c⟩ := x
  obtain ⟨a, hm, hmatches⟩ := hx
  cases hc : c.thread t with
  | none =>
    simp only [canMove, hc] at ht
    simp only [Client.step, hc]
    cases hnext : p.next t m with
    | own m' => exact Prod.Lex.toLex_lt_toLex.mpr (.inl (hsize.own hm hnext))
    | wait => simp [hnext] at ht
    | call k =>
      simp only [Threads.step, hc]
      refine Prod.Lex.toLex_lt_toLex.mpr (.inr ⟨rfl, ?_⟩)
      exact Prod.Lex.toLex_lt_toLex.mpr (.inl (idlers_goOn hc k _))
  | some l =>
    simp only [canMove, hc] at ht
    simp only [Client.step, hc]
    have hrest := Config.turn_rest ht
    cases he : (c.turn t).1 with
    | none =>
      refine Prod.Lex.toLex_lt_toLex.mpr (.inr ⟨rfl, ?_⟩)
      exact Prod.Lex.toLex_lt_toLex.mpr (.inr ⟨idlers_eq (isNone_turn he), hrest⟩)
    | some e =>
      obtain ⟨k, r, o, rfl, ha⟩ := hmatches.returning he
      exact Prod.Lex.toLex_lt_toLex.mpr (.inl (hsize.ret r hm ha))

/-- A scheduler that picks a thread that can move, where there is one, brings the program to a
state where nobody can. -/
theorem Keeps.comes_to_rest {body : κ → Code σ ρ} (hbody : Disciplined body looks)
    (h : p.Keeps (Threads.spec body) looks P) {size : μ → Nat} (hsize : p.Dwindles P size)
    {pick : μ × Config T σ κ ρ → T}
    (hpick : ∀ x : μ × Config T σ κ ρ, (∃ t, p.canMove x t = true) → p.canMove x (pick x) = true)
    {x : μ × Config T σ κ ρ} (hx : Stands P body looks x) :
    ∃ n, Stands P body looks ((fun x => (p.step body x (pick x)).2)^[n] x) ∧
      ∀ t, p.canMove ((fun x => (p.step body x (pick x)).2)^[n] x) t = false := by
  have hwf : WellFounded fun x y : μ × Config T σ κ ρ => left size x < left size y :=
    InvImage.wf (left size) wellFounded_lt
  induction x using hwf.induction with
  | _ x ih =>
    by_cases hmove : ∃ t, p.canMove x t = true
    · obtain ⟨n, hn⟩ := ih _ (hx.left_lt hsize (hpick x hmove)) (h.step hbody hx (pick x))
      exact ⟨n + 1, hn⟩
    · exact ⟨0, hx, fun t => eq_false_of_ne_true fun ht => hmove ⟨t, ht⟩⟩

end

end Client

end Tito.Lib.Threads
