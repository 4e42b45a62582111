import Tito.Lib.Monitor
import Mathlib.Data.List.Flatten
import Mathlib.Data.List.Perm.Basic

namespace Tito.Lib.Threads

open Mealy Monitor

variable {T σ κ ρ : Type} [DecidableEq T]

/-- A reentrant lock: the thread that holds it, and how many times over and above the first. -/
abbrev Lock (T : Type) := Option (T × Nat)

/-- What the lock becomes when `t` takes it, unless another thread holds it. -/
def Lock.acquire (t : T) : Lock T → Option (Lock T)
  | none => some (some (t, 0))
  | some (u, n) => if u = t then some (some (t, n + 1)) else none

/-- What the lock becomes when `t` gives it back, unless it does not hold it. -/
def Lock.release (t : T) : Lock T → Option (Lock T)
  | none => none
  | some (u, 0) => if u = t then some none else none
  | some (u, n + 1) => if u = t then some (some (t, n)) else none

inductive Event (T κ ρ : Type) where
  | call (t : T) (k : κ)
  | ret (t : T) (k : κ) (r : ρ)
  deriving DecidableEq

/-- What the scheduler picks: a thread is given a call to make, or one step of the call it is in. -/
inductive Choice (T κ : Type) where
  | call (t : T) (k : κ)
  | turn (t : T)

/-- Threads that share a state and its lock. A thread in a call has some of its code left. -/
structure Config (T σ κ ρ : Type) where
  shared : σ
  lock : Lock T
  thread : T → Option (κ × Code σ ρ)

namespace Config

def init (s : σ) : Config T σ κ ρ := ⟨s, none, fun _ => none⟩

def goOn (c : Config T σ κ ρ) (t : T) (k : κ) (code : Code σ ρ) : Config T σ κ ρ :=
  { c with thread := Function.update c.thread t (some (k, code)) }

/-- The next step of thread `t`. It waits where another thread holds the lock it needs. -/
def turn (c : Config T σ κ ρ) (t : T) : Option (Event T κ ρ) × Config T σ κ ρ :=
  match c.thread t with
  | none => (none, c)
  | some (k, .done r) => (some (.ret t k r), { c with thread := Function.update c.thread t none })
  | some (k, .access write next) =>
    (none, { c.goOn t k (next c.shared) with shared := write c.shared })
  | some (k, .acquire next) =>
    match Lock.acquire t c.lock with
    | none => (none, c)
    | some l => (none, { c.goOn t k next with lock := l })
  | some (k, .release next) =>
    match Lock.release t c.lock with
    | none => (none, c)
    | some l => (none, { c.goOn t k next with lock := l })

theorem turn_ne_call (c : Config T σ κ ρ) (t u : T) (k : κ) : (c.turn t).1 ≠ some (.call u k) := by
  rw [turn]
  split
  · simp
  · simp
  · simp
  · split <;> simp
  · split <;> simp

end Config

def step (body : κ → Code σ ρ) :
    Machine (Config T σ κ ρ) (Choice T κ) (Option (Event T κ ρ)) := fun c x =>
  match x with
  | .call t k =>
    match c.thread t with
    | none => (some (.call t k), c.goOn t k (body k))
    | some _ => (none, c)
  | .turn t => c.turn t

def history {ι : Type} (m : Machine σ ι (Option (Event T κ ρ))) (s : σ) (xs : List ι) :
    List (Event T κ ρ) := (answers m s xs).filterMap id

/-- The atomic object that a lock is meant to make of its state: each call takes effect at one
moment between its beginning and its return. `log` lists the calls that took effect. -/
structure Object (T σ κ ρ : Type) where
  shared : σ
  thread : T → Option (κ × Option ρ)
  log : List (T × κ × ρ)

inductive Move (T κ ρ : Type) where
  | call (t : T) (k : κ)
  | commit (t : T)
  | look (t : T) (r : ρ)
  | ret (t : T)

namespace Object

def init (s : σ) : Object T σ κ ρ := ⟨s, fun _ => none, []⟩

def set (a : Object T σ κ ρ) (t : T) (l : Option (κ × Option ρ)) : Object T σ κ ρ :=
  { a with thread := Function.update a.thread t l }

def step (spec : Machine σ κ ρ) (looks : κ → Bool) :
    Machine (Object T σ κ ρ) (Move T κ ρ) (Option (Event T κ ρ)) := fun a x =>
  match x with
  | .call t k =>
    match a.thread t with
    | none => (some (.call t k), a.set t (some (k, none)))
    | some _ => (none, a)
  | .commit t =>
    match a.thread t with
    | some (k, none) =>
      (none, { a.set t (some (k, some (spec a.shared k).1)) with
        shared := (spec a.shared k).2
        log := a.log ++ [(t, k, (spec a.shared k).1)] })
    | _ => (none, a)
  | .look t r =>
    match a.thread t with
    | some (k, none) => (none, if looks k then a.set t (some (k, some r)) else a)
    | _ => (none, a)
  | .ret t =>
    match a.thread t with
    | some (k, some r) => (some (.ret t k r), a.set t none)
    | _ => (none, a)

end Object

def spec (body : κ → Code σ ρ) : Machine σ κ ρ := fun s k => (body k).exec s

section

variable (body : κ → Code σ ρ) (looks : κ → Bool)

/-- Every call has the lock for all that it does, or only looks. -/
structure Disciplined : Prop where
  guarded : ∀ k, looks k = false → (body k).Guarded
  looking : ∀ k, looks k = true → (body k).Looking

/-- What a thread that does not hold the lock has left of its call, and where that call stands
with the object. -/
inductive Outside : Option (κ × Code σ ρ) → Option (κ × Option ρ) → Prop
  | idle : Outside none none
  | begun {k : κ} (hk : looks k = false) : Outside (some (k, body k)) (some (k, none))
  | looking {k : κ} {code : Code σ ρ} (hk : looks k = true) (hcode : code.Looking) :
      Outside (some (k, code)) (some (k, none))
  | ended {k : κ} {r : ρ} : Outside (some (k, .done r)) (some (k, some r))

/-- The thread that holds the lock is on its way from the state of the object to the one that
the object will have. -/
structure Inside (c : Config T σ κ ρ) (a : Object T σ κ ρ) (t : T) (n : Nat) (k : κ)
    (code : Code σ ρ) : Prop where
  thread : c.thread t = some (k, code)
  pending : a.thread t = some (k, none)
  guarded : looks k = false
  holding : code.Holding n
  rest : code.exec c.shared = (body k).exec a.shared

/-- The threads stand for an atomic object. A call takes effect when the lock is given back. -/
structure Matches (c : Config T σ κ ρ) (a : Object T σ κ ρ) : Prop where
  free : c.lock = none → c.shared = a.shared
  held : ∀ t n, c.lock = some (t, n) → ∃ k code, Inside body looks c a t n k code
  others : ∀ t, (∀ n, c.lock ≠ some (t, n)) → Outside body looks (c.thread t) (a.thread t)

end

namespace Matches

variable {body : κ → Code σ ρ} {looks : κ → Bool} {c : Config T σ κ ρ} {a : Object T σ κ ρ} {t : T}

omit [DecidableEq T] in
theorem init (s : σ) : Matches body looks (Config.init s : Config T σ κ ρ) (Object.init s) where
  free := fun _ => rfl
  held := fun _ _ h => nomatch h
  others := fun _ _ => .idle

theorem inside_step (h : Matches body looks c a) {n n' : Nat} {k : κ} {code code' : Code σ ρ}
    (hl : c.lock = some (t, n)) (hi : Inside body looks c a t n k code) {s : σ}
    (hholding : code'.Holding n') (hrest : code'.exec s = code.exec c.shared) :
    Matches body looks { c.goOn t k code' with shared := s, lock := some (t, n') } a where
  free := fun hn => nomatch hn
  held := by
    rintro u m ⟨⟩
    exact ⟨k, code', Function.update_self .., hi.pending, hi.guarded, hholding,
      hrest.trans hi.rest⟩
  others := by
    intro u hu
    have hne : u ≠ t := by
      rintro rfl
      exact hu n' rfl
    have hout := h.others u fun m hm => hne (congrArg Prod.fst (Option.some.inj (hm.symm.trans hl)))
    dsimp only [Config.goOn]
    rwa [Function.update_of_ne hne]

theorem outside_step (h : Matches body looks c a) (ht : ∀ n, c.lock ≠ some (t, n))
    {x : Option (κ × Code σ ρ)} {y : Option (κ × Option ρ)} (ho : Outside body looks x y)
    (log : List (T × κ × ρ)) :
    Matches body looks { c with thread := Function.update c.thread t x }
      { a.set t y with log := log } where
  free := h.free
  held := by
    intro u n hu
    have hne : u ≠ t := by
      rintro rfl
      exact ht n hu
    obtain ⟨k, code, hi⟩ := h.held u n hu
    refine ⟨k, code, ?_, ?_, hi.guarded, hi.holding, hi.rest⟩
    · exact (Function.update_of_ne hne _ _).trans hi.thread
    · exact (Function.update_of_ne hne _ _).trans hi.pending
  others := by
    intro u hu
    dsimp only [Object.set]
    by_cases hut : u = t
    · subst hut
      rwa [Function.update_self, Function.update_self]
    · rw [Function.update_of_ne hut, Function.update_of_ne hut]
      exact h.others u hu

/-- Giving the lock back for good is the moment at which the call takes effect. -/
theorem committed (h : Matches body looks c a) {k : κ} {r : ρ}
    (hl : c.lock = some (t, 0)) (hi : Inside body looks c a t 0 k (.release (.done r))) :
    Matches body looks { c.goOn t k (.done r) with lock := none }
      (Object.step (spec body) looks a (.commit t)).2 := by
  have hrest : (body k).exec a.shared = (r, c.shared) := hi.rest.symm
  have hcommit : (Object.step (spec body) looks a (.commit t)).2 =
      { a.set t (some (k, some r)) with shared := c.shared, log := a.log ++ [(t, k, r)] } := by
    simp only [Object.step, hi.pending, spec, hrest]
  rw [hcommit]
  refine ⟨fun _ => rfl, fun u n hu => (nomatch hu), fun u _ => ?_⟩
  dsimp only [Config.goOn, Object.set]
  by_cases hut : u = t
  · subst hut
    rw [Function.update_self, Function.update_self]
    exact .ended
  · rw [Function.update_of_ne hut, Function.update_of_ne hut]
    exact h.others u fun n hn => hut (congrArg Prod.fst (Option.some.inj (hn.symm.trans hl)))

theorem entered (h : Matches body looks c a) {k : κ} {next : Code σ ρ} (hl : c.lock = none)
    (hk : looks k = false) (hbody : body k = .acquire next) (hholding : next.Holding 0)
    (ha : a.thread t = some (k, none)) :
    Matches body looks { c.goOn t k next with lock := some (t, 0) } a where
  free := fun hn => nomatch hn
  held := by
    rintro u m ⟨⟩
    refine ⟨k, next, Function.update_self .., ha, hk, hholding, ?_⟩
    rw [hbody, ← h.free hl]
    rfl
  others := by
    intro u hu
    have hne : u ≠ t := by
      rintro rfl
      exact hu 0 rfl
    have hout := h.others u fun m hm => nomatch hl.symm.trans hm
    dsimp only [Config.goOn]
    rwa [Function.update_of_ne hne]

/-- What a step of the threads is for the object: the same event after at most one hidden move. -/
def Follows (body : κ → Code σ ρ) (looks : κ → Bool) (a : Object T σ κ ρ)
    (e : Option (Event T κ ρ)) (c : Config T σ κ ρ) : Prop :=
  ∃ ms, history (Object.step (spec body) looks) a ms = e.toList ∧
    Matches body looks c (final (Object.step (spec body) looks) a ms)

theorem turn_inside (h : Matches body looks c a) {n : Nat} (hl : c.lock = some (t, n)) :
    Follows body looks a (c.turn t).1 (c.turn t).2 := by
  obtain ⟨k, code, hi⟩ := h.held t n hl
  have hholding := hi.holding
  cases code with
  | done r => exact hholding.elim
  | access write next =>
    have hturn : c.turn t = (none, { c.goOn t k (next c.shared) with
        shared := write c.shared, lock := some (t, n) }) := by
      simp only [Config.turn, hi.thread, ← hl]
      rfl
    rw [hturn]
    exact ⟨[], rfl, h.inside_step hl hi (hholding c.shared) rfl⟩
  | acquire next =>
    have hturn : c.turn t = (none, { c.goOn t k next with
        shared := c.shared, lock := some (t, n + 1) }) := by
      simp [Config.turn, hi.thread, Lock.acquire, hl, Config.goOn]
    rw [hturn]
    exact ⟨[], rfl, h.inside_step hl hi hholding rfl⟩
  | release next =>
    cases n with
    | succ n =>
      have hturn : c.turn t = (none, { c.goOn t k next with
          shared := c.shared, lock := some (t, n) }) := by
        simp [Config.turn, hi.thread, Lock.release, hl, Config.goOn]
      rw [hturn]
      exact ⟨[], rfl, h.inside_step hl hi hholding rfl⟩
    | zero =>
      obtain ⟨r, rfl⟩ := hholding
      have hturn : c.turn t = (none, { c.goOn t k (.done r) with lock := none }) := by
        simp [Config.turn, hi.thread, Lock.release, hl]
      have hquiet : (Object.step (spec body) looks a (.commit t)).1 = none := by
        simp [Object.step, hi.pending]
      rw [hturn]
      refine ⟨[.commit t], ?_, h.committed hl hi⟩
      simp [history, answers, hquiet]

theorem returned (h : Matches body looks c a) (ht : ∀ n, c.lock ≠ some (t, n)) {k : κ} {r : ρ}
    (hc : c.thread t = some (k, .done r)) (ha : a.thread t = some (k, some r)) :
    (Object.step (spec body) looks a (.ret t)).1 = (c.turn t).1 ∧
      Matches body looks (c.turn t).2 (Object.step (spec body) looks a (.ret t)).2 := by
  have hturn : c.turn t =
      (some (.ret t k r), { c with thread := Function.update c.thread t none }) := by
    simp only [Config.turn, hc]
  have hret : Object.step (spec body) looks a (.ret t) = (some (.ret t k r), a.set t none) := by
    simp only [Object.step, ha]
  rw [hturn, hret]
  exact ⟨rfl, h.outside_step ht .idle a.log⟩

theorem looked (h : Matches body looks c a) (ht : ∀ n, c.lock ≠ some (t, n)) {k : κ} {r : ρ}
    (hc : c.thread t = some (k, .done r)) (ha : a.thread t = some (k, none))
    (hk : looks k = true ∨ body k = .done r) : Follows body looks a (c.turn t).1 (c.turn t).2 := by
  have hover : ∀ (m : Move T κ ρ) (log : List (T × κ × ρ)),
      Object.step (spec body) looks a m = (none, { a.set t (some (k, some r)) with log := log }) →
      Follows body looks a (c.turn t).1 (c.turn t).2 := by
    intro m log hm
    have hset : Function.update c.thread t (some (k, .done r)) = c.thread :=
      (Function.update_eq_self_iff).mpr hc.symm
    have hended : Outside body looks (some (k, .done r)) (some (k, some r)) := .ended
    have hout := h.outside_step ht hended log
    rw [hset] at hout
    obtain ⟨hev, hnext⟩ := hout.returned ht hc (Function.update_self ..)
    refine ⟨[m, .ret t], ?_, ?_⟩
    · rw [history, answers, hm, answers, hev]
      cases (c.turn t).1 <;> rfl
    · rw [final_cons, final_cons, hm]
      exact hnext
  rcases hk with hk | hk
  · exact hover (.look t r) a.log (by simp [Object.step, ha, hk]; rfl)
  · exact hover (.commit t) _ (by simp only [Object.step, ha, spec, hk, Code.exec]; rfl)

theorem turn_outside (hbody : Disciplined body looks) (h : Matches body looks c a)
    (ht : ∀ n, c.lock ≠ some (t, n)) : Follows body looks a (c.turn t).1 (c.turn t).2 := by
  have hout := h.others t ht
  generalize hc : c.thread t = x, ha : a.thread t = y at hout
  cases hout with
  | idle =>
    have hturn : c.turn t = (none, c) := by simp only [Config.turn, hc]
    rw [hturn]
    exact ⟨[], rfl, h⟩
  | @begun k hk =>
    have hguarded := hbody.guarded k hk
    generalize hcode : body k = code at hguarded hc
    cases code with
    | done r => exact h.looked ht hc ha (Or.inr hcode)
    | access write next => exact hguarded.elim
    | release next => exact hguarded.elim
    | acquire next =>
      cases hl : c.lock with
      | none =>
        have hturn : c.turn t = (none, { c.goOn t k next with lock := some (t, 0) }) := by
          simp only [Config.turn, hc, hl, Lock.acquire]
        rw [hturn]
        exact ⟨[], rfl, h.entered hl hk hcode hguarded ha⟩
      | some l =>
        obtain ⟨u, n⟩ := l
        have hne : u ≠ t := by
          rintro rfl
          exact ht n hl
        have hturn : c.turn t = (none, c) := by simp [Config.turn, hc, hl, Lock.acquire, hne]
        rw [hturn]
        exact ⟨[], rfl, h⟩
  | @looking k code hk hcode =>
    cases code with
    | done r => exact h.looked ht hc ha (Or.inl hk)
    | acquire next => exact hcode.elim
    | release next => exact hcode.elim
    | access write next =>
      have hturn : c.turn t = (none, { c with
          thread := Function.update c.thread t (some (k, next c.shared)) }) := by
        simp only [Config.turn, hc, hcode.1, Config.goOn]
      have hlooking : Outside body looks (some (k, next c.shared)) (some (k, none)) :=
        .looking hk (hcode.2 c.shared)
      have hout := h.outside_step ht hlooking a.log
      have hset : Function.update a.thread t (some (k, none)) = a.thread :=
        (Function.update_eq_self_iff).mpr ha.symm
      rw [hturn]
      refine ⟨[], rfl, ?_⟩
      dsimp only [Object.set] at hout
      rwa [hset] at hout
  | @ended k r =>
    obtain ⟨hev, hnext⟩ := h.returned ht hc ha
    refine ⟨[.ret t], ?_, ?_⟩
    · rw [history, answers, hev]
      cases (c.turn t).1 <;> rfl
    · rw [final_cons]
      exact hnext

omit [DecidableEq T] in
theorem not_held (h : Matches body looks c a) (hc : c.thread t = none) (n : Nat) :
    c.lock ≠ some (t, n) := by
  intro hn
  obtain ⟨k, code, hi⟩ := h.held t n hn
  exact nomatch hc.symm.trans hi.thread

omit [DecidableEq T] in
theorem idle (h : Matches body looks c a) (hc : c.thread t = none) : a.thread t = none := by
  have hout := h.others t (h.not_held hc)
  rw [hc] at hout
  generalize a.thread t = y at hout
  cases hout
  rfl

theorem called (hbody : Disciplined body looks) (h : Matches body looks c a) (t : T) (k : κ) :
    Follows body looks a (step body c (.call t k)).1 (step body c (.call t k)).2 := by
  cases hc : c.thread t with
  | some l =>
    have hstep : step body c (.call t k) = (none, c) := by simp only [step, hc]
    rw [hstep]
    exact ⟨[], rfl, h⟩
  | none =>
    have ht : ∀ n, c.lock ≠ some (t, n) := h.not_held hc
    have ha : a.thread t = none := h.idle hc
    have hstep : step body c (.call t k) = (some (.call t k), c.goOn t k (body k)) := by
      simp only [step, hc]
    have hcall : Object.step (spec body) looks a (.call t k) =
        (some (.call t k), a.set t (some (k, none))) := by simp only [Object.step, ha]
    rw [hstep]
    refine ⟨[.call t k], by rw [history, answers, hcall]; rfl, ?_⟩
    rw [final_cons, hcall]
    cases hk : looks k with
    | true => exact h.outside_step ht (.looking hk (hbody.looking k hk)) a.log
    | false => exact h.outside_step ht (.begun hk) a.log

theorem step (hbody : Disciplined body looks) (h : Matches body looks c a) (x : Choice T κ) :
    Follows body looks a (Threads.step body c x).1 (Threads.step body c x).2 := by
  cases x with
  | call t k => exact h.called hbody t k
  | turn t =>
    by_cases ht : ∃ n, c.lock = some (t, n)
    · obtain ⟨n, hl⟩ := ht
      exact h.turn_inside hl
    · exact h.turn_outside hbody (not_exists.mp ht)

end Matches

section

variable {body : κ → Code σ ρ} {looks : κ → Bool} (hbody : Disciplined body looks)

omit [DecidableEq T] in
theorem history_cons {ι : Type} (m : Machine σ ι (Option (Event T κ ρ))) (s : σ) (x : ι)
    (xs : List ι) : history m s (x :: xs) = (m s x).1.toList ++ history m (m s x).2 xs := by
  rw [history, answers]
  cases h : (m s x).1 with
  | none => rfl
  | some e => rfl

omit [DecidableEq T] in
theorem history_append {ι : Type} (m : Machine σ ι (Option (Event T κ ρ))) (s : σ)
    (xs ys : List ι) : history m s (xs ++ ys) = history m s xs ++ history m (final m s xs) ys := by
  rw [history, answers_append, List.filterMap_append]
  rfl

include hbody

/-- Whatever the schedule, what the threads see is what an atomic object lets them see. -/
theorem linearizable {c : Config T σ κ ρ} {a : Object T σ κ ρ} (h : Matches body looks c a)
    (schedule : List (Choice T κ)) :
    ∃ ms, history (Object.step (spec body) looks) a ms = history (step body) c schedule ∧
      Matches body looks (final (step body) c schedule)
        (final (Object.step (spec body) looks) a ms) := by
  induction schedule generalizing c a with
  | nil => exact ⟨[], rfl, h⟩
  | cons x xs ih =>
    obtain ⟨ms, hms, hnext⟩ := h.step hbody x
    obtain ⟨ms', hms', hfinal⟩ := ih hnext
    refine ⟨ms ++ ms', ?_, ?_⟩
    · rw [history_append, hms, hms', history_cons]
    · rw [final_append]
      exact hfinal

end

def ofThread (t : T) (log : List (T × κ × ρ)) : List (T × κ × ρ) := log.filter fun e => e.1 = t

/-- What thread `t` was returned by the calls that do more than look. -/
def returnsTo (looks : κ → Bool) (t : T) (es : List (Event T κ ρ)) : List (T × κ × ρ) :=
  es.filterMap fun
    | .ret u k r => if u = t ∧ looks k = false then some (u, k, r) else none
    | .call _ _ => none

namespace Object

variable {spec : Machine σ κ ρ} {looks : κ → Bool}

/-- The calls that took effect make a serial run from `s`. -/
structure Serial (spec : Machine σ κ ρ) (s : σ) (a : Object T σ κ ρ) : Prop where
  answers : answers spec s (a.log.map fun e => e.2.1) = a.log.map fun e => e.2.2
  final : a.shared = final spec s (a.log.map fun e => e.2.1)

theorem Serial.step {s : σ} {a : Object T σ κ ρ} (h : Serial spec s a) (m : Move T κ ρ) :
    Serial spec s (Object.step spec looks a m).2 := by
  cases m with
  | call t k =>
    simp only [Object.step]
    split
    · exact ⟨h.answers, h.final⟩
    · exact h
  | commit t =>
    simp only [Object.step]
    split
    · refine ⟨?_, ?_⟩
      · simp only [List.map_append, answers_append, h.answers, ← h.final]
        rfl
      · simp only [List.map_append, final_append, ← h.final]
        rfl
    · exact h
  | look t r =>
    simp only [Object.step]
    split
    · split
      · exact ⟨h.answers, h.final⟩
      · exact h
    · exact h
  | ret t =>
    simp only [Object.step]
    split
    · exact ⟨h.answers, h.final⟩
    · exact h

/-- What an object has done for thread `t` beyond what it has returned to it. -/
def owed (looks : κ → Bool) (t : T) (a : Object T σ κ ρ) : List (T × κ × ρ) :=
  match a.thread t with
  | some (k, some r) => if looks k = false then [(t, k, r)] else []
  | _ => []

omit [DecidableEq T] in
theorem owed_of_not_answered (looks : κ → Bool) (t : T) {a : Object T σ κ ρ}
    (h : ∀ k r, a.thread t ≠ some (k, some r)) : owed looks t a = [] := by
  rw [owed]
  split
  · rename_i k r hk
    exact absurd hk (h k r)
  · rfl

theorem owed_set_of_ne (looks : κ → Bool) {t u : T} (hne : t ≠ u) (a : Object T σ κ ρ)
    (l : Option (κ × Option ρ)) : owed looks t (a.set u l) = owed looks t a := by
  simp only [owed, set, Function.update_of_ne hne]

theorem owed_set_self (looks : κ → Bool) (t : T) (a : Object T σ κ ρ) (k : κ) (r : ρ) :
    owed looks t (a.set t (some (k, some r))) = if looks k = false then [(t, k, r)] else [] := by
  simp only [owed, set, Function.update_self]

/-- Every effect for a thread has been returned to it, in the order of the effects, or is the
one that it is owed. -/
def Accounted (looks : κ → Bool) (es : List (Event T κ ρ)) (a : Object T σ κ ρ) : Prop :=
  ∀ t, (ofThread t a.log).filter (fun e => looks e.2.1 = false) =
    returnsTo looks t es ++ owed looks t a

theorem Accounted.call {es : List (Event T κ ρ)} {a : Object T σ κ ρ} (h : Accounted looks es a)
    {u : T} (hu : a.thread u = none) (k : κ) :
    Accounted looks (es ++ [.call u k]) (a.set u (some (k, none))) := by
  intro t
  have hreturns : returnsTo looks t (es ++ [.call u k]) = returnsTo looks t es := by
    rw [returnsTo, List.filterMap_append]
    exact List.append_nil _
  rw [hreturns]
  refine (h t).trans ?_
  by_cases hut : t = u
  · subst hut
    rw [owed_of_not_answered looks t (by simp [hu]), owed_of_not_answered looks t (by simp [set])]
  · rw [owed_set_of_ne looks hut]

theorem Accounted.step {es : List (Event T κ ρ)} {a : Object T σ κ ρ} (h : Accounted looks es a)
    (m : Move T κ ρ) :
    Accounted looks (es ++ (Object.step spec looks a m).1.toList) (Object.step spec looks a m).2 := by
  cases m with
  | call u k =>
    simp only [Object.step]
    split
    · rename_i hu
      exact h.call hu k
    · exact (List.append_nil es).symm ▸ h
  | commit u =>
    simp only [Object.step]
    split
    · rename_i k hu
      rw [Option.toList_none, List.append_nil]
      intro t
      have hnone : owed looks u a = [] := owed_of_not_answered looks u (by simp [hu])
      have ht := h t
      by_cases hut : t = u
      · subst hut
        rw [hnone, List.append_nil] at ht
        simp only [owed, set, Function.update_self, ofThread, List.filter_append]
        rw [← ht]
        by_cases hk : looks k = false <;> simp [hk, ofThread]
      · have hne : u ≠ t := Ne.symm hut
        refine Eq.trans ?_ (ht.trans (congrArg _ (owed_set_of_ne looks hut a _).symm))
        simp [ofThread, hne]
    · rwa [Option.toList_none, List.append_nil]
  | look u r =>
    simp only [Object.step]
    split
    · rename_i k hu
      rw [Option.toList_none, List.append_nil]
      split
      · rename_i hk
        intro t
        refine (h t).trans (congrArg _ ?_)
        by_cases hut : t = u
        · subst hut
          rw [owed_of_not_answered looks t (by simp [hu]), owed_set_self]
          simp [hk]
        · rw [owed_set_of_ne looks hut]
      · exact h
    · rwa [Option.toList_none, List.append_nil]
  | ret u =>
    simp only [Object.step]
    split
    · rename_i k r hu
      intro t
      have hreturns : returnsTo looks t (es ++ (some (Event.ret u k r)).toList) =
          returnsTo looks t es ++ if u = t ∧ looks k = false then [(u, k, r)] else [] := by
        rw [returnsTo, List.filterMap_append]
        refine congrArg _ ?_
        simp only [Option.toList_some, List.filterMap_cons, List.filterMap_nil]
        split <;> rename_i hc <;> split at hc <;> simp_all
      rw [hreturns]
      refine (h t).trans ?_
      by_cases hut : t = u
      · subst hut
        have hset : owed looks t (a.set t none) = [] :=
          owed_of_not_answered looks t (by simp [set])
        rw [hset, List.append_nil, owed, hu]
        simp
      · rw [owed_set_of_ne looks hut, if_neg (fun hc => hut hc.1.symm), List.append_nil]
    · exact (List.append_nil es).symm ▸ h

omit [DecidableEq T] in
theorem history_eq_collected {ι : Type} (m : Machine σ ι (Option (Event T κ ρ))) (s : σ)
    (xs : List ι) : history m s xs = collected m (fun _ e => e.toList) s xs := by
  induction xs generalizing s with
  | nil => rfl
  | cons x xs ih =>
    rw [collected, ← ih, history_cons]

theorem run (spec : Machine σ κ ρ) (looks : κ → Bool) (s : σ) (ms : List (Move T κ ρ)) :
    Serial spec s (Mealy.final (Object.step spec looks) (init s) ms) ∧
      Accounted looks (history (Object.step spec looks) (init s) ms)
        (Mealy.final (Object.step spec looks) (init s) ms) := by
  rw [history_eq_collected]
  let P (es : List (Event T κ ρ)) (a : Object T σ κ ρ) : Prop := Serial spec s a ∧ Accounted looks es a
  have hP : ∀ es a m, P es a → P (es ++ (Object.step spec looks a m).1.toList)
      (Object.step spec looks a m).2 := fun _ _ m h => ⟨h.1.step m, h.2.step m⟩
  have hinit : P [] (init s) := ⟨⟨rfl, rfl⟩, fun _ => rfl⟩
  exact collected_invariant hP hinit ms

end Object

def returns (looks : κ → Bool) (es : List (Event T κ ρ)) : List (T × κ × ρ) :=
  es.filterMap fun
    | .ret t k r => if looks k = false then some (t, k, r) else none
    | .call _ _ => none

theorem ofThread_returns (looks : κ → Bool) (t : T) (es : List (Event T κ ρ)) :
    ofThread t (returns looks es) = returnsTo looks t es := by
  rw [ofThread, returns, returnsTo, List.filter_filterMap]
  refine List.filterMap_congr fun e _ => ?_
  cases e with
  | call u k => rfl
  | ret u k r => by_cases hu : u = t <;> by_cases hk : looks k = false <;> simp [hu, hk]

theorem Object.Accounted.subperm {looks : κ → Bool} {es : List (Event T κ ρ)}
    {a : Object T σ κ ρ} (h : Object.Accounted looks es a) : (returns looks es).Subperm a.log := by
  classical
  refine List.subperm_ext_iff.mpr fun x _ => ?_
  have hcount : ∀ l : List (T × κ × ρ), (ofThread x.1 l).count x = l.count x := fun l =>
    List.count_filter (decide_eq_true rfl)
  rw [← hcount, ← hcount a.log, ofThread_returns]
  have hpre : returnsTo looks x.1 es <+: (ofThread x.1 a.log).filter fun e => looks e.2.1 = false := by
    rw [h x.1]
    exact List.prefix_append _ _
  exact (hpre.sublist.trans List.filter_sublist).count_le x

/-- Where no thread is owed anything, what took effect is what was returned. -/
theorem Object.Accounted.perm {looks : κ → Bool} {es : List (Event T κ ρ)} {a : Object T σ κ ρ}
    (h : Object.Accounted looks es a) (ha : ∀ t, a.thread t = none) :
    (returns looks es).Perm (a.log.filter fun e => looks e.2.1 = false) := by
  classical
  refine List.perm_iff_count.mpr fun x => ?_
  have hcount : ∀ l : List (T × κ × ρ), (ofThread x.1 l).count x = l.count x := fun l =>
    List.count_filter (decide_eq_true rfl)
  have hcomm : ofThread x.1 (a.log.filter fun e => looks e.2.1 = false) =
      (ofThread x.1 a.log).filter fun e => looks e.2.1 = false := List.filter_comm ..
  rw [← hcount, ← hcount (a.log.filter _), ofThread_returns, hcomm, h x.1,
    Object.owed_of_not_answered looks x.1 (by simp [ha]), List.append_nil]

omit [DecidableEq T] in
theorem Matches.at_rest {body : κ → Code σ ρ} {looks : κ → Bool} {c : Config T σ κ ρ}
    {a : Object T σ κ ρ} (h : Matches body looks c a) (hc : ∀ t, c.thread t = none) :
    c.lock = none ∧ ∀ t, a.thread t = none := by
  have hlock : c.lock = none := by
    cases hl : c.lock with
    | none => rfl
    | some l => exact absurd hl (h.not_held (hc l.1) l.2)
  exact ⟨hlock, fun t => h.idle (hc t)⟩

omit [DecidableEq T] in
theorem Object.Serial.collected {spec : Machine σ κ ρ} {s : σ} {a : Object T σ κ ρ}
    (h : Object.Serial spec s a) {β : Type} (f : κ → ρ → List β) :
    collected spec f s (a.log.map fun e => e.2.1) = a.log.flatMap fun e => f e.2.1 e.2.2 := by
  have hlog : ∀ (log : List (T × κ × ρ)) (s : σ),
      Mealy.answers spec s (log.map fun e => e.2.1) = (log.map fun e => e.2.2) →
      Mealy.collected spec f s (log.map fun e => e.2.1) = log.flatMap fun e => f e.2.1 e.2.2 := by
    intro log
    induction log with
    | nil => exact fun _ _ => rfl
    | cons e log ih =>
      intro s hs
      rw [List.map_cons, List.map_cons, Mealy.answers, List.cons.injEq] at hs
      rw [List.map_cons, Mealy.collected, List.flatMap_cons, hs.1, ih _ hs.2]
  exact hlog a.log s h.answers

theorem nodup_flatMap_of_subperm {α β : Type} {l l' : List α} (h : l.Subperm l') {f : α → List β}
    (hnd : (l'.flatMap f).Nodup) : (l.flatMap f).Nodup := by
  obtain ⟨l'', hperm, hsub⟩ := h
  exact (hperm.flatMap_right f).nodup_iff.mp ((hsub.flatMap f).nodup hnd)

def Event.onReturn {β : Type} (f : κ → ρ → List β) : Event T κ ρ → List β
  | .ret _ k r => f k r
  | .call _ _ => []

omit [DecidableEq T] in
theorem flatMap_returns {β : Type} (looks : κ → Bool) {f : κ → ρ → List β}
    (hf : ∀ k r, looks k = true → f k r = []) (es : List (Event T κ ρ)) :
    (returns looks es).flatMap (fun e => f e.2.1 e.2.2) = es.flatMap (Event.onReturn f) := by
  induction es with
  | nil => rfl
  | cons e es ih =>
    rw [List.flatMap_cons, ← ih]
    cases e with
    | call t k => rfl
    | ret t k r =>
      cases hk : looks k with
      | true => simp [returns, hk, Event.onReturn, hf k r hk]
      | false => simp [returns, hk, Event.onReturn]

omit [DecidableEq T] in
theorem flatMap_filter_of_looks {β : Type} (looks : κ → Bool) {f : κ → ρ → List β}
    (hf : ∀ k r, looks k = true → f k r = []) (log : List (T × κ × ρ)) :
    (log.filter fun e => looks e.2.1 = false).flatMap (fun e => f e.2.1 e.2.2) =
      log.flatMap fun e => f e.2.1 e.2.2 := by
  induction log with
  | nil => rfl
  | cons e log ih =>
    rw [List.flatMap_cons, ← ih]
    cases hk : looks e.2.1 with
    | true => simp [hk, hf _ e.2.2 hk]
    | false => simp [hk]

end Tito.Lib.Threads
