import Tito.FanOut

namespace Tito.FanOut

open Lib Lib.Mealy Lib.Threads

variable {I : Type} [DecidableEq I]
variable {request : I} {parts : List String} {data : String → String}

def Main.started (n : Nat) : Main I → Nat
  | .admitting => 0
  | .starting i => min i n
  | .refused _ => 0
  | _ => n

def Main.accepted : Main I → Bool
  | .admitting => false
  | .refused _ => false
  | _ => true

def Main.joined (n : Nat) : Main I → Nat
  | .joining i => min i n
  | .releasing => n
  | .responding _ => n
  | _ => 0

/-- The queue as the threads share it, each call of theirs at one moment. -/
abbrev Inflight (I : Type) (n : Nat) :=
  Object (Option (Fin n)) (World I String) (Request I String)
    (Except (PyError I String) (Returned String))

/-- A part is marked once its worker's call has taken effect. -/
def marked {n : Nat} (s : State I n) (a : Inflight I n) (i : Fin n) : Bool :=
  decide (s.worker i = .finished) || ((a.thread (some i)).bind Prod.snd).isSome

/-- How the queue stands to where the main thread is. -/
def Queued (strictOrder : Bool) (request : I) (parts : List String) (s : State I parts.length)
    (a : Inflight I parts.length) : Prop :=
  match s.main, (a.thread none).bind Prod.snd with
  | .admitting, none => a.shared = World.init strictOrder
  | .admitting, some r => (r, a.shared) = invoke (World.init strictOrder)
      (.op (.admitGroup (.hashable request) (.iterable (parts.map .hashable))))
  | .refused e, _ => (parts = [] ∨ ¬ parts.Nodup) ∧ e = .tito (refusal request parts) ∧
      a.shared.plain.waiting = []
  | .failed, _ => False
  | .releasing, some r => ∃ h, r = .ok (.group h) ∧ Left request parts a.shared h
  | .responding response, _ => ∃ h, response = some h ∧ Left request parts a.shared h
  | _, _ => a.shared.plain.waiting = [asked request parts (marked s a)]

/-- What holds at every moment of a fan-out. -/
structure Sound (strictOrder : Bool) (request : I) (parts : List String) (data : String → String)
    (s : State I parts.length) (a : Inflight I parts.length) : Prop where
  consistent : Consistent a.shared
  main_call : ∀ k o, a.thread none = some (k, o) →
    (s.main = .admitting ∧
        k = .op (.admitGroup (.hashable request) (.iterable (parts.map .hashable)))) ∨
      (s.main = .releasing ∧ k = .op .release)
  worker_call : ∀ i k o, a.thread (some i) = some (k, o) →
    s.worker i = .marking ∧ k = .op (.markReady (.hashable (parts.get i)))
  accepted : s.main.accepted = true → parts ≠ [] ∧ parts.Nodup
  started : ∀ i : Fin parts.length, s.worker i ≠ .unstarted ↔ ↑i < s.main.started parts.length
  joined : ∀ i : Fin parts.length, ↑i < s.main.joined parts.length → s.worker i = .finished
  fetched : ∀ i, s.worker i = .marking ∨ s.worker i = .finished →
    s.results.get? (parts.get i) = some (data (parts.get i))
  queued : Queued strictOrder request parts s a

theorem Queued.congr {strictOrder : Bool} {s s' : State I parts.length}
    {a a' : Inflight I parts.length} (h : Queued strictOrder request parts s a)
    (hmain : s'.main = s.main)
    (hthread : (a'.thread none).bind Prod.snd = (a.thread none).bind Prod.snd)
    (hshared : a'.shared = a.shared) (hmarked : marked s' a' = marked s a) :
    Queued strictOrder request parts s' a' := by
  rw [Queued, hmain, hthread, hshared, hmarked]
  exact h

section

variable {strictOrder : Bool} {s : State I parts.length} {a : Inflight I parts.length}

theorem Sound.unstarted (h : Sound strictOrder request parts data s a) {i : Fin parts.length}
    (hi : s.main.started parts.length ≤ i) : s.worker i = .unstarted := by
  by_contra hne
  exact Nat.not_lt_of_le hi ((h.started i).mp hne)

theorem Sound.at_work (h : Sound strictOrder request parts data s a) {i : Fin parts.length}
    (hstarted : s.worker i ≠ .unstarted) (hworking : s.worker i ≠ .finished) :
    (∃ j, s.main = .starting j) ∨ ∃ j, s.main = .joining j := by
  have hstarted := (h.started i).mp hstarted
  have hjoined := mt (h.joined i) hworking
  cases hm : s.main with
  | admitting => simp [hm, Main.started] at hstarted
  | starting j => exact .inl ⟨j, rfl⟩
  | joining j => exact .inr ⟨j, rfl⟩
  | releasing => simp [hm, Main.joined] at hjoined
  | responding r => simp [hm, Main.joined] at hjoined
  | refused e => simp [hm, Main.started] at hstarted
  | failed =>
    have hq := h.queued
    simp only [Queued, hm] at hq

theorem queued_at_work (hs : (∃ j, s.main = .starting j) ∨ ∃ j, s.main = .joining j) :
    Queued strictOrder request parts s a ↔
      a.shared.plain.waiting = [asked request parts (marked s a)] := by
  rcases hs with ⟨j, hj⟩ | ⟨j, hj⟩
  · simp only [Queued, hj]
  · simp only [Queued, hj]

theorem Sound.waits (h : Sound strictOrder request parts data s a)
    (hs : (∃ j, s.main = .starting j) ∨ ∃ j, s.main = .joining j) :
    (parts ≠ [] ∧ parts.Nodup) ∧
      a.shared.plain.waiting = [asked request parts (marked s a)] := by
  refine ⟨?_, (queued_at_work hs).mp h.queued⟩
  rcases hs with ⟨j, hj⟩ | ⟨j, hj⟩
  · exact h.accepted (by rw [hj]; rfl)
  · exact h.accepted (by rw [hj]; rfl)

theorem Sound.idle (h : Sound strictOrder request parts data s a) {i : Fin parts.length}
    (hw : s.worker i ≠ .marking) : a.thread (some i) = none := by
  cases hi : a.thread (some i) with
  | none => rfl
  | some l => exact absurd (h.worker_call i l.1 l.2 hi).1 hw

omit [DecidableEq I] in
theorem marked_goOn {i : Fin parts.length} {x : Worker} (hx : x ≠ .finished)
    (hw : s.worker i ≠ .finished) (main : Main I) (results : Dict String String) :
    marked ⟨main, Function.update s.worker i x, results⟩ a = marked s a := by
  funext j
  by_cases hj : j = i
  · subst hj
    simp [marked, hw, hx]
  · simp [marked, Function.update_of_ne hj]

omit [DecidableEq I] in
theorem marked_commit (i : Fin parts.length) (k : Request I String)
    (r : Except (PyError I String) (Returned String)) :
    marked s (a.set (some i) (some (k, some r))) = Function.update (marked s a) i true := by
  funext j
  by_cases hj : j = i
  · subst hj
    simp [marked, Object.set]
  · simp [marked, Object.set, hj]

theorem Sound.main_goes (h : Sound strictOrder request parts data s a) {main : Main I}
    {a' : Inflight I parts.length} (hshared : a'.shared = a.shared)
    (hidle : a'.thread none = none) (hothers : ∀ i, a'.thread (some i) = a.thread (some i))
    (haccepted : main.accepted = true → parts ≠ [] ∧ parts.Nodup)
    (hstarted : main.started parts.length = s.main.started parts.length)
    (hjoined : ∀ i : Fin parts.length, ↑i < main.joined parts.length → s.worker i = .finished)
    (hqueued : Queued strictOrder request parts { s with main := main } a') :
    Sound strictOrder request parts data { s with main := main } a' where
  consistent := hshared ▸ h.consistent
  main_call := fun _ _ hk => nomatch hidle.symm.trans hk
  worker_call := fun i k o hk => h.worker_call i k o ((hothers i).symm.trans hk)
  accepted := haccepted
  started := fun i => hstarted ▸ h.started i
  joined := hjoined
  fetched := h.fetched
  queued := hqueued

theorem Sound.worker_goes (h : Sound strictOrder request parts data s a) {i : Fin parts.length}
    (hbegun : s.worker i ≠ .unstarted) (hworking : s.worker i ≠ .finished) {x : Worker}
    (hx : x ≠ .unstarted) {results : Dict String String} {a' : Inflight I parts.length}
    (hshared : a'.shared = a.shared) (hidle : a'.thread (some i) = none)
    (hothers : ∀ t, t ≠ some i → a'.thread t = a.thread t)
    (hresults : ∀ j, j = i ∨ s.worker j = .marking ∨ s.worker j = .finished →
      results.get? (parts.get j) = some (data (parts.get j)))
    (hmarked : marked ⟨s.main, Function.update s.worker i x, results⟩ a' = marked s a) :
    Sound strictOrder request parts data ⟨s.main, Function.update s.worker i x, results⟩ a' := by
  have hmain : a'.thread none = a.thread none := hothers none (by simp)
  refine ⟨hshared ▸ h.consistent, ?_, ?_, h.accepted, ?_, ?_, ?_, ?_⟩
  · intro k o hk
    exact h.main_call k o (hmain.symm.trans hk)
  · intro j k o hk
    have hne : j ≠ i := by
      rintro rfl
      cases hidle.symm.trans hk
    have hold := h.worker_call j k o ((hothers (some j) (by simpa using hne)).symm.trans hk)
    rwa [← Function.update_of_ne hne x s.worker] at hold
  · intro j
    refine Iff.trans ?_ (h.started j)
    by_cases hj : j = i
    · subst hj
      simp [hbegun, hx]
    · simp [Function.update_of_ne hj]
  · intro j hj
    have hf := h.joined j hj
    have hne : j ≠ i := by
      rintro rfl
      exact hworking hf
    exact (Function.update_of_ne hne _ _).trans hf
  · intro j hj
    refine hresults j ?_
    by_cases hji : j = i
    · exact .inl hji
    · rw [← Function.update_of_ne hji x s.worker]
      exact .inr hj
  · exact h.queued.congr rfl (congrArg (Option.bind · Prod.snd) hmain) hshared hmarked

theorem Sound.starts (h : Sound strictOrder request parts data s a) {i : Nat}
    (hi : i < parts.length) (hs : s.main = .starting i) (hidle : a.thread none = none) :
    Sound strictOrder request parts data { s with
      main := .starting (i + 1)
      worker := Function.update s.worker ⟨i, hi⟩ .fetching } a := by
  have hnew := h.unstarted (i := ⟨i, hi⟩) (by simp [hs, Main.started])
  have hmarked : marked { s with
      main := .starting (i + 1)
      worker := Function.update s.worker ⟨i, hi⟩ .fetching } a = marked s a :=
    marked_goOn (by decide) (by simp [hnew]) _ _
  obtain ⟨hparts, hwaiting⟩ := h.waits (.inl ⟨i, hs⟩)
  refine ⟨h.consistent, fun _ _ hk => (nomatch hidle.symm.trans hk), ?_,
    fun _ => hparts, ?_, ?_, ?_, ?_⟩
  · intro j k o hj
    obtain ⟨hw, hk⟩ := h.worker_call j k o hj
    have hne : j ≠ ⟨i, hi⟩ := by
      rintro rfl
      cases hnew.symm.trans hw
    exact ⟨(Function.update_of_ne hne _ _).trans hw, hk⟩
  · intro j
    have hstarted := h.started j
    simp only [hs, Main.started] at hstarted ⊢
    by_cases hj : j = ⟨i, hi⟩
    · subst hj
      have hlt : i < min (i + 1) parts.length := by omega
      simpa using hlt
    · have hne : (j : Nat) ≠ i := fun heq => hj (Fin.ext heq)
      rw [Function.update_of_ne hj, hstarted]
      omega
  · intro j hj
    simp [Main.joined] at hj
  · intro j hj
    by_cases hji : j = ⟨i, hi⟩
    · subst hji
      simp at hj
    · dsimp only at hj
      rw [Function.update_of_ne hji] at hj
      exact h.fetched j hj
  · simp only [Queued, hmarked]
    exact hwaiting

theorem Sound.mainNext (h : Sound strictOrder request parts data s a)
    (hidle : a.thread none = none) {s' : State I parts.length}
    (hs' : mainNext (I := I) request parts s = .own s') :
    Sound strictOrder request parts data s' a := by
  rcases mainNext_own hs' with
    ⟨i, hi, hs, rfl⟩ | ⟨i, hi, hs, rfl⟩ | ⟨i, hi, hs, hf, rfl⟩ | ⟨i, hi, hs, rfl⟩
  · exact h.starts hi hs hidle
  · obtain ⟨hparts, hwaiting⟩ := h.waits (.inl ⟨i, hs⟩)
    refine h.main_goes rfl hidle (fun _ => rfl) (fun _ => hparts) ?_ ?_ hwaiting
    · rw [hs]
      exact (Nat.min_eq_right hi).symm
    · intro j hj
      simp [Main.joined] at hj
  · obtain ⟨hparts, hwaiting⟩ := h.waits (.inr ⟨i, hs⟩)
    refine h.main_goes rfl hidle (fun _ => rfl) (fun _ => hparts) ?_ ?_ hwaiting
    · rw [hs]
      rfl
    · intro j hj
      by_cases hji : (j : Nat) = i
      · obtain rfl : j = ⟨i, hi⟩ := Fin.ext hji
        exact hf
      · refine h.joined j ?_
        simp only [hs, Main.joined] at hj ⊢
        omega
  · obtain ⟨hparts, hwaiting⟩ := h.waits (.inr ⟨i, hs⟩)
    refine h.main_goes rfl hidle (fun _ => rfl) (fun _ => hparts) ?_ ?_ ?_
    · rw [hs]
      rfl
    · intro j _
      refine h.joined j ?_
      simp only [hs, Main.joined]
      omega
    · simp only [Queued, hidle, Option.bind_none]
      exact hwaiting

theorem Sound.fetch (h : Sound strictOrder request parts data s a) {i : Fin parts.length}
    (hidle : a.thread (some i) = none) {s' : State I parts.length}
    (hs' : fetch (I := I) parts data s i = .own s') :
    Sound strictOrder request parts data s' a := by
  obtain ⟨hw, rfl⟩ := fetch_own hs'
  refine h.worker_goes (by simp [hw]) (by simp [hw]) (by decide) rfl hidle (fun _ _ => rfl) ?_
    (marked_goOn (by decide) (by simp [hw]) _ _)
  intro j hj
  rw [Dict.get?_set]
  split
  · rename_i hji
    rw [hji]
  · rename_i hji
    refine h.fetched j (hj.resolve_left ?_)
    rintro rfl
    exact hji rfl

theorem Sound.call (h : Sound strictOrder request parts data s a) {t : Option (Fin parts.length)}
    (hidle : a.thread t = none) {k : Request I String}
    (hk : (parallelFanOut request parts data).next t s = .call k) :
    Sound strictOrder request parts data s (a.set t (some (k, none))) := by
  have hthread : ∀ u, ((a.set t (some (k, none))).thread u).bind Prod.snd =
      (a.thread u).bind Prod.snd := by
    intro u
    by_cases hu : u = t
    · subst hu
      simp [Object.set, hidle]
    · simp [Object.set, Function.update_of_ne hu]
  refine { h with main_call := ?_, worker_call := ?_, queued := ?_ }
  · intro k' o hk'
    cases t with
    | none =>
      obtain ⟨rfl, rfl⟩ : k = k' ∧ none = o := by simpa [Object.set] using hk'
      exact mainNext_call hk
    | some i => exact h.main_call k' o (by simpa [Object.set] using hk')
  · intro j k' o hk'
    by_cases hj : some j = t
    · subst hj
      obtain ⟨rfl, rfl⟩ : k = k' ∧ none = o := by simpa [Object.set] using hk'
      exact fetch_call hk
    · exact h.worker_call j k' o (by simpa [Object.set, Function.update_of_ne hj] using hk')
  · refine h.queued.congr rfl (hthread none) rfl ?_
    funext j
    rw [marked, marked, hthread]

/-- The calls are three, and each takes effect at a moment of its own. -/
theorem Sound.commit (h : Sound strictOrder request parts data s a)
    {t : Option (Fin parts.length)} {k : Request I String} (hk : a.thread t = some (k, none)) :
    Sound strictOrder request parts data s { a.set t (some (k, some (invoke a.shared k).1)) with
      shared := (invoke a.shared k).2
      log := a.log ++ [(t, k, (invoke a.shared k).1)] } := by
  have hcalls : ∀ u k' o, (a.set t (some (k, some (invoke a.shared k).1))).thread u = some (k', o) →
      ∃ o', a.thread u = some (k', o') := by
    intro u k' o hu
    by_cases hut : u = t
    · subst hut
      obtain ⟨rfl, -⟩ : k = k' ∧ _ := by simpa [Object.set] using hu
      exact ⟨none, hk⟩
    · exact ⟨o, by simpa [Object.set, Function.update_of_ne hut] using hu⟩
  have hop : ∃ op, k = .op op := by
    cases t with
    | none => rcases h.main_call k none hk with ⟨-, rfl⟩ | ⟨-, rfl⟩ <;> exact ⟨_, rfl⟩
    | some i => exact ⟨_, (h.worker_call i k none hk).2⟩
  obtain ⟨op, rfl⟩ := hop
  refine { h with
    consistent := (invoke_plain h.consistent op).2.2
    main_call := ?_
    worker_call := ?_
    queued := ?_ }
  · intro k' o hk'
    obtain ⟨o', ho'⟩ := hcalls none k' o hk'
    exact h.main_call k' o' ho'
  · intro i k' o hk'
    obtain ⟨o', ho'⟩ := hcalls (some i) k' o hk'
    exact h.worker_call i k' o' ho'
  · have hq := h.queued
    cases t with
    | none =>
      rcases h.main_call _ none hk with ⟨hs, hreq⟩ | ⟨hs, hreq⟩
      · cases hreq
        simp only [Queued, hs, hk, Option.bind_some] at hq
        simp only [Queued, hs, Object.set, Function.update_self, Option.bind_some, hq]
      · cases hreq
        simp only [Queued, hs, hk, Option.bind_some] at hq
        simp only [Queued, hs, Object.set, Function.update_self, Option.bind_some]
        refine released h.consistent hq fun i => ?_
        have hfinished := h.joined i (by simp [hs, Main.joined])
        simp [marked, hfinished]
    | some i =>
      obtain ⟨hw, hreq⟩ := h.worker_call i _ none hk
      cases hreq
      have hwork := h.at_work (i := i) (by simp [hw]) (by simp [hw])
      obtain ⟨hparts, hwaiting⟩ := h.waits hwork
      refine (queued_at_work hwork).mpr ?_
      refine (marked_part h.consistent hparts.2 hwaiting i).trans ?_
      rw [← marked_commit]
      rfl

theorem Sound.admission_returned (h : Sound strictOrder request parts data s a)
    {k : Request I String} {r : Except (PyError I String) (Returned String)}
    (hk : a.thread none = some (k, some r)) (hs : s.main = .admitting) :
    Sound strictOrder request parts data { s with main := mainGot s.main r } (a.set none none) := by
  have hnone : ∀ i, s.worker i = .unstarted := by
    intro i
    exact h.unstarted (by simp [hs, Main.started])
  have hq := h.queued
  simp only [Queued, hs, hk, Option.bind_some] at hq
  have hadm := admission strictOrder request parts
  rw [← hq] at hadm
  cases r with
  | ok x =>
    have hmarked : (fun _ => false) = marked s a := by
      funext i
      have hidle := h.idle (i := i) (by simp [hnone])
      simp [marked, hnone, hidle]
    rw [hs]
    refine h.main_goes rfl (by simp [Object.set]) (fun i => by simp [Object.set])
      (fun _ => hadm.1) ?_ ?_ ?_
    · simp [mainGot, hs, Main.started]
    · intro i hi
      simp [mainGot, Main.joined] at hi
    · refine hadm.2.trans ?_
      rw [hmarked]
      rfl
  | error e =>
    rw [hs]
    refine h.main_goes rfl (by simp [Object.set]) (fun i => by simp [Object.set]) ?_ ?_ ?_ hadm
    · exact fun haccepted => absurd haccepted Bool.false_ne_true
    · simp [mainGot, hs, Main.started]
    · intro i hi
      simp [mainGot, Main.joined] at hi

theorem Sound.release_returned (h : Sound strictOrder request parts data s a)
    {k : Request I String} {r : Except (PyError I String) (Returned String)}
    (hk : a.thread none = some (k, some r)) (hs : s.main = .releasing) :
    Sound strictOrder request parts data { s with main := mainGot s.main r } (a.set none none) := by
  have hq := h.queued
  simp only [Queued, hs, hk, Option.bind_some] at hq
  obtain ⟨response, rfl, hleft⟩ := hq
  rw [hs]
  refine h.main_goes rfl (by simp [Object.set]) (fun i => by simp [Object.set]) ?_ ?_ ?_
    ⟨response, rfl, hleft⟩
  · exact fun _ => h.accepted (by rw [hs]; rfl)
  · rw [hs]
    rfl
  · intro i hi
    exact h.joined i (by rwa [hs])

theorem Sound.mark_returned (h : Sound strictOrder request parts data s a) {i : Fin parts.length}
    {k : Request I String} {r : Except (PyError I String) (Returned String)}
    (hk : a.thread (some i) = some (k, some r)) :
    Sound strictOrder request parts data
      { s with worker := Function.update s.worker i .finished } (a.set (some i) none) := by
  obtain ⟨hw, -⟩ := h.worker_call i _ _ hk
  refine h.worker_goes (by simp [hw]) (by simp [hw]) (by decide) rfl (by simp [Object.set]) ?_ ?_ ?_
  · intro t ht
    simp [Object.set, ht]
  · rintro j (rfl | hj)
    · exact h.fetched j (.inl hw)
    · exact h.fetched j hj
  · funext j
    by_cases hj : j = i
    · subst hj
      simp [marked, Object.set, hk]
    · simp [marked, Object.set, hj]

theorem Sound.ret (h : Sound strictOrder request parts data s a)
    {t : Option (Fin parts.length)} {k : Request I String}
    {r : Except (PyError I String) (Returned String)}
    (hk : a.thread t = some (k, some r)) :
    Sound strictOrder request parts data ((parallelFanOut request parts data).got t k r s)
      (a.set t none) := by
  cases t with
  | none =>
    rcases h.main_call _ _ hk with ⟨hs, -⟩ | ⟨hs, -⟩
    · exact h.admission_returned hk hs
    · exact h.release_returned hk hs
  | some i => exact h.mark_returned hk

end

theorem keeps (strictOrder : Bool) (request : I) (parts : List String) (data : String → String) :
    (parallelFanOut request parts data).Keeps (spec Request.method) Request.looks
      (Sound strictOrder request parts data) := by
  rw [spec_method]
  refine ⟨?_, ?_, ?_, ?_, ?_⟩
  · intro s s' a t h hidle hs'
    cases t with
    | none => exact h.mainNext hidle hs'
    | some i => exact h.fetch hidle hs'
  · exact fun h hidle hk => h.call hidle hk
  · exact fun h hk => h.commit hk
  · intro s a t k r h hk hlook
    cases t with
    | none => rcases h.main_call k none hk with ⟨-, rfl⟩ | ⟨-, rfl⟩ <;> cases hlook
    | some i =>
      obtain ⟨-, rfl⟩ := h.worker_call i k none hk
      cases hlook
  · exact fun h hk => h.ret hk

theorem start_stands (strictOrder : Bool) (request : I) (parts : List String)
    (data : String → String) :
    Client.Stands (Sound strictOrder request parts data) Request.method Request.looks
      (start strictOrder parts.length) := by
  refine ⟨Object.init (World.init strictOrder), ?_, Matches.init _⟩
  refine ⟨init_consistent strictOrder, ?_, ?_, fun h => absurd h Bool.false_ne_true, ?_, ?_, ?_, rfl⟩
  · intro k o hk
    cases hk
  · intro i k o hk
    cases hk
  · simp [start, State.init, Main.started]
  · simp [start, State.init, Main.joined]
  · simp [start, State.init]

end Tito.FanOut
