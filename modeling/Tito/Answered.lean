import Tito.Workers
import Mathlib.Algebra.Order.BigOperators.Group.Finset

namespace Tito.FanOut

open Lib Lib.Mealy Lib.Threads

variable {I : Type} [DecidableEq I]
variable {request : I} {parts : List String} {data : String → String}

omit [DecidableEq I] in
theorem mapM_results {results : Dict String String} {l : List String}
    (h : ∀ m ∈ l, results.get? m = some (data m)) : l.mapM results.get? = some (l.map data) := by
  induction l with
  | nil => rfl
  | cons m l ih =>
    rw [List.mapM_cons, h m List.mem_cons_self, ih fun m' hm' => h m' (List.mem_cons_of_mem m hm')]
    rfl

section

variable {strictOrder : Bool} {s : State I parts.length} {a : Inflight I parts.length}

theorem Sound.all_finished (h : Sound strictOrder request parts data s a)
    {response : Option Handle} (hs : s.main = .responding response) (i : Fin parts.length) :
    s.worker i = .finished :=
  h.joined i (by simp [hs, Main.joined])

theorem Sound.results (h : Sound strictOrder request parts data s a) {response : Option Handle}
    (hs : s.main = .responding response) : ∀ m ∈ parts, s.results.get? m = some (data m) := by
  intro m hm
  obtain ⟨i, rfl⟩ := List.mem_iff_get.mp hm
  exact h.fetched i (.inr (h.all_finished hs i))

theorem Sound.at_rest (h : Sound strictOrder request parts data s a) {response : Option Handle}
    (hs : s.main = .responding response) (t : Option (Fin parts.length)) : a.thread t = none := by
  cases t with
  | none =>
    cases ht : a.thread none with
    | none => rfl
    | some l =>
      rcases h.main_call l.1 l.2 ht with ⟨hm, -⟩ | ⟨hm, -⟩
      · cases hs.symm.trans hm
      · cases hs.symm.trans hm
  | some i => exact h.idle (by simp [h.all_finished hs i])

theorem Sound.left (h : Sound strictOrder request parts data s a) {response : Option Handle}
    (hs : s.main = .responding response) :
    ∃ k, response = some k ∧ Left request parts a.shared k := by
  have hq := h.queued
  simpa only [Queued, hs] using hq

theorem Sound.result_of_marked (h : Sound strictOrder request parts data s a)
    {i : Fin parts.length} (hi : marked s a i = true) :
    s.results.get? (parts.get i) = some (data (parts.get i)) := by
  refine h.fetched i ?_
  rw [marked, Bool.or_eq_true, decide_eq_true_eq] at hi
  rcases hi with hi | hi
  · exact .inr hi
  · left
    cases ht : a.thread (some i) with
    | none => simp [ht] at hi
    | some l => exact (h.worker_call i l.1 l.2 ht).1

theorem Sound.waiting (h : Sound strictOrder request parts data s a) {e : Entry I String}
    (he : e ∈ a.shared.plain.waiting) : ∃ f, e = asked request parts f ∧
      ∀ i, f i = true → s.results.get? (parts.get i) = some (data (parts.get i)) := by
  have hasked : a.shared.plain.waiting = [asked request parts (marked s a)] →
      ∃ f, e = asked request parts f ∧
        ∀ i, f i = true → s.results.get? (parts.get i) = some (data (parts.get i)) := by
    intro hw
    rw [hw, List.mem_singleton] at he
    exact ⟨marked s a, he, fun i hi => h.result_of_marked hi⟩
  have hempty : a.shared.plain.waiting ≠ [] := List.ne_nil_of_mem he
  have hq := h.queued
  rw [Queued] at hq
  split at hq
  · exact absurd (congrArg (fun w => w.plain.waiting) hq) hempty
  · rename_i r _ _
    have hadm := admission strictOrder request parts
    rw [← hq] at hadm
    cases r with
    | ok x =>
      rw [hadm.2, List.mem_singleton] at he
      exact ⟨fun _ => false, he, fun i hi => absurd hi Bool.false_ne_true⟩
    | error x => exact absurd hadm.2.2 hempty
  · exact absurd hq.2.2 hempty
  · exact hq.elim
  · obtain ⟨k, -, hleft⟩ := hq
    exact absurd hleft.1 hempty
  · obtain ⟨k, -, hleft⟩ := hq
    exact absurd hleft.1 hempty
  · exact hasked hq

end

omit [DecidableEq I] in
theorem respond_left {w : World I String} {h : Handle} (hleft : Left request parts w h)
    {results : Dict String String} (hresults : ∀ m ∈ parts, results.get? m = some (data m)) :
    respond w results h = some (.hashable request, parts.length,
      " ".intercalate ((parts.map data).mergeSort fun a b => a ≤ b)) := by
  obtain ⟨g, hg, hentry⟩ := World.look_eq_some.mp hleft.2
  have hmembers : g.members = parts := by
    rw [← g.members_entry h, hentry, members_asked]
  have hid : g.groupId = .hashable request := congrArg Entry.groupId hentry
  simp [respond, hg, hmembers, hid, mapM_results hresults]

/-- However the threads interleave, the request is answered whole or not yet: the response is the
group that was admitted, with exactly the given parts in their order, a result is there for each of
them, and nothing is left in the queue. Until then, no member of a waiting group is marked ready
whose result is not there. -/
theorem answered_whole (strictOrder : Bool) (request : I) (parts : List String)
    (data : String → String) (schedule : List (Option (Fin parts.length))) :
    let x := final ((parallelFanOut request parts data).step Request.method)
      (start strictOrder parts.length) schedule
    (∀ response, x.1.main = .responding response → ∃ h, response = some h ∧
      Left request parts x.2.shared h ∧
      respond x.2.shared x.1.results h = some (.hashable request, parts.length,
        " ".intercalate ((parts.map data).mergeSort fun a b => a ≤ b)) ∧
      x.2.shared.groups.values = []) ∧
    (x.2.lock = none → ∀ h ∈ x.2.shared.groups.values, ∀ (g : Group I String) (m : String),
      x.2.shared.objects[h]? = some g → g.ready.get? m = some true →
        x.1.results.get? m = some (data m)) := by
  intro x
  obtain ⟨a, hsound, hmatches⟩ := (keeps strictOrder request parts data).run disciplined
    (start_stands strictOrder request parts data) schedule
  refine ⟨fun response hx => ?_, fun hfree h hh g m hg hm => ?_⟩
  · obtain ⟨h, hresponse, hleft⟩ := hsound.left hx
    have hlock : x.2.lock = none := by
      cases hl : x.2.lock with
      | none => rfl
      | some l =>
        obtain ⟨k, code, hi⟩ := hmatches.held l.1 l.2 hl
        cases (hsound.at_rest hx l.1).symm.trans hi.pending
    rw [hmatches.free hlock]
    refine ⟨h, hresponse, hleft, respond_left hleft (hsound.results hx), ?_⟩
    rw [← hsound.consistent.map_handle_waiting, hleft.1]
    rfl
  · rw [hmatches.free hfree] at hh hg
    have hlook : a.shared.look h = some (g.entry h) := World.look_eq_some.mpr ⟨g, hg, rfl⟩
    obtain ⟨f, hf, hresults⟩ := hsound.waiting (e := g.entry h) (World.mem_waiting.mpr ⟨hh, hlook⟩)
    have hflag : (m, true) ∈ (g.entry h).flags := Dict.get?_eq_some_iff.mp hm
    rw [hf, asked, List.mem_ofFn] at hflag
    obtain ⟨i, hi⟩ := hflag
    obtain ⟨rfl, hmark⟩ := Prod.mk.inj hi
    exact hresults i hmark

def Worker.left : Worker → Nat
  | .unstarted => 3
  | .fetching => 2
  | .marking => 1
  | .finished => 0

def Main.left (n : Nat) : Main I → Nat
  | .admitting => 2 * n + 5
  | .starting i => (n - i) + n + 4
  | .joining i => (n - i) + 3
  | .releasing => 2
  | .responding _ => 0
  | .refused _ => 0
  | .failed => 0

def State.left {n : Nat} (s : State I n) : Nat := s.main.left n + ∑ i, (s.worker i).left

theorem sum_left_lt {n : Nat} {worker : Fin n → Worker} {i : Fin n} {x : Worker}
    (h : x.left < (worker i).left) :
    ∑ j, (Function.update worker i x j).left < ∑ j, (worker j).left := by
  refine Finset.sum_lt_sum (fun j _ => ?_) ⟨i, Finset.mem_univ i, ?_⟩
  · by_cases hj : j = i
    · subst hj
      rw [Function.update_self]
      exact Nat.le_of_lt h
    · rw [Function.update_of_ne hj]
  · rwa [Function.update_self]

theorem dwindles (strictOrder : Bool) (request : I) (parts : List String) (data : String → String) :
    (parallelFanOut request parts data).Dwindles (Sound strictOrder request parts data)
      State.left := by
  refine ⟨?_, ?_⟩
  · intro s s' a t h hs'
    cases t with
    | none =>
      rcases mainNext_own hs' with
        ⟨i, hi, hs, rfl⟩ | ⟨i, hi, hs, rfl⟩ | ⟨i, hi, hs, -, rfl⟩ | ⟨i, hi, hs, rfl⟩
      · have hnew := h.unstarted (i := ⟨i, hi⟩) (by simp [hs, Main.started])
        have hsum : ∑ j, (Function.update s.worker ⟨i, hi⟩ .fetching j).left <
            ∑ j, (s.worker j).left := sum_left_lt (by simp [hnew, Worker.left])
        simp only [State.left, hs, Main.left]
        omega
      · simp only [State.left, hs, Main.left]
        omega
      · simp only [State.left, hs, Main.left]
        omega
      · simp only [State.left, hs, Main.left]
        omega
    | some i =>
      obtain ⟨hw, rfl⟩ := fetch_own hs'
      exact Nat.add_lt_add_left (sum_left_lt (by simp [hw, Worker.left])) _
  · intro s a t k o r h hk
    cases t with
    | none =>
      have hmain : (mainGot s.main r).left parts.length < s.main.left parts.length := by
        rcases h.main_call k o hk with ⟨hs, -⟩ | ⟨hs, -⟩
        · rw [hs]
          cases r with
          | ok x =>
            simp only [mainGot, Main.left]
            omega
          | error e => simp [mainGot, Main.left]
        · rw [hs]
          have hend : (mainGot .releasing r).left parts.length = 0 := by
            cases r with
            | error e => rfl
            | ok x => cases x <;> rfl
          rw [hend]
          simp [Main.left]
      exact Nat.add_lt_add_right hmain _
    | some i =>
      obtain ⟨hw, -⟩ := h.worker_call i k o hk
      exact Nat.add_lt_add_left (sum_left_lt (by simp [hw, Worker.left])) _

/-- Where all threads wait, the main thread waits for nobody. -/
theorem Sound.ended {strictOrder : Bool} {s : State I parts.length}
    {a : Inflight I parts.length} (h : Sound strictOrder request parts data s a)
    (hwait : ∀ t, (parallelFanOut request parts data).next t s = .wait) :
    if parts ≠ [] ∧ parts.Nodup then ∃ k, s.main = .responding (some k)
    else s.main = .refused (.tito (refusal request parts)) := by
  have hmain : FanOut.mainNext (I := I) request parts s = .wait := hwait none
  rw [FanOut.mainNext] at hmain
  split at hmain
  · cases hmain
  · split at hmain <;> cases hmain
  · rename_i i hs
    split at hmain
    · rename_i hi
      split at hmain
      · cases hmain
      · rename_i hworking
        -- Worker `i` is started, so there is something for it to do.
        have hworker : FanOut.fetch (I := I) parts data s ⟨i, hi⟩ = .wait := hwait (some ⟨i, hi⟩)
        have hstarted := (h.started ⟨i, hi⟩).mpr (by simp [hs, Main.started, hi])
        rw [FanOut.fetch] at hworker
        split at hworker
        · rename_i hw
          exact absurd hw hstarted
        · cases hworker
        · cases hworker
        · rename_i hw
          exact absurd hw hworking
    · cases hmain
  · cases hmain
  · rename_i response hs
    rw [if_pos (h.accepted (by rw [hs]; rfl))]
    obtain ⟨k, rfl, -⟩ := h.left hs
    exact ⟨k, hs⟩
  · rename_i e hs
    have hq := h.queued
    simp only [Queued, hs] at hq
    obtain ⟨hparts, rfl, -⟩ := hq
    rw [if_neg]
    · exact hs
    · rintro ⟨hne, hnd⟩
      exact hparts.elim hne fun hdup => hdup hnd
  · rename_i hs
    have hq := h.queued
    simp only [Queued, hs] at hq

/-- Nobody waits for ever, and the program ends: from any state that the threads get into, a
scheduler that picks a thread that can go on, where there is one, brings it to the response, or to
the error that the admission raises for a request without parts or with one part twice. -/
theorem ends_answered (strictOrder : Bool) (request : I) (parts : List String)
    (data : String → String) (schedule : List (Option (Fin parts.length)))
    (pick : Running I parts.length → Option (Fin parts.length))
    (hpick : ∀ x, (∃ t, (parallelFanOut request parts data).canMove x t = true) →
      (parallelFanOut request parts data).canMove x (pick x) = true) :
    let step := (parallelFanOut request parts data).step Request.method
    let x := final step (start strictOrder parts.length) schedule
    ∃ n, let main := ((fun x => (step x (pick x)).2)^[n] x).1.main
      if parts ≠ [] ∧ parts.Nodup then ∃ h, main = .responding (some h)
      else main = .refused (.tito (refusal request parts)) := by
  intro step x
  have hx := (keeps strictOrder request parts data).run disciplined
    (start_stands strictOrder request parts data) schedule
  obtain ⟨n, hstands, hrest⟩ := (keeps strictOrder request parts data).comes_to_rest disciplined
    (dwindles strictOrder request parts data) hpick hx
  have hwait := fun t => (hstands.at_rest disciplined hrest t).2
  obtain ⟨a, hsound, -⟩ := hstands
  exact ⟨n, hsound.ended hwait⟩

/-- A request with two parts, under a scheduler that lets the main thread go first where it can. -/
theorem ends_answered_two_parts :
    let parts := ["profile", "orders"]
    let client := parallelFanOut "request-7" parts fun part => part ++ "-data"
    let pick (x : Running String 2) : Option (Fin 2) :=
      ([none, some 0, some 1].find? (client.canMove x)).getD none
    ∃ n, let main :=
        ((fun x => (client.step Request.method x (pick x)).2)^[n] (start true 2)).1.main
      if parts ≠ [] ∧ parts.Nodup then ∃ h, main = .responding (some h)
      else main = .refused (.tito (refusal "request-7" parts)) := by
  intro parts client pick
  refine ends_answered true "request-7" parts (fun part => part ++ "-data") [] pick ?_
  rintro x ⟨t, ht⟩
  have hall : ∀ t : Option (Fin 2), t ∈ [none, some 0, some 1] := by decide
  cases hfind : [none, some 0, some 1].find? (client.canMove x) with
  | none => exact absurd ht (List.find?_eq_none.mp hfind t (hall t))
  | some u =>
    have hpick : pick x = u := congrArg (Option.getD · none) hfind
    rw [hpick]
    exact List.find?_some hfind

end Tito.FanOut
